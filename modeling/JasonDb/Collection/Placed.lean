import JasonDb.Collection.Grants
import JasonDb.Database.Placed

namespace JasonDb

open Lib

variable {ℓ α : Type} {J : Database → Prop} {I : ℓ → Prop} {m : PageNum} {name : String}

-- A transaction that does not write the page of the metadata.
def Transaction.Apart (m : PageNum) (tx : Transaction) : Prop :=
  PagesIn (· ≠ m) (fun _ => True) tx.writes

theorem apart_of_blank {tx : Transaction} (h : tx.Blank) : tx.Apart m := by
  rw [Transaction.Apart, h.writes]
  exact pagesIn_empty

theorem Lasting.unattached (hJ : Lasting J) : Unattached J where
  txIdCounter db _ h := hJ db _ h ⟨rfl, rfl, rfl, rfl, rfl, rfl, rfl⟩
  txManager db _ h := hJ db _ h (aside_txManager db _)

namespace Collection

def Work.Apart (m : PageNum) (work : Work) : Prop := work.tx.Apart m

-- The call is a transaction that ends with the metadata in their page.
def Stores (m : PageNum) (body : DbM ℓ α) : Prop :=
  Proc.Ends (Database.Placed m) (fun _ => True) (fun _ _ => Database.Stored m) body

theorem stores_inTransaction {body : WorkM α}
    (h : Proc.Ends (Database.Placed m) (Work.Apart m) (fun _ _ => Database.Stored m) body) :
    Stores m (inTransaction body : DbM ℓ α) := by
  refine lasting_placed.unattached.safe_begin.ends_bind fun tx hblank => ?_
  have htx : tx.Apart m := apart_of_blank hblank
  intro l db hl hs r l' db' he
  -- the body runs to its end, whatever its result
  rcases hbody : Proc.exec body ⟨tx, BTree.open 0⟩ db with ⟨result, work, db₁⟩
  obtain ⟨hs₁, hwork, hok⟩ := h ⟨tx, BTree.open 0⟩ db htx hs _ _ _ hbody
  have hattempt : Proc.exec (Proc.within ⟨tx, BTree.open 0⟩ (Proc.attempt body) : DbM ℓ _) l db =
      (.ok (result, work), l, db₁) := by
    rw [Proc.exec_within, Proc.exec_attempt, hbody]
    rfl
  rw [Proc.exec_bind_ok hattempt] at he
  have hlast : Lasting fun db => db.Placed m ∧ ∀ a, result = .ok a → db.Stored m :=
    fun _ _ h ha => ⟨h.1.aside ha, fun a hr => (h.2 a hr).aside ha⟩
  have hdrop : Proc.Safe (fun db => db.Placed m ∧ ∀ a, result = .ok a → db.Stored m)
      (fun _ : ℓ => True) (fun a => result = .ok a) (do
        let _ ← Proc.within work.tx Transaction.dropTransaction
        Proc.ofExcept result) := by
    refine ((hlast.unattached.safe_dropTransaction fun _ _ => pagesIn_empty).within hwork).bind
      fun _ _ => ?_
    exact Proc.safe_ofExcept fun _ hr => hr
  obtain ⟨hdone, -, hresult⟩ := hdrop.exec he trivial ⟨hs₁, hok⟩
  exact ⟨hdone.1, trivial, fun a ha => hdone.2 a (hresult a ha)⟩

section Work

-- A transaction with something to commit.
def Work.Written (m : PageNum) (work : Work) : Prop := work.Apart m ∧ work.tx.writes.isEmpty = false

theorem safe_writeVersion_apart (id : String) (data : Json) :
    Proc.Safe (Database.Placed m) (Work.Apart m)
      (fun r => r.1 ∈ r.2 ∧ PagesIn (· ≠ m) (fun _ => True) r.2) (writeVersion id data) :=
  Proc.safe_getLocal.bind fun _ _ => safe_writeVersionedDocument (grants_placed fun _ => True)
    (fun _ => trivial) (fun _ => trivial) pagesIn_empty

theorem ends_recordWrite (id : String) {p : PageNum} {pages : HashMap PageNum Page} (hp : p ∈ pages)
    (h : PagesIn (· ≠ m) (fun _ => True) pages) :
    Proc.Ends (Database.Placed m) (Work.Apart m) (fun _ work _ => work.Written m)
      (recordWrite name id p pages) := by
  intro work db hwork hs r work' db' he
  have hpages := PagesIn.insertAll hwork h
  have hmem : p ∈ pages.toList.foldl (fun writes entry => writes.insert entry.1 entry.2)
      work.tx.writes := mem_insertAll hp
  obtain ⟨rfl, rfl, rfl⟩ := by simpa [recordWrite, modifyTx, Proc.exec_modifyLocal] using he
  exact ⟨hs, hpages, fun _ _ => ⟨hpages, HashMap.isEmpty_of_mem hmem⟩⟩

theorem safe_openOrCreate_apart :
    Proc.Safe (Database.Placed m) (Work.Apart m) (fun _ => True) (openOrCreate name) := by
  refine safe_getMetadata.bind fun metadata _ => ?_
  split
  · exact (BTree.safe_new (grants_anywhere fun _ => True) fun _ => trivial).bind fun _ _ =>
      Proc.safe_modifyLocal fun _ hw => hw
  · exact Proc.safe_modifyLocal fun _ hw => hw

theorem ends_insertDocument (id : String) (fields : Json.Map) :
    Proc.Ends (Database.Placed m) (Work.Apart m) (fun _ work _ => work.Written m)
      (insertDocument name id fields) := by
  refine (safe_catching (safe_search id)).ends_bind fun found _ => ?_
  split
  · exact Proc.ends_fail _
  · refine (safe_writeVersion_apart id _).ends_bind fun r hr => ?_
    refine (safe_onTree (BTree.safe_insert (grants_anywhere fun _ => True) (fun _ => trivial)
      _ _)).ends_bind fun _ _ => ?_
    exact ends_recordWrite id hr.1 hr.2

theorem ends_updateDocument [SerdeJson] (id : String) (updates : Json) :
    Proc.Ends (Database.Placed m) (Work.Apart m) (fun _ work _ => work.Written m)
      (updateDocument name id updates) := by
  refine (safe_readVisible id).ends_bind fun doc _ => ?_
  refine (Proc.safe_ofExcept (Q := fun _ => True) fun _ _ => trivial).ends_bind fun fields _ => ?_
  split
  · exact Proc.ends_fail _
  · refine (safe_validateDocument_any _).ends_bind fun _ _ => ?_
    refine (safe_writeVersion_apart id _).ends_bind fun r hr => ?_
    refine (safe_onTree (BTree.safe_delete (grants_anywhere fun _ => True) (fun _ => trivial)
      _)).ends_bind fun _ _ => ?_
    refine (safe_onTree (BTree.safe_insert (grants_anywhere fun _ => True) (fun _ => trivial)
      _ _)).ends_bind fun _ _ => ?_
    exact ends_recordWrite id hr.1 hr.2

theorem ends_commit :
    Proc.Ends (Database.Placed m) (Work.Written m) (fun _ _ => Database.Stored m) commit := by
  intro work db hwork hs
  have hcommit : Proc.Ends (Database.Placed m) (Work.Written m) (fun _ _ => Database.Stored m) (do
      Commit.executeBatchCommit work.tx.mvccTxId [work.tx.prepareWriteRequest]
      modifyTx fun tx => { tx with state := .committed }) := by
    refine (ends_executeBatchCommit _ ?_).bind_safe fun _ =>
      Proc.safe_modifyLocal fun _ hw => hw
    intro pending hmem
    obtain rfl := List.mem_singleton.mp hmem
    exact hwork.1
  have heq : Proc.exec commit work db = Proc.exec (do
      Commit.executeBatchCommit work.tx.mvccTxId [work.tx.prepareWriteRequest]
      modifyTx fun tx => { tx with state := .committed }) work db := by
    rw [commit, Proc.exec_bind_ok (Proc.exec_getLocal _ _), if_neg (by simp [hwork.2])]
  intro r work' db' he
  exact hcommit work db hwork hs r work' db' (heq ▸ he)

end Work

section Calls

theorem stores_insert (generatedId : String) (doc : Json) :
    Stores m (insert name generatedId doc : DbM ℓ String) := by
  unfold insert
  split
  · exact Proc.ends_fail _
  · refine (safe_validateDocument_any _).ends_bind fun _ _ => ?_
    refine (Proc.safe_ofExcept (Q := fun _ => True) fun _ _ => trivial).ends_bind fun r _ => ?_
    refine stores_inTransaction (safe_openOrCreate_apart.ends_bind fun _ _ => ?_)
    refine (ends_insertDocument _ _).bind_local (fun _ hw => hw.1) fun _ => ?_
    refine Proc.Safe.ends_bind (Proc.safe_modifyLocal fun _ hw => hw) fun _ _ => ?_
    exact ends_commit.bind_safe fun _ => Proc.safe_pure trivial

theorem stores_updateById [SerdeJson] (id : String) (updates : Json) :
    Stores m (updateById name id updates : DbM ℓ Unit) := by
  unfold updateById
  split
  · exact Proc.ends_fail _
  · refine stores_inTransaction ((safe_rootOf name).ends_bind fun root _ => ?_)
    split
    · exact Proc.ends_fail _
    · refine (safe_openTree _).ends_bind fun _ _ => ?_
      refine (ends_updateDocument _ _).bind_local (fun _ hw => hw.1) fun _ => ?_
      exact Proc.Safe.ends_bind (Proc.safe_modifyLocal fun _ hw => hw) fun _ _ => ends_commit

theorem ends_executeInserts {docs : List (String × Json)} (h : docs ≠ []) :
    Proc.Ends (Database.Placed m) (Work.Apart m) (fun _ work _ => work.Written m)
      (executeInserts name docs) := by
  have hone : ∀ (generatedId : String) (doc : Json), Proc.Ends (Database.Placed m) (Work.Apart m)
      (fun _ work _ => work.Written m) (executeInsert name generatedId doc) := by
    intro generatedId doc
    refine (Proc.safe_ofExcept (Q := fun _ => True) fun _ _ => trivial).ends_bind fun r _ => ?_
    refine (ends_insertDocument _ _).bind_local (fun _ hw => hw.1) fun _ => ?_
    exact (Proc.safe_pure (Q := fun _ => True) trivial).ends fun _ _ _ _ hw _ => hw
  induction docs with
  | nil => exact absurd rfl h
  | cons entry rest ih =>
    obtain ⟨generatedId, doc⟩ := entry
    refine (hone generatedId doc).bind fun id work db hwork hs hwritten => ?_
    by_cases hrest : rest = []
    · subst hrest
      intro r work' db' he
      obtain ⟨rfl, rfl, rfl⟩ := by simpa [executeInserts, Proc.exec_pure] using he
      exact ⟨hs, hwork, fun _ _ => hwritten⟩
    · refine ((ih hrest).bind_local (fun _ hw => hw.1) fun ids => ?_) work db hwork hs
      exact (Proc.safe_pure (Q := fun _ => True) trivial).ends fun _ _ _ _ hw _ => hw

theorem stores_insertMany (maxBulkOperations : Nat) {docs : List (String × Json)} (h : docs ≠ []) :
    Stores m (insertMany name maxBulkOperations docs : DbM ℓ (List String)) := by
  unfold insertMany
  rw [if_neg (by simpa using h)]
  split
  · exact Proc.ends_fail _
  · refine stores_inTransaction (safe_openOrCreate_apart.ends_bind fun _ _ => ?_)
    refine (ends_executeInserts h).bind_local (fun _ hw => hw.1) fun ids => ?_
    refine Proc.Ends.bind (m := installRoot name) (R := fun _ _ _ => True) ?_
      fun _ work db hw hs _ => ?_
    · intro work db hw hs r work' db' he
      rw [installRoot, Proc.exec_bind_ok (Proc.exec_getLocal _ _)] at he
      obtain ⟨hs', hw', -⟩ := ends_updateMetadata _ work db hw hs r work' db' he
      exact ⟨hs', hw', fun _ _ => trivial⟩
    · exact (ends_commit.bind_safe fun _ => Proc.safe_pure trivial) work db hw hs

theorem stores_upsertById [SerdeJson] (id generatedId : String) (doc : Json) :
    Stores m (upsertById name id generatedId doc : DbM ℓ UpsertResult) := by
  unfold upsertById
  split
  · exact Proc.ends_fail _
  · refine (safe_catching (safe_findById lasting_placed.unattached name id)).ends_bind fun found _ => ?_
    split
    · exact (stores_updateById _ _).bind_safe fun _ => Proc.safe_pure trivial
    · exact (stores_insert _ _).bind_safe fun _ => Proc.safe_pure trivial

theorem stores_upsert [SerdeJson] (query : Query) (generatedId : String) (doc : Json) :
    Stores m (upsert name query generatedId doc : DbM ℓ UpsertResult) := by
  unfold upsert
  split
  · exact Proc.ends_fail _
  · refine (safe_catching (safe_findOne lasting_placed.unattached name query)).ends_bind fun found _ => ?_
    refine (Proc.safe_ofExcept (Q := fun _ => True) fun _ _ => trivial).ends_bind fun existing _ => ?_
    split
    · exact (stores_updateById _ _).bind_safe fun _ => Proc.safe_pure trivial
    · exact (stores_insert _ _).bind_safe fun _ => Proc.safe_pure trivial

end Calls

end Collection

end JasonDb
