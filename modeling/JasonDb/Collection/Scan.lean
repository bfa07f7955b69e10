import JasonDb.BTree.Lookup
import JasonDb.Collection
import JasonDb.Transaction.Observe

namespace JasonDb

open Lib

variable {ℓ α β : Type}

section Reading

variable {pager : Pager} {db db' : Database}

-- Code that reads the pages and nothing else, whatever its local state. Its errors are passed over
-- by those who pass over any.
def Peeks (pager : Pager) (m : (ℓ : Type) → DbM ℓ α) : Prop :=
  ∃ r, (∀ e, r = .error e → e.Caught) ∧
    ∀ (ℓ : Type) (l : ℓ) (db : Database), db.pager = pager → Proc.exec (m ℓ) l db = (r, l, db)

theorem peeks_pure (a : α) : Peeks pager fun ℓ => (pure a : DbM ℓ α) := ⟨.ok a, by simp, fun _ _ _ _ => rfl⟩

theorem peeks_fail {e : Error} (h : e.Caught) : Peeks pager fun ℓ => (Proc.fail e : DbM ℓ α) :=
  ⟨.error e, by rintro _ ⟨⟩; exact h, fun _ _ _ _ => rfl⟩

theorem Peeks.bind {m : (ℓ : Type) → DbM ℓ α} {f : α → (ℓ : Type) → DbM ℓ β} (h : Peeks pager m)
    (hf : ∀ a, Peeks pager (f a)) : Peeks pager fun ℓ => m ℓ >>= fun a => f a ℓ := by
  obtain ⟨r, hcaught, he⟩ := h
  cases r with
  | error e => exact ⟨.error e, by rintro _ ⟨⟩; exact hcaught e rfl, fun ℓ l db h => Proc.exec_bind_error (he ℓ l db h)⟩
  | ok a =>
    obtain ⟨r, hcaught, he'⟩ := hf a
    exact ⟨r, hcaught, fun ℓ l db h => (Proc.exec_bind_ok (he ℓ l db h)).trans (he' ℓ l db h)⟩

theorem peeks_readThrough (pages : HashMap PageNum Page) (p : PageNum) :
    Peeks pager fun ℓ => (readThrough pages p : DbM ℓ Page) := by
  unfold readThrough
  split
  · exact peeks_pure _
  · refine ⟨pager.readPage p, ?_, fun _ _ _ h => h ▸ rfl⟩
    intro e he
    unfold Pager.readPage at he
    split at he
    · cases he
    · cases he
      simp [Error.Caught]

theorem peeks_readOverflow (pages : HashMap PageNum Page) (data : Json) (start more index : Nat)
    (page : PageNum)
    (visited : List PageNum) :
    Peeks pager fun ℓ => (readOverflow pages data start more index page visited : DbM ℓ Bool) := by
  induction more generalizing index page visited with
  | zero => exact peeks_pure _
  | succ more ih =>
    unfold readOverflow
    split
    · exact peeks_fail (by simp [Error.Caught])
    · split
      · exact peeks_fail (by simp [Error.Caught])
      · split
        · exact peeks_fail (by simp [Error.Caught])
        · refine (peeks_readThrough pages page).bind fun content => ?_
          split
          · exact (ih _ _ _).bind fun _ => peeks_pure _
          · exact peeks_pure _

theorem peeks_readVersionedDocument (p : PageNum) (pages : HashMap PageNum Page) :
    Peeks pager fun ℓ => (readVersionedDocument p pages : DbM ℓ VersionedDocument) := by
  refine (peeks_readThrough pages p).bind fun content => ?_
  split
  · split
    · exact peeks_fail (by simp [Error.Caught])
    · exact (peeks_readOverflow _ _ _ _ _ _ _).bind fun _ => peeks_pure _
  · exact peeks_fail (by simp [Error.Caught])

-- The version in a page, as a reader without writes of its own finds it.
def Database.version (db : Database) (p : PageNum) : Except Error VersionedDocument :=
  (Proc.exec (readVersionedDocument p ∅) () db).1

theorem exec_version (hpager : db'.pager = db.pager) (p : PageNum) (l : ℓ) :
    Proc.exec (catching (readVersionedDocument p ∅)) l db' = (.ok (db.version p), l, db') := by
  obtain ⟨r, hcaught, he⟩ : Peeks db.pager fun ℓ => (readVersionedDocument p ∅ : DbM ℓ VersionedDocument) :=
    peeks_readVersionedDocument p ∅
  have hversion : db.version p = r := congrArg Prod.fst (he Unit () db rfl)
  rw [hversion]
  exact exec_catching (he ℓ l db' hpager) hcaught

theorem exec_catching_same {m : DbM ℓ α} {l : ℓ} {r : Except Error α} (h : Proc.exec m l db = (r, l, db))
    (h' : Proc.exec m l db' = (r, l, db')) :
    ∃ r, Proc.exec (catching m) l db = (r, l, db) ∧ Proc.exec (catching m) l db' = (r, l, db') := by
  have hatt : ∀ {db}, Proc.exec m l db = (r, l, db) → Proc.exec (Proc.attempt m) l db = (.ok r, l, db) := by
    intro db h
    rw [Proc.exec_attempt, h]
  unfold catching
  rw [Proc.exec_bind_ok (hatt h), Proc.exec_bind_ok (hatt h')]
  split
  · exact ⟨_, rfl, rfl⟩
  · exact ⟨_, rfl, rfl⟩
  · exact ⟨_, rfl, rfl⟩

end Reading

namespace BTree

variable {t : BTree} {db db' : Database} {visit : LeafEntry → TreeM (Option α)} {f : LeafEntry → Option α}

theorem exec_visitEntries (hvisit : ∀ entry, Proc.exec (visit entry) t db = (.ok (f entry), t, db))
    (entries : List LeafEntry) : Proc.exec (visitEntries visit entries) t db = (.ok (entries.filterMap f), t, db) := by
  induction entries with
  | nil => rfl
  | cons entry rest ih =>
    rw [visitEntries, Proc.exec_bind_ok (hvisit entry), Proc.exec_bind_ok ih]
    cases hentry : f entry <;> simp [hentry, Proc.exec_pure]

-- The entries that the iteration comes to, if it comes to an end.
def entriesFrom (db : Database) (root : PageNum) : Except Error (List LeafEntry) :=
  (Proc.exec (iterate fun entry => pure (some entry)) (BTree.open root) db).1

theorem exec_readNode_same (hpager : db'.pager = db.pager) (t : BTree) (p : PageNum) :
    ∃ r, Proc.exec (readNode p) t db = (r, t, db) ∧ Proc.exec (readNode p) t db' = (r, t, db') := by
  refine ⟨_, exec_readNode_seen t db p, ?_⟩
  rw [exec_readNode_seen, nodeSeen, nodeSeen, hpager]

-- Visits that only read see one entry after the other.
theorem exec_visitLeaves (hpager : db'.pager = db.pager)
    (hvisit : ∀ entry, Proc.exec (visit entry) t db' = (.ok (f entry), t, db')) (fuel : Nat)
    (leaf : BTreeNode) :
    ∃ r, Proc.exec (visitLeaves (fun entry => pure (some entry)) fuel leaf) t db = (r, t, db) ∧
      Proc.exec (visitLeaves visit fuel leaf) t db' = (r.map (List.filterMap f), t, db') := by
  have hall : ∀ entries : List LeafEntry, Proc.exec (visitEntries (fun entry => pure (some entry)) entries) t db =
      (.ok entries, t, db) := by
    intro entries
    rw [exec_visitEntries (f := some) fun _ => rfl, List.filterMap_some]
  induction fuel generalizing leaf with
  | zero => exact ⟨.error .diverged, rfl, rfl⟩
  | succ fuel ih =>
    unfold visitLeaves
    split
    · exact ⟨.ok [], rfl, rfl⟩
    · rw [Proc.exec_bind_ok (hall _), Proc.exec_bind_ok (exec_visitEntries hvisit _)]
      split
      · exact ⟨.ok leaf.entries, rfl, rfl⟩
      · obtain ⟨read, hread, hread'⟩ := exec_readNode_same hpager t leaf.nextLeaf
        obtain ⟨r, he, he'⟩ := exec_catching_same hread hread'
        cases r with
        | error e => exact ⟨.error e, Proc.exec_bind_error he, Proc.exec_bind_error he'⟩
        | ok found =>
          rw [Proc.exec_bind_ok he, Proc.exec_bind_ok he']
          cases found with
          | error e => exact ⟨.ok leaf.entries, rfl, rfl⟩
          | ok next =>
            obtain ⟨r, hwalk, hvisited⟩ := ih next
            cases r with
            | error e => exact ⟨.error e, Proc.exec_bind_error hwalk, Proc.exec_bind_error hvisited⟩
            | ok entries =>
              refine ⟨.ok (leaf.entries ++ entries), Proc.exec_bind_ok hwalk, ?_⟩
              rw [Proc.exec_bind_ok hvisited]
              simp [Except.map, Proc.exec_pure]

theorem exec_firstLeaf_same (hpager : db'.pager = db.pager) (t : BTree) (fuel : Nat) (n : BTreeNode) :
    ∃ r, Proc.exec (firstLeaf fuel n) t db = (r, t, db) ∧ Proc.exec (firstLeaf fuel n) t db' = (r, t, db') := by
  induction fuel generalizing n with
  | zero => exact ⟨_, rfl, rfl⟩
  | succ fuel ih =>
    unfold firstLeaf
    split
    · exact ⟨_, rfl, rfl⟩
    · split
      · exact ⟨_, rfl, rfl⟩
      · rename_i first _ _
        obtain ⟨r, he, he'⟩ := exec_readNode_same hpager t first
        cases r with
        | error e => exact ⟨_, Proc.exec_bind_error he, Proc.exec_bind_error he'⟩
        | ok child =>
          rw [Proc.exec_bind_ok he, Proc.exec_bind_ok he']
          exact ih child

theorem exec_iterate_rounds (hpager : db'.pager = db.pager) {root : PageNum}
    (hvisit : ∀ entry, Proc.exec (visit entry) (BTree.open root) db' = (.ok (f entry), BTree.open root, db')) :
    Proc.exec (iterate visit) (BTree.open root) db' =
      ((entriesFrom db root).map (List.filterMap f), BTree.open root, db') := by
  have hbound : ∀ db : Database, Proc.exec (walkBound : TreeM Nat) (BTree.open root) db =
      (.ok (db.pager.numPages + 1), BTree.open root, db) := fun _ => rfl
  unfold entriesFrom iterate
  rw [Proc.exec_bind_ok (Proc.exec_getLocal _ db), Proc.exec_bind_ok (hbound db), Proc.exec_bind_ok (Proc.exec_getLocal _ db'),
    Proc.exec_bind_ok (hbound db'), hpager]
  obtain ⟨r, hread, hread'⟩ := exec_readNode_same hpager (BTree.open root) (BTree.open root).getRootPage
  cases r with
  | error e =>
    rw [Proc.exec_bind_error hread, Proc.exec_bind_error hread']
    rfl
  | ok n =>
    rw [Proc.exec_bind_ok hread, Proc.exec_bind_ok hread']
    obtain ⟨r, hleaf, hleaf'⟩ := exec_firstLeaf_same hpager (BTree.open root) (db.pager.numPages + 1) n
    cases r with
    | error e =>
      rw [Proc.exec_bind_error hleaf, Proc.exec_bind_error hleaf']
      rfl
    | ok leaf =>
      obtain ⟨r, hwalk, hvisited⟩ := exec_visitLeaves hpager hvisit (db.pager.numPages + 1) leaf
      rw [Proc.exec_bind_ok hleaf, Proc.exec_bind_ok hleaf', hwalk, hvisited]

end BTree

namespace Collection

-- What a call in a transaction of its own returns is what its code returns.
theorem exec_inTransaction (body : WorkM α) (l : ℓ) (db : Database) :
    ∃ db', db'.pager = db.pager ∧ db'.metadata = db.metadata ∧
      (Proc.exec (inTransaction body) l db).1 = (Proc.exec body ⟨begun db, BTree.open 0⟩ db').1 := by
  obtain ⟨db', hbegin, hpager, hmeta⟩ : ∃ db', Proc.exec begin l db = (.ok (begun db), l, db') ∧
      db'.pager = db.pager ∧ db'.metadata = db.metadata := ⟨_, rfl, rfl, rfl⟩
  refine ⟨db', hpager, hmeta, ?_⟩
  rcases hbody : Proc.exec body ⟨begun db, BTree.open 0⟩ db' with ⟨result, work, db₁⟩
  have hattempt : Proc.exec (Proc.within ⟨begun db, BTree.open 0⟩ (Proc.attempt body) : DbM ℓ _) l db' =
      (.ok (result, work), l, db₁) := by
    rw [Proc.exec_within, Proc.exec_attempt, hbody]
    rfl
  obtain ⟨tx, db₂, hdrop⟩ : ∃ tx db₂, Proc.exec Transaction.dropTransaction work.tx db₁ = (.ok (), tx, db₂) := by
    unfold Transaction.dropTransaction
    rw [Proc.exec_bind_ok (Proc.exec_getLocal work.tx db₁)]
    split
    · exact ⟨_, _, rfl⟩
    · exact ⟨_, _, rfl⟩
  have hwithin : Proc.exec (Proc.within work.tx Transaction.dropTransaction : DbM ℓ _) l db₁ =
      (.ok ((), tx), l, db₂) := by
    rw [Proc.exec_within, hdrop]
    rfl
  unfold inTransaction
  rw [Proc.exec_bind_ok hbegin, Proc.exec_bind_ok hattempt, Proc.exec_bind_ok hwithin]
  cases result <;> rfl

section Scan

variable {db db' : Database} {name : String}

-- What a transaction that begins now makes of an entry. A version that it cannot read or may not
-- see is passed over.
def seen (db : Database) (f : VersionedDocument → Option α) (entry : LeafEntry) : Option α :=
  match db.version entry.value with
  | .error _ => none
  | .ok doc => if doc.isVisible db.txManager.lastCommittedTxId then f doc else none

def scanned (db : Database) (name : String) (f : VersionedDocument → Option α) : Except Error (List α) :=
  match db.metadata.collections.get? name with
  | none => .error (.other s!"collection {name} not found")
  | some coll =>
    if coll.btreeRoot = 0 then .ok []
    else (BTree.entriesFrom db coll.btreeRoot).map (List.filterMap (seen db f))

theorem exec_scan (body : WorkM β) (g : List α → β) {f : VersionedDocument → Option α}
    (hbody : ∀ root db', db'.pager = db.pager → (Proc.exec body ⟨begun db, BTree.open root⟩ db').1 =
      ((BTree.entriesFrom db root).map (List.filterMap (seen db f))).map g) (l : ℓ) :
    (Proc.exec (inTransaction do
      let root ← rootOf name
      if root = 0 then pure (g [])
      else
        openTree root
        body) l db).1 = (scanned db name f).map g := by
  obtain ⟨db', hpager, hmeta, he⟩ := exec_inTransaction (do
    let root ← rootOf name
    if root = 0 then pure (g [])
    else
      openTree root
      body) l db
  rw [he]
  have hget : Proc.exec (getMetadata : WorkM Metadata) ⟨begun db, BTree.open 0⟩ db' =
      (.ok db.metadata, ⟨begun db, BTree.open 0⟩, db') := by
    rw [← hmeta]
    rfl
  unfold scanned
  cases hcoll : db.metadata.collections.get? name with
  | none =>
    have hroot : Proc.exec (rootOf name : WorkM PageNum) ⟨begun db, BTree.open 0⟩ db' =
        (.error (.other s!"collection {name} not found"), ⟨begun db, BTree.open 0⟩, db') := by
      rw [rootOf, Proc.exec_bind_ok hget, hcoll]
      rfl
    rw [Proc.exec_bind_error hroot]
    rfl
  | some coll =>
    have hroot : Proc.exec (rootOf name : WorkM PageNum) ⟨begun db, BTree.open 0⟩ db' =
        (.ok coll.btreeRoot, ⟨begun db, BTree.open 0⟩, db') := by
      rw [rootOf, Proc.exec_bind_ok hget, hcoll]
      rfl
    rw [Proc.exec_bind_ok hroot]
    simp only
    by_cases hzero : coll.btreeRoot = 0
    · rw [if_pos hzero, if_pos hzero]
      rfl
    · rw [if_neg hzero, if_neg hzero]
      exact hbody _ _ hpager

theorem exec_onTree_iterate {visit : LeafEntry → BTree.TreeM (Option α)} {f : LeafEntry → Option α}
    {tx : Transaction}
    (hpager : db'.pager = db.pager) {root : PageNum}
    (hvisit : ∀ entry, Proc.exec (visit entry) (BTree.open root) db' = (.ok (f entry), BTree.open root, db')) :
    Proc.exec (onTree (BTree.iterate visit)) ⟨tx, BTree.open root⟩ db' =
      ((BTree.entriesFrom db root).map (List.filterMap f), ⟨tx, BTree.open root⟩, db') := by
  unfold onTree
  rw [Proc.exec_zoom, BTree.exec_iterate_rounds hpager hvisit]

theorem exec_visit [SerdeJson] (hpager : db'.pager = db.pager) (entry : LeafEntry) (t : BTree) :
    Proc.exec (visit (begun db) entry) t db' = (.ok (seen db VersionedDocument.parsed entry), t, db') := by
  have hread : Proc.exec (catching (readVersionedDocument entry.value (begun db).writes)) t db' =
      (.ok (db.version entry.value), t, db') := exec_version hpager entry.value t
  unfold visit seen
  rw [Proc.exec_bind_ok hread]
  cases db.version entry.value <;> rfl

theorem exec_findAll [SerdeJson] (name : String) (db : Database) (l : ℓ) :
    (Proc.exec (findAll name) l db).1 = scanned db name VersionedDocument.parsed := by
  have hbody : ∀ root db', db'.pager = db.pager → (Proc.exec findAllInTx ⟨begun db, BTree.open root⟩ db').1 =
      ((BTree.entriesFrom db root).map (List.filterMap (seen db VersionedDocument.parsed))).map id := by
    intro root db' hpager
    unfold findAllInTx
    rw [Proc.exec_bind_ok (Proc.exec_getLocal _ db'), exec_onTree_iterate hpager fun entry => exec_visit hpager entry _]
    cases BTree.entriesFrom db root <;> rfl
  refine (exec_scan findAllInTx id hbody l).trans ?_
  cases scanned db name VersionedDocument.parsed <;> rfl

end Scan

end Collection

end JasonDb
