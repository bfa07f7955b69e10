import JasonDb.BTree.Grants
import JasonDb.Database.Index
import JasonDb.TxCollection.Grants

namespace JasonDb

open Lib

variable {ℓ : Type} {J : Database → Prop} {W : Page → Prop}

section Checkpoint

variable {I : ℓ → Prop}

-- A checkpoint changes the file and the log.
theorem safe_checkpointWal (hfile : ∀ db file, J db → J { db with pager := { db.pager with file } })
    (hflush : ∀ db, J db → J { db with pager := db.pager.flush })
    (hwal : ∀ db wal, J db → J { db with wal }) :
    Proc.Safe J I (fun _ => True) (checkpointWal : DbM ℓ Unit) := by
  refine Proc.Safe.bind (Q := fun _ => True) (m := writeLoggedPages) ?_ fun _ _ => ?_
  · refine Proc.safe_atomicE fun db hs => ⟨?_, fun _ _ => trivial⟩
    cases hpages : db.pager.writePagesDirect (latestPages db.wal.frames).toList with
    | error e => exact hs
    | ok pager =>
      unfold Pager.writePagesDirect at hpages
      split at hpages
      · cases hpages
      · split at hpages
        · obtain rfl := Except.ok.inj hpages
          exact hs
        · split at hpages
          · cases hpages
          · obtain rfl := Except.ok.inj hpages
            exact hfile db _ hs
  · refine (Proc.safe_atomic (Q := fun _ => True) fun db hs => ⟨hflush db hs, trivial⟩).bind
      fun _ _ => ?_
    exact Proc.safe_atomicE fun db hs => ⟨hwal db _ hs, fun _ _ => trivial⟩

end Checkpoint

section Index

variable (hJ : Grants J (fun _ => True) W) (hnode : ∀ n, W (.node n))
  (hpostings : ∀ postings, W (.postings postings))

theorem safe_readIndexed [SerdeJson] {I : BTree → Prop} (entry : LeafEntry) :
    Proc.Safe J I (fun _ => True) (readIndexed entry) := by
  refine (safe_catching (safe_readVersionedDocument _ _)).bind fun r _ => ?_
  split
  · exact Proc.safe_pure trivial
  · exact Proc.safe_pure trivial

theorem safe_scanNode {visit : LeafEntry → BTree.TreeM Unit}
    (hvisit : ∀ entry, Proc.Safe J (fun _ => True) (fun _ => True) (visit entry)) (fuel : Nat)
    (p : PageNum) : Proc.Safe J (fun _ => True) (fun _ => True) (scanNode visit fuel p) := by
  induction fuel generalizing p with
  | zero => exact Proc.safe_fail _
  | succ fuel ih =>
    unfold scanNode
    split
    · exact Proc.safe_pure trivial
    · refine (safe_readPage _).bind fun page _ => ?_
      refine (Proc.safe_ofExcept (Q := fun _ => True) fun _ _ => trivial).bind fun node _ => ?_
      split
      · refine (Proc.safe_forEach _ fun entry _ => hvisit entry).bind fun _ _ => ?_
        split
        · exact ih _
        · exact Proc.safe_pure trivial
      · exact Proc.safe_forEach _ fun child _ => ih child

include hJ hnode

theorem safe_indexEntry [SerdeJson] (fields : List String) (unique : Bool) (entry : LeafEntry) :
    Proc.Safe J (fun _ => True) (fun _ => True) (indexEntry fields unique entry) := by
  refine (safe_readIndexed entry).bind fun doc _ => ?_
  split
  · exact Proc.safe_pure trivial
  · have hinsert : ∀ found : Bool, Proc.Safe J (fun _ => True) (fun _ => True)
        (if found then Proc.fail (duplicateValue fields) else
          BTree.insert (serializeIndexKey (Json.extractFieldValues ‹Json.Map› fields) entry.key)
            entry.value : BTree.TreeM Unit) := by
      intro found
      split
      · exact Proc.safe_fail _
      · exact BTree.safe_insert hJ hnode _ _
    cases unique with
    | true =>
      refine (safe_catching (BTree.safe_search _)).bind fun found _ => ?_
      exact (Proc.safe_pure (Q := fun _ => True) trivial).bind fun found _ => hinsert found
    | false =>
      exact (Proc.safe_pure (Q := fun _ => True) trivial).bind fun found _ => hinsert found

include hpostings

theorem safe_indexTerm (tools : TextTools) (docId field : String) (entry : String × (Nat × Nat)) :
    Proc.Safe J (fun _ => True) (fun _ => True) (TextIndex.indexTerm tools docId field entry) := by
  refine Proc.Safe.bind (Q := fun _ => True) (m := TextIndex.findPostings _) ?_ fun postings _ => ?_
  · refine (safe_catching (BTree.safe_search _)).bind fun r _ => ?_
    split
    · exact Proc.safe_pure trivial
    · exact (safe_readPage _).bind fun _ _ => Proc.safe_pure trivial
  · refine Proc.Safe.bind (Q := fun _ => True) (m := TextIndex.writeData _ _) ?_ fun p _ =>
      BTree.safe_insert hJ hnode _ _
    refine (safe_allocPageMinimum hJ _).bind fun p _ => ?_
    split
    · exact Proc.safe_fail _
    · exact (safe_writePageTransfer hJ trivial (hpostings _)).bind fun _ _ => Proc.safe_pure trivial

theorem safe_indexTextEntry [SerdeJson] (tools : TextTools) (fields : List String) (entry : LeafEntry) :
    Proc.Safe J (fun _ => True) (fun _ => True) (indexTextEntry tools fields entry) := by
  refine (safe_readIndexed entry).bind fun doc _ => ?_
  split
  · exact Proc.safe_pure trivial
  · simp only
    split
    · exact Proc.safe_pure trivial
    · refine Proc.safe_forEach _ fun field _ => ?_
      unfold TextIndex.indexField
      split
      · exact Proc.safe_pure trivial
      · exact Proc.safe_forEach _ fun term _ => safe_indexTerm hJ hnode hpostings _ _ _ _

omit hpostings in
theorem safe_buildIndex {I : ℓ → Prop} {visit : LeafEntry → BTree.TreeM Unit}
    (hvisit : ∀ entry, Proc.Safe J (fun _ => True) (fun _ => True) (visit entry)) (name : String) :
    Proc.Safe J I (fun _ => True) (buildIndex visit name : DbM ℓ PageNum) := by
  refine (BTree.safe_new hJ hnode).bind fun tree _ => ?_
  refine safe_getMetadata.bind fun metadata _ => safe_walkBound.bind fun fuel _ => ?_
  have hscan : Proc.Safe J (fun _ => True) (fun _ => True)
      (if metadata.root name ≠ 0 then scanNode visit fuel (metadata.root name) else pure ()) := by
    split
    · exact safe_scanNode hvisit _ _
    · exact Proc.safe_pure trivial
  exact (hscan.within trivial).bind fun _ _ => Proc.safe_pure trivial

end Index

end JasonDb
