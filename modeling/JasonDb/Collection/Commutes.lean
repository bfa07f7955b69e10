import JasonDb.Collection
import JasonDb.Database.Frozen

namespace JasonDb

open Lib

variable {ℓ α : Type}

-- Reading does not look at whether the database may be written.
section Reading

theorem commutes_readPage (p : PageNum) :
    Proc.Commutes Database.writable (readPage p : DbM ℓ Page) := by
  refine Proc.commutes_atomicE fun db => ?_
  rfl

theorem commutes_getMetadata : Proc.Commutes Database.writable (getMetadata : DbM ℓ Metadata) :=
  Proc.commutes_atomic fun _ => rfl

theorem commutes_walkBound : Proc.Commutes Database.writable (walkBound : DbM ℓ Nat) :=
  Proc.commutes_atomic fun _ => rfl

theorem commutes_catching {m : DbM ℓ α} (h : Proc.Commutes Database.writable m) :
    Proc.Commutes Database.writable (catching m) := by
  refine h.attempt.bind fun r => ?_
  split
  · exact Proc.commutes_fail _
  · exact Proc.commutes_fail _
  · exact Proc.commutes_pure _

theorem commutes_readThrough (pages : HashMap PageNum Page) (p : PageNum) :
    Proc.Commutes Database.writable (readThrough pages p : DbM ℓ Page) := by
  unfold readThrough
  split
  · exact Proc.commutes_pure _
  · exact commutes_readPage p

theorem commutes_readOverflow (pages : HashMap PageNum Page) (data : Json)
    (start more index : Nat) (page : PageNum) (visited : List PageNum) :
    Proc.Commutes Database.writable
      (readOverflow pages data start more index page visited : DbM ℓ Bool) := by
  induction more generalizing index page visited with
  | zero => exact Proc.commutes_pure _
  | succ more ih =>
    unfold readOverflow
    split
    · exact Proc.commutes_fail _
    · split
      · exact Proc.commutes_fail _
      · split
        · exact Proc.commutes_fail _
        · refine (commutes_readThrough _ _).bind fun content => ?_
          split
          · exact (ih _ _ _).bind fun _ => Proc.commutes_pure _
          · exact Proc.commutes_pure _

theorem commutes_readVersionedDocument (p : PageNum) (pages : HashMap PageNum Page) :
    Proc.Commutes Database.writable (readVersionedDocument p pages : DbM ℓ _) := by
  refine (commutes_readThrough _ _).bind fun content => ?_
  split
  · split
    · exact Proc.commutes_fail _
    · exact (commutes_readOverflow _ _ _ _ _ _ _).bind fun _ => Proc.commutes_pure _
  · exact Proc.commutes_fail _

end Reading

namespace BTree

theorem commutes_readNode (p : PageNum) : Proc.Commutes Database.writable (readNode p) := by
  refine Proc.commutes_getLocal.bind fun t => ?_
  exact (commutes_readPage _).bind fun _ => Proc.commutes_ofExcept _

theorem commutes_firstLeaf (fuel : Nat) (n : BTreeNode) :
    Proc.Commutes Database.writable (firstLeaf fuel n) := by
  induction fuel generalizing n with
  | zero => exact Proc.commutes_fail _
  | succ fuel ih =>
    unfold firstLeaf
    split
    · exact Proc.commutes_pure _
    · split
      · exact Proc.commutes_fail _
      · exact (commutes_readNode _).bind fun _ => ih _

variable {visit : LeafEntry → TreeM (Option α)}
  (hvisit : ∀ entry, Proc.Commutes Database.writable (visit entry))

include hvisit

theorem commutes_visitEntries (entries : List LeafEntry) :
    Proc.Commutes Database.writable (visitEntries visit entries) := by
  induction entries with
  | nil => exact Proc.commutes_pure _
  | cons entry rest ih => exact (hvisit entry).bind fun _ => ih.bind fun _ => Proc.commutes_pure _

theorem commutes_visitLeaves (fuel : Nat) (leaf : BTreeNode) :
    Proc.Commutes Database.writable (visitLeaves visit fuel leaf) := by
  induction fuel generalizing leaf with
  | zero => exact Proc.commutes_fail _
  | succ fuel ih =>
    unfold visitLeaves
    split
    · exact Proc.commutes_pure _
    · refine (commutes_visitEntries hvisit _).bind fun here => ?_
      split
      · exact Proc.commutes_pure _
      · refine (commutes_catching (commutes_readNode _)).bind fun r => ?_
        split
        · exact Proc.commutes_pure _
        · exact (ih _).bind fun _ => Proc.commutes_pure _

theorem commutes_iterate : Proc.Commutes Database.writable (iterate visit) :=
  Proc.commutes_getLocal.bind fun _ => commutes_walkBound.bind fun _ =>
    (commutes_readNode _).bind fun _ => (commutes_firstLeaf _ _).bind fun _ =>
      commutes_visitLeaves hvisit _ _

end BTree

namespace Collection

theorem commutes_visit [SerdeJson] (tx : Transaction) (entry : LeafEntry) :
    Proc.Commutes Database.writable (visit tx entry) := by
  refine (commutes_catching (commutes_readVersionedDocument _ _)).bind fun r => ?_
  split
  · exact Proc.commutes_pure _
  · exact Proc.commutes_pure _

theorem commutes_begin : Proc.Commutes Database.writable (begin : DbM ℓ Transaction) := by
  refine commutes_getMetadata.bind fun metadata => ?_
  refine (Proc.commutes_atomic fun _ => rfl).bind fun _ => ?_
  refine Proc.Commutes.bind (m := TransactionManager.beginTransaction) ?_ fun _ => ?_
  · refine (Proc.commutes_atomic fun _ => rfl).bind fun _ => ?_
    refine (Proc.commutes_atomic fun _ => rfl).bind fun _ => ?_
    exact (Proc.commutes_atomic fun _ => rfl).bind fun _ => Proc.commutes_pure _
  · exact (Proc.commutes_atomic fun _ => rfl).bind fun _ => Proc.commutes_pure _

theorem commutes_dropTransaction :
    Proc.Commutes Database.writable Transaction.dropTransaction := by
  refine Proc.commutes_getLocal.bind fun tx => ?_
  split
  · exact (Proc.commutes_atomic fun _ => rfl).bind fun _ => Proc.commutes_modifyLocal _
  · exact Proc.commutes_pure _

theorem commutes_inTransaction {body : WorkM α} (h : Proc.Commutes Database.writable body) :
    Proc.Commutes Database.writable (inTransaction body : DbM ℓ α) :=
  commutes_begin.bind fun _ => h.attempt.within.bind fun _ =>
    commutes_dropTransaction.within.bind fun _ => Proc.commutes_ofExcept _

theorem commutes_rootOf (name : String) :
    Proc.Commutes Database.writable (rootOf name : DbM ℓ PageNum) := by
  refine commutes_getMetadata.bind fun metadata => ?_
  split
  · exact Proc.commutes_pure _
  · exact Proc.commutes_fail _

theorem commutes_findAll [SerdeJson] (name : String) :
    Proc.Commutes Database.writable (findAll name : DbM ℓ (List Json)) := by
  refine commutes_inTransaction ((commutes_rootOf name).bind fun root => ?_)
  split
  · exact Proc.commutes_pure _
  · refine Proc.Commutes.bind (m := openTree root) (Proc.commutes_modifyLocal _) fun _ => ?_
    exact Proc.commutes_getLocal.bind fun work =>
      (BTree.commutes_iterate (commutes_visit work.tx)).zoom

theorem commutes_find [SerdeJson] (name : String) (query : Query) :
    Proc.Commutes Database.writable (find name query : DbM ℓ (List Json)) := by
  refine Proc.Commutes.bind (m := checkQuery query) ?_ fun _ => ?_
  · exact (Proc.commutes_ofExcept _).bind fun _ => Proc.commutes_pure _
  · exact (commutes_findAll name).bind fun _ => Proc.commutes_ofExcept _

theorem commutes_findOne [SerdeJson] (name : String) (query : Query) :
    Proc.Commutes Database.writable (findOne name query : DbM ℓ (Option Json)) :=
  (commutes_find name query).bind fun _ => Proc.commutes_pure _

end Collection

end JasonDb
