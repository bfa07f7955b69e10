import JasonDb.Database.Frozen
import JasonDb.TxCollection.Grants
import JasonDb.Transaction.Grants

namespace JasonDb

open Lib

variable {ℓ α : Type} {O : Observed} {I : ℓ → Prop}

theorem refused_writeVersionedDocument (id : String) (data : Json) (xmin xmax : TransactionID)
    (pages : HashMap PageNum Page) :
    Refused O I (writeVersionedDocument id data xmin xmax pages : DbM ℓ _) := by
  unfold writeVersionedDocument
  split
  · exact Proc.safe_fail _
  · exact (refused_allocPageMinimum _).bind _

namespace TxBTree

-- A tree that has no pages of its own.
structure Fresh (t : TxBTree) : Prop where
  newPages : t.newPages = ∅
  cowPages : t.cowPages = ∅

theorem fresh_new (root : PageNum) (pages : HashMap PageNum Page) : Fresh (new root pages) :=
  ⟨rfl, rfl⟩

-- It has to take a page before it can write a node.
theorem refused_writeTarget (p : PageNum) : Refused O Fresh (writeTarget p) := by
  refine Proc.safe_getLocal.bind fun t ht => ?_
  rw [if_neg (by rw [ht.newPages]; simp), ht.cowPages]
  simp only [HashMap.get?_empty]
  split
  · exact (refused_allocPageMinimum _).bind _
  · exact (refused_allocPageMinimum _).bind _

theorem refused_writeNode (n : BTreeNode) : Refused O Fresh (writeNode n) :=
  (refused_writeTarget _).bind _

theorem refused_delete (key : String) : Refused O Fresh (delete key) := by
  refine Proc.safe_getLocal.bind fun t _ => safe_walkBound.bind fun fuel _ => ?_
  refine (safe_readNode _).bind fun root _ => (safe_findLeaf _ _ _ _).bind fun r _ => ?_
  simp only
  split
  · exact Proc.safe_fail _
  · exact (refused_writeNode _).bind _

theorem refused_createEmpty (pages : HashMap PageNum Page) :
    Refused O I (createEmpty pages : DbM ℓ TxBTree) := (refused_allocPageMinimum _).bind _

end TxBTree

namespace TxCollection

-- A handle that has written nothing, of a transaction that has changed no collection.
structure Fresh (c : TxCollection) : Prop where
  modified : c.tx.modifiedCollections = ∅
  btree : c.btree.Fresh

variable {J : Database → Prop}

section Parts

theorem safe_onTree_fresh {Q : α → Prop} {m : TxBTree.TreeM α}
    (h : Proc.Safe J TxBTree.Fresh Q m) : Proc.Safe J Fresh Q (onTree m) :=
  h.zoom (fun _ hc => ⟨hc.btree.newPages, hc.btree.cowPages⟩) fun _ _ hc ht => ⟨hc.modified, ht⟩

theorem safe_modifyTx_fresh {f : Transaction → Transaction}
    (hf : ∀ tx, (f tx).modifiedCollections = tx.modifiedCollections) :
    Proc.Safe J Fresh (fun _ => True) (modifyTx f) :=
  Proc.safe_modifyLocal fun c hc => ⟨(hf c.tx).trans hc.modified, hc.btree⟩

theorem safe_readVisible_fresh (id : String) :
    Proc.Safe J Fresh (fun _ => True) (readVisible id) := by
  refine (safe_onTree_fresh (TxBTree.safe_search id)).bind fun p _ => ?_
  refine Proc.safe_getLocal.bind fun c _ => (safe_readVersionedDocument _ _).bind fun doc _ => ?_
  split
  · exact Proc.safe_fail _
  · exact Proc.safe_pure trivial

theorem safe_findById_fresh [SerdeJson] (id : String) :
    Proc.Safe J Fresh (fun _ => True) (findById id) := by
  refine (safe_readVisible_fresh id).bind fun r _ => Proc.safe_getLocal.bind fun c _ => ?_
  simp only
  split
  · exact Proc.safe_ofExcept fun _ _ => trivial
  · refine Proc.Safe.bind (safe_modifyTx_fresh fun _ => rfl) fun _ _ => ?_
    exact Proc.Safe.bind (safe_modifyTx_fresh fun _ => rfl) fun _ _ =>
      Proc.safe_ofExcept fun _ _ => trivial

theorem safe_keepOldVersion_fresh (id : String) (p : PageNum) (doc : VersionedDocument) :
    Proc.Safe J Fresh (fun _ => True) (keepOldVersion id p doc) := by
  refine Proc.safe_getLocal.bind fun c _ => ?_
  split
  · exact Proc.safe_pure trivial
  · exact safe_modifyTx_fresh fun _ => rfl

theorem safe_trackUpdated_fresh (id : String) (doc : VersionedDocument) :
    Proc.Safe J Fresh (fun _ => True) (trackUpdated id doc) := by
  refine Proc.safe_getLocal.bind fun c _ => ?_
  refine Proc.Safe.bind (safe_modifyTx_fresh fun _ => rfl) fun _ _ => ?_
  split
  · exact Proc.safe_pure trivial
  · exact safe_modifyTx_fresh fun _ => rfl

end Parts

section Calls

theorem refused_insert (generatedId : String) (doc : Json) :
    Refused O Fresh (insert generatedId doc) := by
  refine Proc.safe_getLocal.bind fun c _ => ?_
  split
  · exact Proc.safe_fail _
  · split
    · exact Proc.safe_fail _
    · split
      · exact Proc.safe_fail _
      case h_2 docId fields _ =>
        refine Proc.safe_getLocal.bind fun c _ => ?_
        refine (safe_catching (safe_onTree_fresh (TxBTree.safe_search docId))).bind fun found _ => ?_
        refine Proc.Safe.bind (safe_modifyTx_fresh fun _ => rfl) fun _ _ => ?_
        split
        · exact Proc.safe_fail _
        · exact (refused_writeVersionedDocument _ _ _ _ _).bind _

theorem refused_updateById [SerdeJson] (id : String) (updates : Json) :
    Refused O Fresh (updateById id updates) := by
  rw [updateById_eq]
  refine Proc.safe_getLocal.bind fun c _ => ?_
  split
  · exact Proc.safe_fail _
  · split
    · exact Proc.safe_fail _
    · refine (safe_readVisible_fresh id).bind fun r _ => ?_
      refine (safe_trackUpdated_fresh _ _).bind fun _ _ => ?_
      refine (safe_keepOldVersion_fresh _ _ _).bind fun _ _ => ?_
      refine (Proc.safe_ofExcept (Q := fun _ => True) fun _ _ => trivial).bind fun fields _ => ?_
      exact (refused_writeVersionedDocument _ _ _ _ _).bind _

theorem refused_deleteById (id : String) : Refused O Fresh (deleteById id) := by
  refine Proc.safe_getLocal.bind fun c _ => ?_
  split
  · exact Proc.safe_fail _
  · refine (safe_readVisible_fresh id).bind fun r _ => ?_
    refine (safe_keepOldVersion_fresh _ _ _).bind fun _ _ => ?_
    exact Refused.bind (safe_onTree_fresh (TxBTree.refused_delete id)) _

end Calls

section Open

theorem safe_openTree_frozen (root : PageNum) (pages : HashMap PageNum Page) :
    Proc.Safe (Database.Frozen O) I TxBTree.Fresh (openTree root pages : DbM ℓ TxBTree) := by
  unfold openTree
  split
  · exact (TxBTree.refused_createEmpty _).safe
  · exact Proc.safe_pure (TxBTree.fresh_new _ _)

theorem safe_openIndexes_frozen (entries : List (String × IndexMeta)) {c : TxCollection}
    (hc : c.Fresh) :
    Proc.Safe (Database.Frozen O) I Fresh (openIndexes entries c : DbM ℓ TxCollection) := by
  induction entries generalizing c with
  | nil => exact Proc.safe_pure hc
  | cons entry rest ih =>
    obtain ⟨name, index⟩ := entry
    exact (safe_openTree_frozen _ _).bind fun t _ => ih ⟨hc.modified, hc.btree⟩

theorem safe_new_frozen {tx : Transaction} (h : tx.modifiedCollections = ∅) (name : String) :
    Proc.Safe (Database.Frozen O) I Fresh (new tx name : DbM ℓ TxCollection) := by
  refine safe_getMetadata.bind fun metadata _ => ?_
  refine (safe_openTree_frozen _ _).bind fun t ht => ?_
  simp only
  split
  · exact safe_openIndexes_frozen _ ⟨h, ht⟩
  · exact Proc.safe_pure ⟨h, ht⟩

theorem mirrors_openTree (root : PageNum) (pages : HashMap PageNum Page) :
    Proc.Mirrors Database.writable (Database.Frozen O) (openTree root pages : DbM ℓ TxBTree) := by
  unfold openTree
  split
  · exact Proc.mirrors_of_never (TxBTree.refused_createEmpty _)
  · exact (Proc.commutes_pure _).mirrors

theorem mirrors_openIndexes (entries : List (String × IndexMeta)) (c : TxCollection) :
    Proc.Mirrors Database.writable (Database.Frozen O)
      (openIndexes entries c : DbM ℓ TxCollection) := by
  induction entries generalizing c with
  | nil => exact (Proc.commutes_pure _).mirrors
  | cons entry rest ih =>
    obtain ⟨name, index⟩ := entry
    exact (mirrors_openTree _ _).bind (safe_openTree_frozen _ _) fun _ _ => ih _

-- A handle that can be opened is the one a writer would get.
theorem mirrors_new (tx : Transaction) (name : String) :
    Proc.Mirrors Database.writable (Database.Frozen O) (new tx name : DbM ℓ TxCollection) := by
  have hmeta : Proc.Commutes Database.writable (getMetadata : DbM ℓ Metadata) :=
    Proc.commutes_atomic fun _ => rfl
  refine hmeta.mirrors.bind safe_getMetadata fun metadata _ => ?_
  refine (mirrors_openTree _ _).bind (safe_openTree_frozen _ _) fun t _ => ?_
  simp only
  split
  · exact mirrors_openIndexes _ _
  · exact (Proc.commutes_pure _).mirrors

end Open

end TxCollection

namespace Commit

theorem applyBatch_unmodified {batch : List PendingWrite}
    (h : ∀ pending ∈ batch, pending.modifiedCollections = ∅) :
    (applyBatch batch : DbM ℓ _) = pure batch := by
  induction batch with
  | nil => rfl
  | cons pending rest ih =>
    unfold applyBatch
    rw [h pending (by simp), ih fun p hmem => h p (by simp [hmem])]
    rfl

theorem refused_writeMetadata (txId : TransactionID) :
    Refused O I (writeMetadata txId : DbM ℓ Unit) := by
  have hto : ∀ page metaPage, Refused O I (writeMetadataTo txId page metaPage : DbM ℓ Unit) := by
    intro page metaPage
    refine Proc.Safe.bind (Q := fun _ => True) (m := writeFrame _ _ _) (Proc.safe_atomicE fun db h =>
      ⟨h.withWal _, fun _ _ => trivial⟩) fun _ _ => ?_
    exact (refused_writePageTransfer _ _).bind _
  refine safe_getMetadata.bind fun metadata _ => ?_
  refine (Proc.safe_atomic (Q := fun _ => True) fun _ h => ⟨h, trivial⟩).bind fun page _ => ?_
  simp only
  split
  · exact (refused_allocPageMinimum _).bind _
  · exact hto _ _

-- The log may grow, but the metadata page cannot be written.
theorem refused_executeBatchCommit (leader : TransactionID) {batch : List PendingWrite}
    (h : ∀ pending ∈ batch, pending.modifiedCollections = ∅) :
    Refused O I (executeBatchCommit leader batch : DbM ℓ Unit) := by
  refine Refused.bind (m := prepareBatch leader batch) ?_ _
  refine (Proc.safe_forEach _ fun pending _ => safe_validatePendingWrite pending).bind fun _ _ => ?_
  refine (Proc.safe_ofExcept (Q := fun _ => True) fun _ _ => trivial).bind fun _ _ => ?_
  refine (Proc.safe_forEach _ fun pending _ => Proc.safe_forEach _ fun entry _ =>
    Proc.safe_atomicE fun db hdb => ⟨hdb.withWal _, fun _ _ => trivial⟩).bind fun _ _ => ?_
  rw [applyBatch_unmodified h]
  exact Proc.Safe.bind (Q := fun _ => True) (Proc.safe_pure trivial) fun _ _ =>
    (refused_writeMetadata _).bind _

end Commit

end JasonDb
