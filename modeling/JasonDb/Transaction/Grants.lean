import JasonDb.Transaction.Commit
import JasonDb.TxCollection.Grants

namespace JasonDb

open Lib

namespace Commit

variable {ℓ : Type} {J : Database → Prop} {I : ℓ → Prop} {G : PageNum → Prop}
  {W : TransactionID → Page → Prop}

section Validate

theorem safe_committedVersion (root : PageNum) (id : String) :
    Proc.Safe J I (fun _ => True) (committedVersion root id : DbM ℓ _) := by
  have hsearch : Proc.Safe J I (fun _ => True)
      (Proc.within (TxBTree.new root ∅) (TxBTree.search id) : DbM ℓ _) :=
    ((TxBTree.safe_search (I := fun _ => True) id).within trivial).mono fun _ _ => trivial
  refine (safe_catching hsearch).bind fun r _ => ?_
  split
  · exact Proc.safe_pure trivial
  · exact (safe_catching (safe_readVersionedDocument _ _)).bind fun _ _ => Proc.safe_pure trivial

theorem safe_existingDocConflict (root : PageNum) (snapshotId xmin : TransactionID) (id : String) :
    Proc.Safe J I (fun _ => True) (existingDocConflict root snapshotId xmin id : DbM ℓ Bool) := by
  refine (safe_committedVersion root id).bind fun r _ => ?_
  split
  · exact Proc.safe_pure trivial
  · exact Proc.safe_pure trivial
  · exact Proc.safe_pure trivial

theorem safe_newDocConflict (root : PageNum) (snapshotId : TransactionID) (id : String) :
    Proc.Safe J I (fun _ => True) (newDocConflict root snapshotId id : DbM ℓ Bool) := by
  refine (safe_committedVersion root id).bind fun r _ => ?_
  split
  · exact Proc.safe_pure trivial
  · exact Proc.safe_pure trivial
  · exact Proc.safe_pure trivial

theorem safe_anyConflict {f : String → DbM ℓ Bool} (ids : List String)
    (h : ∀ id, Proc.Safe J I (fun _ => True) (f id)) :
    Proc.Safe J I (fun _ => True) (anyConflict f ids) := by
  induction ids with
  | nil => exact Proc.safe_pure trivial
  | cons id rest ih =>
    refine (h id).bind fun found _ => ?_
    split
    · exact Proc.safe_pure trivial
    · exact ih

theorem safe_validateCollection (pending : PendingWrite) (collection : String) :
    Proc.Safe J I (fun _ => True) (validateCollection pending collection : DbM ℓ Unit) := by
  refine safe_getMetadata.bind fun metadata _ => ?_
  simp only
  split
  · refine Proc.Safe.bind (Q := fun _ => True) (safe_anyConflict _ fun id => ?_) fun conflict _ => ?_
    · split
      · split
        · exact safe_existingDocConflict _ _ _ _
        · exact Proc.safe_pure trivial
      · exact safe_newDocConflict _ _ _
    · split
      · exact Proc.safe_fail _
      · exact Proc.safe_pure trivial
  · refine Proc.Safe.bind (Q := fun _ => True) (safe_anyConflict _ fun id => ?_) fun conflict _ => ?_
    · split
      · split
        · exact safe_existingDocConflict _ _ _ _
        · exact Proc.safe_pure trivial
      · exact Proc.safe_pure trivial
    · split
      · exact Proc.safe_fail _
      · exact Proc.safe_pure trivial

theorem safe_validatePendingWrite (pending : PendingWrite) :
    Proc.Safe J I (fun _ => True) (validatePendingWrite pending : DbM ℓ Unit) :=
  Proc.safe_forEach _ fun _ _ => safe_validateCollection _ _

end Validate

-- `J` survives a frame with such a page.
def Logs (J : Database → Prop) (G : PageNum → Prop) (W : TransactionID → Page → Prop) : Prop :=
  ∀ db txId p page, J db → G p → W txId page →
    J { db with wal := (db.wal.writeFrame txId p page).2 }

theorem safe_writeFrame (hlog : Logs J G W) {txId : TransactionID} {p : PageNum} {page : Page}
    (hp : G p) (hpage : W txId page) :
    Proc.Safe J I (fun _ => True) (writeFrame txId p page : DbM ℓ Unit) :=
  Proc.safe_atomicE fun db hs => ⟨hlog db txId p page hs hp hpage, fun _ _ => trivial⟩

theorem safe_writeFrames (hlog : Logs J G W) {pending : PendingWrite}
    (h : PagesIn G (W pending.mvccTxId) pending.writes) :
    Proc.Safe J I (fun _ => True) (writeFrames pending : DbM ℓ Unit) := by
  refine Proc.safe_forEach _ fun entry hentry => ?_
  obtain ⟨hp, hpage⟩ := h entry.1 entry.2 (HashMap.mem_toList.mp hentry)
  exact safe_writeFrame hlog hp hpage

theorem safe_writePages (hJ : ∀ txId, Grants J G (W txId)) {pending : PendingWrite}
    (h : PagesIn G (W pending.mvccTxId) pending.writes) :
    Proc.Safe J I (fun _ => True) (writePages pending : DbM ℓ Unit) := by
  refine Proc.safe_forEach _ fun entry hentry => ?_
  obtain ⟨hp, hpage⟩ := h entry.1 entry.2 (HashMap.mem_toList.mp hentry)
  exact safe_writePageTransfer (hJ _) hp hpage

-- The same transaction, whose pages are still its own.
def Carries (G : PageNum → Prop) (W : TransactionID → Page → Prop) (pending pending' : PendingWrite) :
    Prop :=
  pending'.mvccTxId = pending.mvccTxId ∧ PagesIn G (W pending'.mvccTxId) pending'.writes

theorem pagesIn_of_carries {batch batch' : List PendingWrite}
    (h : List.Forall₂ (Carries G W) batch batch') :
    ∀ pending ∈ batch', PagesIn G (W pending.mvccTxId) pending.writes := by
  induction h with
  | nil => simp
  | cons hp _ ih =>
    intro pending hmem
    rcases List.mem_cons.mp hmem with rfl | hmem
    · exact hp.2
    · exact ih pending hmem

section Apply

variable (hJ : ∀ txId, Grants J G (W txId)) (hnode : ∀ txId n, W txId (.node n))
  (hlog : Logs J G W)
  (hmeta : ∀ db collection root, J db →
    J { db with metadata := setRoot collection root db.metadata })

include hJ hnode

theorem safe_reapply (txId : TransactionID) (docs : HashMap String (Option PageNum)) :
    Proc.Safe J (TxBTree.Within G (W txId)) (fun _ => True) (reapply docs) := by
  refine Proc.Safe.bind (Q := fun _ => True) (Proc.safe_forEach _ fun entry _ => ?_) fun _ _ =>
    Proc.safe_forEach _ fun entry _ => ?_
  · unfold applyInsert
    split
    · exact TxBTree.safe_insert (hJ txId) (hnode txId) _ _
    · exact Proc.safe_pure trivial
  · unfold applyDelete
    split
    · exact Proc.safe_pure trivial
    · exact TxBTree.safe_delete (hJ txId) (hnode txId) _

include hlog

theorem safe_rebase {pending : PendingWrite} (h : PagesIn G (W pending.mvccTxId) pending.writes)
    (collection : String) (root : PageNum) :
    Proc.Safe J I (Carries G W pending) (rebase pending collection root : DbM ℓ PendingWrite) := by
  have hsingle : Proc.Safe J I (Carries G W pending)
      (rebaseSingleCollection pending collection root : DbM ℓ PendingWrite) := by
    exact ((safe_reapply hJ hnode pending.mvccTxId _).within (TxBTree.within_new h)).bind
      fun r hr => Proc.safe_pure ⟨rfl, hr.2.writes⟩
  refine hsingle.bind fun rebased hreb => ?_
  refine Proc.Safe.bind (Q := fun _ => True) (Proc.safe_forEach _ fun entry hentry => ?_) fun _ _ =>
    Proc.safe_pure hreb
  split
  · exact Proc.safe_pure trivial
  · obtain ⟨hp, hpage⟩ := hreb.2 entry.1 entry.2 (HashMap.mem_toList.mp hentry)
    rw [hreb.1] at hpage
    exact safe_writeFrame hlog hp hpage

include hmeta

theorem safe_applyCollection {pending : PendingWrite}
    (h : PagesIn G (W pending.mvccTxId) pending.writes) (collection : String) :
    Proc.Safe J I (Carries G W pending) (applyCollection pending collection : DbM ℓ PendingWrite) := by
  refine safe_getMetadata.bind fun metadata _ => ?_
  have hrebase : Proc.Safe J I (Carries G W pending)
      (rebaseIfMoved pending collection (metadata.root collection) : DbM ℓ PendingWrite) := by
    unfold rebaseIfMoved
    split
    · exact safe_rebase hJ hnode hlog h _ _
    · exact Proc.safe_pure ⟨rfl, h⟩
  refine hrebase.bind fun pending' hp => ?_
  refine Proc.Safe.bind (Q := fun _ => True) (m := installRoot _ _ _) ?_ fun _ _ =>
    Proc.safe_pure hp
  unfold installRoot
  simp only
  split
  · exact Proc.safe_atomic fun db hs => ⟨hmeta db _ _ hs, trivial⟩
  · exact Proc.safe_pure trivial

theorem safe_applyCollections {pending : PendingWrite}
    (h : PagesIn G (W pending.mvccTxId) pending.writes) (collections : List String) :
    Proc.Safe J I (Carries G W pending)
      (applyCollections pending collections : DbM ℓ PendingWrite) := by
  induction collections generalizing pending with
  | nil => exact Proc.safe_pure ⟨rfl, h⟩
  | cons collection rest ih =>
    refine (safe_applyCollection hJ hnode hlog hmeta h collection).bind fun pending' hp => ?_
    exact (ih hp.2).mono fun _ hc => ⟨hc.1.trans hp.1, hc.2⟩

theorem safe_applyBatch {batch : List PendingWrite}
    (h : ∀ pending ∈ batch, PagesIn G (W pending.mvccTxId) pending.writes) :
    Proc.Safe J I (List.Forall₂ (Carries G W) batch) (applyBatch batch : DbM ℓ _) := by
  induction batch with
  | nil => exact Proc.safe_pure .nil
  | cons pending rest ih =>
    refine (safe_applyCollections hJ hnode hlog hmeta (h pending (by simp)) _).bind
      fun pending' hp => ?_
    refine (ih fun p hmem => h p (by simp [hmem])).bind fun rest' hrest => ?_
    exact Proc.safe_pure (.cons hp hrest)

end Apply

end Commit

end JasonDb
