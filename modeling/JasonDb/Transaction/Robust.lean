import JasonDb.Database.Update
import JasonDb.Transaction.Begin
import JasonDb.Transaction.Grants

namespace JasonDb

open Lib

variable {ℓ : Type} {J : Database → Prop} {I : ℓ → Prop} {W : Page → Prop}

-- `J` looks at the pages that are cached or in the file, and of the metadata at no root.
structure Robust (J : Database → Prop) : Prop where
  wal : ∀ db wal, J db → J { db with wal }
  txManager : ∀ db txManager, J db → J { db with txManager }
  txIdCounter : ∀ db txIdCounter, J db → J { db with txIdCounter }
  versionChains : ∀ db versionChains, J db → J { db with versionChains }
  root : ∀ db name root, J db → J { db with metadata := Commit.setRoot name root db.metadata }
  free : ∀ db p, J db → J { db with pager := (db.pager.freePage p).2 }
  header : ∀ db, J db → J { db with pager := db.pager.writeHeader.2 }
  headerNoSync : ∀ db, J db → J { db with pager := db.pager.writeHeaderNoSync.2 }
  flush : ∀ db, J db → J { db with pager := db.pager.flush }
  flushNoSync : ∀ db, J db → J { db with pager := db.pager.flushNoSync }
  sync : ∀ db, J db → J { db with pager := db.pager.syncDataOnly }
  metadataPage : ∀ db metadataPage, J db → J { db with pager := { db.pager with metadataPage } }
  nextTxId : ∀ db nextTxId, J db → J { db with pager := { db.pager with nextTxId } }

-- A transaction all of whose pages are of `W`.
def Transaction.Writes (W : Page → Prop) (tx : Transaction) : Prop :=
  PagesIn (fun _ => True) W tx.writes

section Commit

variable (hJ : Grants J (fun _ => True) W) (hr : Robust J)

include hr

theorem Robust.unattached : Unattached J := ⟨hr.txIdCounter, hr.txManager⟩

theorem safe_begin : Proc.Safe J I (Transaction.Writes W) (begin : DbM ℓ Transaction) :=
  hr.unattached.safe_begin.mono fun tx htx => by
    rw [Transaction.Writes, htx.writes]
    exact pagesIn_empty

omit hr in
theorem safe_abandon : Proc.Safe J (Transaction.Writes W) (fun _ => True)
    (Proc.modifyLocal Transaction.abandoned : Transaction.TxM Unit) :=
  Proc.safe_modifyLocal fun _ _ => pagesIn_empty

theorem safe_dropTransaction :
    Proc.Safe J (Transaction.Writes W) (fun _ => True) Transaction.dropTransaction :=
  hr.unattached.safe_dropTransaction fun _ _ => pagesIn_empty

theorem safe_commitEmpty :
    Proc.Safe J (Transaction.Writes W) (fun _ => True) Transaction.commitEmpty :=
  hr.unattached.safe_commitEmpty fun _ hw => hw

variable (hmeta : ∀ m, W (.metadata m)) (hnode : ∀ n, W (.node n))

include hJ hmeta

theorem safe_storeMetadata : Proc.Safe J I (fun _ => True) (storeMetadata : DbM ℓ Unit) := by
  refine safe_getMetadata.bind fun metadata _ => ?_
  refine (Proc.safe_atomic (Q := fun _ => True) fun _ hs => ⟨hs, trivial⟩).bind fun page _ => ?_
  split
  · exact safe_writePageTransfer hJ trivial (hmeta _)
  · refine (safe_allocPageMinimum hJ _).bind fun newPage _ => ?_
    refine (safe_writePageTransfer hJ trivial (hmeta _)).bind fun _ _ => ?_
    refine (Proc.safe_atomic (Q := fun _ => True) fun db hs =>
      ⟨hr.metadataPage db _ hs, trivial⟩).bind fun _ _ => ?_
    exact Proc.safe_atomicE fun db hs => ⟨hr.header db hs, fun _ _ => trivial⟩

theorem safe_updateMetadata {f : Metadata → Metadata}
    (hf : ∀ db, J db → J { db with metadata := f db.metadata }) :
    Proc.Safe J I (fun _ => True) (updateMetadata f : DbM ℓ Unit) := by
  refine (Proc.safe_atomic (Q := fun _ => True) fun _ hs => ⟨hs, trivial⟩).bind fun readOnly _ => ?_
  split
  · exact Proc.safe_fail _
  · refine (Proc.safe_atomic (Q := fun _ => True) fun db hs => ⟨hf db hs, trivial⟩).bind
      fun _ _ => ?_
    exact (safe_storeMetadata hJ hr hmeta).bind fun _ _ =>
      Proc.safe_atomic fun db hs => ⟨hr.flush db hs, trivial⟩

omit hJ hmeta in
theorem robust_logs : Commit.Logs J (fun _ => True) fun _ => W :=
  fun db _ _ _ hs _ _ => hr.wal db _ hs

omit hmeta in
theorem safe_writeMetadata (hmeta : ∀ m, W (.metadata m)) (txId : TransactionID) :
    Proc.Safe J I (fun _ => True) (Commit.writeMetadata txId : DbM ℓ Unit) := by
  have hto : ∀ metadata metaPage, Proc.Safe J I (fun _ => True)
      (Commit.writeMetadataTo txId (.metadata metadata) metaPage : DbM ℓ Unit) := by
    intro metadata metaPage
    refine Proc.Safe.bind (Q := fun _ => True) (m := writeFrame _ _ _) (Proc.safe_atomicE fun db hs =>
      ⟨hr.wal db _ hs, fun _ _ => trivial⟩) fun _ _ => ?_
    refine (safe_writePageTransfer hJ trivial (hmeta _)).bind fun _ _ => ?_
    refine (Proc.safe_atomic (Q := fun _ => True) fun _ hs => ⟨hs, trivial⟩).bind fun header _ => ?_
    refine Proc.Safe.bind (Q := fun _ => True) (m := writeFrame _ _ _) (Proc.safe_atomicE fun db hs =>
      ⟨hr.wal db _ hs, fun _ _ => trivial⟩) fun _ _ => ?_
    refine (Proc.safe_atomic (Q := fun _ => True) fun db hs =>
      ⟨hr.metadataPage db _ hs, trivial⟩).bind fun _ _ => ?_
    refine (Proc.safe_atomic (Q := fun _ => True) fun db hs =>
      ⟨hr.nextTxId db _ hs, trivial⟩).bind fun _ _ => ?_
    exact Proc.safe_atomicE fun db hs => ⟨hr.headerNoSync db hs, fun _ _ => trivial⟩
  refine safe_getMetadata.bind fun metadata _ => ?_
  refine (Proc.safe_atomic (Q := fun _ => True) fun _ hs => ⟨hs, trivial⟩).bind fun page _ => ?_
  simp only
  split
  · exact (safe_allocPageMinimum hJ _).bind fun _ _ => hto _ _
  · exact hto _ _

omit hmeta in
theorem safe_finishBatch {batch : List PendingWrite}
    (h : ∀ pending ∈ batch, PagesIn (fun _ => True) W pending.writes) :
    Proc.Safe J I (fun _ => True) (Commit.finishBatch batch : DbM ℓ Unit) := by
  refine Proc.Safe.bind (Q := fun _ => True) (m := syncWal) (Proc.safe_atomicE fun db hs =>
    ⟨hr.wal db _ hs, fun _ _ => trivial⟩) fun _ _ => ?_
  refine (Proc.safe_forEach _ fun pending hmem =>
    Commit.safe_writePages (W := fun _ => W) (fun _ => hJ) (h pending hmem)).bind fun _ _ => ?_
  refine (Proc.safe_atomic (Q := fun _ => True) fun db hs =>
    ⟨hr.flushNoSync db hs, trivial⟩).bind fun _ _ => ?_
  refine (Proc.safe_atomic (Q := fun _ => True) fun db hs => ⟨hr.sync db hs, trivial⟩).bind
    fun _ _ => ?_
  refine (Proc.safe_forEach _ fun pending _ => Proc.safe_atomic fun db hs =>
    ⟨hr.txManager db _ hs, trivial⟩).bind fun _ _ => ?_
  exact Proc.safe_forEach _ fun pending _ => Proc.safe_atomic fun db hs =>
    ⟨hr.versionChains db _ hs, trivial⟩

include hnode

theorem safe_executeBatchCommit (leader : TransactionID) {batch : List PendingWrite}
    (h : ∀ pending ∈ batch, PagesIn (fun _ => True) W pending.writes) :
    Proc.Safe J I (fun _ => True) (Commit.executeBatchCommit leader batch : DbM ℓ Unit) := by
  have hprepare : Proc.Safe J I (List.Forall₂ (Commit.Carries (fun _ => True) fun _ => W) batch)
      (Commit.prepareBatch leader batch : DbM ℓ _) := by
    refine (Proc.safe_forEach _ fun pending _ => Commit.safe_validatePendingWrite pending).bind
      fun _ _ => ?_
    refine (Proc.safe_ofExcept (Q := fun _ => True) fun _ _ => trivial).bind fun _ _ => ?_
    refine (Proc.safe_forEach _ fun pending hmem =>
      Commit.safe_writeFrames (robust_logs hr) (h pending hmem)).bind fun _ _ => ?_
    refine (Commit.safe_applyBatch (fun _ => hJ) (fun _ => hnode) (robust_logs hr) hr.root h).bind
      fun batch' hcarry => ?_
    exact (safe_writeMetadata hJ hr hmeta _).bind fun _ _ => Proc.safe_pure hcarry
  exact hprepare.bind fun batch' hcarry =>
    safe_finishBatch hJ hr (Commit.pagesIn_of_carries hcarry)

end Commit

end JasonDb
