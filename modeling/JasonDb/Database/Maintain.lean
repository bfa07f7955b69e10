import JasonDb.Collection
import JasonDb.Database.Index

namespace JasonDb

open Lib

variable {ℓ : Type}

structure GarbageCollectionStats where
  versionsRemoved : Nat
  pagesFreed : Nat
  bytesFreed : Nat
deriving DecidableEq

-- `get_oldest_active_transaction`. The snapshot time of a transaction is its `start_time`.
def TransactionManager.oldestActive (m : TransactionManager) : TransactionID :=
  ((m.activeTxs.toList.map fun entry => entry.2.startTime).min?).getD (m.lastCommittedTxId + 1)

-- `VersionChain::garbage_collect`: whether a version stays.
def DocumentVersion.isKept (oldestActiveTx : TransactionID) (version : DocumentVersion) : Bool :=
  decide (version.xmin ≥ oldestActiveTx) ||
    (decide (version.xmax = 0) || decide (version.xmax ≥ oldestActiveTx))

-- Versions whose pages cannot be freed are not counted.
def freeVersions : List DocumentVersion → GarbageCollectionStats → DbM ℓ GarbageCollectionStats
  | [], stats => pure stats
  | version :: rest, stats => do
    match ← catching (deleteDocument version.pageNum) with
    | .error _ => freeVersions rest stats
    | .ok _ => freeVersions rest { stats with
        versionsRemoved := stats.versionsRemoved + 1
        pagesFreed := stats.pagesFreed + 1 }

abbrev VersionChains := HashMap String (HashMap String (List DocumentVersion))

def removedVersions (oldestActiveTx : TransactionID) (chains : VersionChains) :
    List DocumentVersion :=
  chains.toList.flatMap fun entry => entry.2.toList.flatMap fun doc =>
    doc.2.filter fun version => !version.isKept oldestActiveTx

-- Documents without versions and collections without documents are left out.
def keptDocuments (oldestActiveTx : TransactionID) (docs : HashMap String (List DocumentVersion)) :
    HashMap String (List DocumentVersion) :=
  docs.toList.foldl (fun kept doc =>
    let versions := doc.2.filter (·.isKept oldestActiveTx)
    if versions.isEmpty then kept else kept.insert doc.1 versions) ∅

def keptChains (oldestActiveTx : TransactionID) (chains : VersionChains) : VersionChains :=
  chains.toList.foldl (fun kept entry =>
    let docs := keptDocuments oldestActiveTx entry.2
    if docs.isEmpty then kept else kept.insert entry.1 docs) ∅

-- The version chains are locked from the moment they are read.
def collectVersions (oldestActiveTx : TransactionID) : DbM ℓ GarbageCollectionStats := do
  let chains ← Proc.atomic fun db => (db.versionChains, db)
  let stats ← freeVersions (removedVersions oldestActiveTx chains) ⟨0, 0, 0⟩
  updateVersionChains fun _ => keptChains oldestActiveTx chains
  pure { stats with bytesFreed := stats.pagesFreed * PAGE_SIZE }

def garbageCollect : DbM ℓ GarbageCollectionStats := do
  if ← isReadOnly then
    Proc.fail (.other "cannot garbage collect: database is in read-only mode")
  else
    let oldestActiveTx ← Proc.atomic fun db => (db.txManager.oldestActive, db)
    collectVersions oldestActiveTx

-- `backup` up to the copy of the file.
def backup : DbM ℓ Unit := do
  if ← isReadOnly then Proc.fail (.other "cannot backup: database is read-only")
  else checkpoint

-- `WAL::close` syncs what is in the file and leaves the buffered writer alone.
def WAL.close (w : WAL) : Except Error Unit × WAL :=
  if w.failing then (.error (.io "sync failed"), w.tick)
  else (.ok (), { w.tick with synced := w.frames.length })

def close : DbM ℓ Unit := do
  flush
  Proc.atomicE fun db =>
    let (r, wal) := db.wal.close
    (r, { db with wal })

end JasonDb
