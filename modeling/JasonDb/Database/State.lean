import JasonDb.Pager

namespace JasonDb

open Lib

structure WALFrame where
  txId : TransactionID
  pageNum : PageNum
  pageData : Page

-- The frames in the log file, of which the first `synced` are durable, and the
-- frames the buffered writer still holds. `fault` is the environment: whether
-- the file operations of the n-th call fail.
structure WAL where
  frames : List WALFrame
  synced : Nat
  buffer : List WALFrame
  fault : Nat → Bool
  calls : Nat

def WAL_BUFFER_FRAMES : Nat := 15

-- A log without frames, whose file operations succeed.
def WAL.empty : WAL := ⟨[], 0, [], fun _ => false, 0⟩

inductive TxStatus where
  | active
  | committed
  | aborted
deriving DecidableEq

structure TransactionInfo where
  id : TransactionID
  startTime : TransactionID
  status : TxStatus
deriving DecidableEq

structure TransactionManager where
  nextTxId : TransactionID
  lastCommittedTxId : TransactionID
  activeTxs : HashMap TransactionID TransactionInfo

structure DocumentVersion where
  docId : String
  xmin : TransactionID
  xmax : TransactionID
  data : Option Json
  pageNum : PageNum
deriving DecidableEq

-- A transaction waiting to be committed. In `docWrites`, `none` is the source's
-- `PageNum::MAX`, the mark of a deleted document.
structure PendingWrite where
  writes : HashMap PageNum Page
  docWrites : HashMap String (HashMap String (Option PageNum))
  snapshotRoots : HashMap String PageNum
  updatedRoots : HashMap String PageNum
  oldVersions : HashMap String (HashMap String DocumentVersion)
  modifiedCollections : HashSet String
  docExistedInSnapshot : HashMap String (HashMap String Bool)
  docOriginalXmin : HashMap String (HashMap String TransactionID)
  txId : Nat
  snapshotId : TransactionID
  mvccTxId : TransactionID

structure BatchConfig where
  enabled : Bool
  maxBatchSize : Nat
deriving DecidableEq

def BatchConfig.default : BatchConfig := ⟨true, 32⟩

-- What the threads of one process share.
structure Database where
  pager : Pager
  wal : WAL
  metadata : Metadata
  txManager : TransactionManager
  versionChains : HashMap String (HashMap String (List DocumentVersion))
  txIdCounter : Nat
  pendingWrites : List PendingWrite
  batchConfig : BatchConfig
  readOnly : Bool

-- Thread code over the database, with local state `ℓ`.
abbrev DbM (ℓ α : Type) := Proc Database ℓ Error α

section Actions

variable {ℓ α : Type}

-- `match m { Ok(..), Err(_) }`: all errors are caught, but neither a panic nor a loop that
-- never ends is an error.
def catching (m : DbM ℓ α) : DbM ℓ (Except Error α) := do
  match ← Proc.attempt m with
  | .error .diverged => Proc.fail .diverged
  | .error (.panic message) => Proc.fail (.panic message)
  | result => pure result

def Error.Caught (e : Error) : Prop := e ≠ .diverged ∧ ∀ message, e ≠ .panic message

theorem exec_catching {m : DbM ℓ α} {l l' : ℓ} {db db' : Database} {r : Except Error α}
    (h : Proc.exec m l db = (r, l', db')) (hr : ∀ e, r = .error e → e.Caught) :
    Proc.exec (catching m) l db = (.ok r, l', db') := by
  have hatt : Proc.exec (Proc.attempt m) l db = (.ok r, l', db') := by
    rw [Proc.exec_attempt, h]
  unfold catching
  rw [Proc.exec_bind_ok hatt]
  cases r with
  | ok a => rfl
  | error e =>
    obtain ⟨hd, hp⟩ := hr e rfl
    cases e <;> first | rfl | exact absurd rfl hd | exact absurd rfl (hp _)

def readPage (pageNum : PageNum) : DbM ℓ Page :=
  Proc.atomicE fun db => (db.pager.readPage pageNum, db)

def writePageTransfer (pageNum : PageNum) (page : Page) : DbM ℓ Unit :=
  Proc.atomicE fun db =>
    let (r, pager) := db.pager.writePageTransfer pageNum page
    (r, { db with pager })

def allocPageMinimum (minPage : PageNum) : DbM ℓ PageNum :=
  Proc.atomicE fun db =>
    let (r, pager) := db.pager.allocPageMinimum minPage
    (r, { db with pager })

def allocPage : DbM ℓ PageNum := allocPageMinimum 0

def freePage (pageNum : PageNum) : DbM ℓ Unit :=
  Proc.atomicE fun db =>
    let (r, pager) := db.pager.freePage pageNum
    (r, { db with pager })

-- A bound for loops that follow page pointers. A walk longer than the number of
-- pages has come back to a page it visited before, and does so forever.
def walkBound : DbM ℓ Nat := Proc.atomic fun db => (db.pager.numPages + 1, db)

def getMetadata : DbM ℓ Metadata := Proc.atomic fun db => (db.metadata, db)

def updateMetadataNoFlush (f : Metadata → Metadata) : DbM ℓ Unit :=
  Proc.atomic fun db => ((), { db with metadata := f db.metadata })

end Actions

end JasonDb
