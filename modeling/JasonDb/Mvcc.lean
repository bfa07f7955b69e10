import JasonDb.Database.State

namespace JasonDb

open Lib

namespace TransactionManager

variable {ℓ : Type}

def getLatestCommittedTxId : DbM ℓ TransactionID :=
  Proc.atomic fun db => (db.txManager.lastCommittedTxId, db)

def fetchNextTxId : DbM ℓ TransactionID :=
  Proc.atomic fun db => (db.txManager.nextTxId, { db with
    txManager := { db.txManager with nextTxId := db.txManager.nextTxId + 1 } })

def register (info : TransactionInfo) : DbM ℓ Unit :=
  Proc.atomic fun db => ((), { db with
    txManager := { db.txManager with activeTxs := db.txManager.activeTxs.insert info.id info } })

-- The id is taken before the snapshot time is read and the entry made.
def beginTransaction : DbM ℓ TransactionID := do
  let txId ← fetchNextTxId
  let snapshotTime ← getLatestCommittedTxId
  register ⟨txId, snapshotTime, .active⟩
  pure txId

-- All of it under the lock of the active transactions.
def commit (m : TransactionManager) (txId : TransactionID) : TransactionManager :=
  { m with
    activeTxs := m.activeTxs.erase txId
    lastCommittedTxId := if txId > m.lastCommittedTxId then txId else m.lastCommittedTxId }

def commitTransaction (txId : TransactionID) : DbM ℓ Unit :=
  Proc.atomic fun db => ((), { db with txManager := db.txManager.commit txId })

def abortTransaction (txId : TransactionID) : DbM ℓ Unit :=
  Proc.atomic fun db => ((), { db with
    txManager := { db.txManager with activeTxs := db.txManager.activeTxs.erase txId } })

end TransactionManager

end JasonDb
