import JasonDb.Transaction

namespace JasonDb

open Lib

namespace Metadata

def remove (m : Metadata) (name : String) : Metadata := ⟨m.collections.erase name⟩

-- `if let Some(meta) = m.collections.remove(old) { m.collections.insert(new, meta) }`
def rename (m : Metadata) (oldName newName : String) : Metadata :=
  match m.collections.get? oldName with
  | some coll => ⟨(m.collections.erase oldName).insert newName coll⟩
  | none => m

end Metadata

def updateVersionChains {ℓ : Type}
    (f : HashMap String (HashMap String (List DocumentVersion)) →
      HashMap String (HashMap String (List DocumentVersion))) : DbM ℓ Unit :=
  Proc.atomic fun db => ((), { db with versionChains := f db.versionChains })

namespace Transaction

abbrev TxM := DbM Transaction

-- The metadata and the version chains are those all transactions share: these three do not wait
-- for the commit.
def createCollection (name : String) : TxM Unit := do
  let tx ← Proc.getLocal
  if !tx.isActive then Proc.fail .txNotActive
  else
    let metadata ← getMetadata
    if name ∈ metadata.collections then Proc.fail (.collectionAlreadyExists name)
    else updateMetadataNoFlush fun m => m.modifyCollection name id

def dropCollection (name : String) : TxM Unit := do
  let tx ← Proc.getLocal
  if !tx.isActive then Proc.fail .txNotActive
  else
    let metadata ← getMetadata
    if name ∉ metadata.collections then Proc.fail (.collectionDoesNotExist name)
    else
      updateMetadataNoFlush fun m => m.remove name
      updateVersionChains fun chains => chains.erase name

def moveChains (oldName newName : String)
    (chains : HashMap String (HashMap String (List DocumentVersion))) :
    HashMap String (HashMap String (List DocumentVersion)) :=
  match chains.get? oldName with
  | some chain => (chains.erase oldName).insert newName chain
  | none => chains

def renameCollection (oldName newName : String) : TxM Unit := do
  let tx ← Proc.getLocal
  if !tx.isActive then Proc.fail .txNotActive
  else
    let metadata ← getMetadata
    if newName ∈ metadata.collections then Proc.fail (.collectionAlreadyExists newName)
    else if oldName ∉ metadata.collections then Proc.fail (.collectionDoesNotExist oldName)
    else
      updateMetadataNoFlush fun m => m.rename oldName newName
      updateVersionChains (moveChains oldName newName)

def abandoned (tx : Transaction) : Transaction :=
  { tx with writes := ∅, docWrites := ∅, state := .rolledBack }

def rollback : TxM Unit := do
  let tx ← Proc.getLocal
  if !tx.isActive then Proc.fail .txAlreadyDone
  else
    Proc.modifyLocal abandoned
    TransactionManager.abortTransaction tx.mvccTxId

-- `Drop for Transaction`: an active transaction is abandoned, without a report.
def dropTransaction : TxM Unit := do
  let tx ← Proc.getLocal
  if tx.isActive then
    TransactionManager.abortTransaction tx.mvccTxId
    Proc.modifyLocal abandoned
  else pure ()

-- `commit` of a transaction that wrote nothing.
def commitEmpty : TxM Unit := do
  let tx ← Proc.getLocal
  if !tx.isActive then Proc.fail .txAlreadyDone
  else
    Proc.modifyLocal fun tx => { tx with state := .committed }
    TransactionManager.commitTransaction tx.mvccTxId

end Transaction

end JasonDb
