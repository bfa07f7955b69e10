import JasonDb.Transaction
import JasonDb.Wal

namespace JasonDb

open Lib

variable {ℓ : Type}

def metadataPage : DbM ℓ PageNum := Proc.atomic fun db => (db.pager.metadataPage, db)

def setMetadataPage (pageNum : PageNum) : DbM ℓ Unit :=
  Proc.atomic fun db => ((), { db with pager := { db.pager with metadataPage := pageNum } })

def setNextTransactionId (txId : TransactionID) : DbM ℓ Unit :=
  Proc.atomic fun db => ((), { db with pager := { db.pager with nextTxId := txId } })

def getHeaderData : DbM ℓ Header := Proc.atomic fun db => (db.pager.headerData, db)

def writeHeaderNoSync : DbM ℓ Unit :=
  Proc.atomicE fun db =>
    let (r, pager) := db.pager.writeHeaderNoSync
    (r, { db with pager })

def flushNoSync : DbM ℓ Unit :=
  Proc.atomic fun db => ((), { db with pager := db.pager.flushNoSync })

def syncDataOnly : DbM ℓ Unit :=
  Proc.atomic fun db => ((), { db with pager := db.pager.syncDataOnly })

namespace Commit

-- The version of a document in a tree of committed pages.
def committedVersion (root : PageNum) (id : String) :
    DbM ℓ (Except Error (Except Error VersionedDocument)) := do
  match ← catching (Proc.within (TxBTree.new root ∅) (TxBTree.search id)) with
  | .error e => pure (.error e)
  | .ok (page, _) => do
    let doc ← catching (readVersionedDocument page ∅)
    pure (.ok doc)

-- A document that was there in the snapshot: deleted or unreadable since, or replaced by a
-- version the snapshot does not have.
def existingDocConflict (root : PageNum) (snapshotId originalXmin : TransactionID) (id : String) :
    DbM ℓ Bool := do
  match ← committedVersion root id with
  | .error _ => pure true
  | .ok (.error _) => pure true
  | .ok (.ok doc) => pure (doc.xmin ≠ originalXmin && doc.xmin > snapshotId)

-- A document that was not there in the snapshot.
def newDocConflict (root : PageNum) (snapshotId : TransactionID) (id : String) : DbM ℓ Bool := do
  match ← committedVersion root id with
  | .error _ => pure false
  | .ok (.error _) => pure true
  | .ok (.ok doc) => pure (doc.xmin > snapshotId)

def anyConflict (f : String → DbM ℓ Bool) : List String → DbM ℓ Bool
  | [] => pure false
  | id :: rest => do
    if ← f id then pure true else anyConflict f rest

def existedInSnapshot (pending : PendingWrite) (collection id : String) : Bool :=
  (getNested pending.docExistedInSnapshot collection id).getD false

-- What a transaction wrote in a collection.
def docsOf (pending : PendingWrite) (collection : String) : HashMap String (Option PageNum) :=
  (pending.docWrites.get? collection).getD ∅

def writtenIds (pending : PendingWrite) (collection : String) : List String :=
  (docsOf pending collection).keys

def detectDocumentLevelConflicts (pending : PendingWrite) (collection : String)
    (currentRoot : PageNum) : DbM ℓ Bool :=
  anyConflict (fun id =>
      if existedInSnapshot pending collection id then
        match getNested pending.docOriginalXmin collection id with
        | some xmin => existingDocConflict currentRoot pending.snapshotId xmin id
        | none => pure false
      else newDocConflict currentRoot pending.snapshotId id)
    (writtenIds pending collection)

-- Without a document that existed and was read, this is `Ok` without looking at any page.
def detectWriteConflictsWithContext (pending : PendingWrite) (collection : String)
    (currentRoot : PageNum) : DbM ℓ Unit := do
  let conflict ← anyConflict (fun id =>
      if existedInSnapshot pending collection id then
        match getNested pending.docOriginalXmin collection id with
        | some xmin => existingDocConflict currentRoot pending.snapshotId xmin id
        | none => pure false
      else pure false)
    (writtenIds pending collection)
  if conflict then Proc.fail .txConflict else pure ()

def snapshotRoot (pending : PendingWrite) (collection : String) : PageNum :=
  (pending.snapshotRoots.get? collection).getD 0

def validateCollection (pending : PendingWrite) (collection : String) : DbM ℓ Unit := do
  let metadata ← getMetadata
  let currentRoot := metadata.root collection
  if currentRoot ≠ snapshotRoot pending collection then
    if ← detectDocumentLevelConflicts pending collection currentRoot then Proc.fail .txConflict
    else pure ()
  else detectWriteConflictsWithContext pending collection currentRoot

-- `validate_pending_write`. The flag it returns is not used.
def validatePendingWrite (pending : PendingWrite) : DbM ℓ Unit :=
  Proc.forEach (validateCollection pending) pending.modifiedCollections.keys

def writtenKeys (pending : PendingWrite) : List (String × String) :=
  pending.docWrites.toList.flatMap fun entry => entry.2.keys.map fun id => (entry.1, id)

def checkKeys (idx : Nat) : List (String × String) → HashMap (String × String) Nat →
    Except Error (HashMap (String × String) Nat)
  | [], seen => .ok seen
  | key :: rest, seen => match seen.get? key with
    | some first =>
      let collection := key.1
      let id := key.2
      .error (.other s!"Batch conflict: TX {first} and TX {idx} both modify {collection}/{id}")
    | none => checkKeys idx rest (seen.insert key idx)

def checkBatchFrom : Nat → List PendingWrite → HashMap (String × String) Nat → Except Error Unit
  | _, [], _ => .ok ()
  | idx, pending :: rest, seen => match checkKeys idx (writtenKeys pending) seen with
    | .error e => .error e
    | .ok seen => checkBatchFrom (idx + 1) rest seen

def checkBatchConflicts (batch : List PendingWrite) : Except Error Unit :=
  checkBatchFrom 0 batch ∅

def writeFrames (pending : PendingWrite) : DbM ℓ Unit :=
  Proc.forEach (fun entry => writeFrame pending.mvccTxId entry.1 entry.2) pending.writes.toList

def applyInsert (entry : String × Option PageNum) : TxBTree.TreeM Unit :=
  match entry.2 with
  | some page => TxBTree.insert entry.1 page
  | none => pure ()

def applyDelete (entry : String × Option PageNum) : TxBTree.TreeM Unit :=
  match entry.2 with
  | some _ => pure ()
  | none => TxBTree.delete entry.1

-- The inserts first, then the deletes.
def reapply (docs : HashMap String (Option PageNum)) : TxBTree.TreeM Unit := do
  Proc.forEach applyInsert docs.toList
  Proc.forEach applyDelete docs.toList

def rebaseSingleCollection (pending : PendingWrite) (collection : String)
    (currentRoot : PageNum) : DbM ℓ PendingWrite := do
  let (_, tree) ← Proc.within (TxBTree.new currentRoot pending.writes)
    (reapply (docsOf pending collection))
  pure { pending with
    writes := tree.txWrites
    updatedRoots := pending.updatedRoots.insert collection tree.getCurrentRoot }

-- Rebase, and log the pages that came with it.
def rebase (pending : PendingWrite) (collection : String) (currentRoot : PageNum) :
    DbM ℓ PendingWrite := do
  let rebased ← rebaseSingleCollection pending collection currentRoot
  Proc.forEach (fun entry =>
    if entry.1 ∈ pending.writes then pure ()
    else writeFrame pending.mvccTxId entry.1 entry.2) rebased.writes.toList
  pure rebased

def rebaseIfMoved (pending : PendingWrite) (collection : String) (currentRoot : PageNum) :
    DbM ℓ PendingWrite :=
  if currentRoot ≠ snapshotRoot pending collection then rebase pending collection currentRoot
  else pure pending

def setRoot (collection : String) (root : PageNum) (m : Metadata) : Metadata :=
  m.modifyCollection collection fun coll => { coll with btreeRoot := root }

def installRoot (pending : PendingWrite) (collection : String) (currentRoot : PageNum) :
    DbM ℓ Unit :=
  let newRoot := (pending.updatedRoots.get? collection).getD currentRoot
  if newRoot ≠ currentRoot then updateMetadataNoFlush (setRoot collection newRoot) else pure ()

-- One collection of one transaction in phase 4.
def applyCollection (pending : PendingWrite) (collection : String) : DbM ℓ PendingWrite := do
  let metadata ← getMetadata
  let currentRoot := metadata.root collection
  let pending ← rebaseIfMoved pending collection currentRoot
  installRoot pending collection currentRoot
  pure pending

def applyCollections (pending : PendingWrite) : List String → DbM ℓ PendingWrite
  | [] => pure pending
  | collection :: rest => do
    let pending ← applyCollection pending collection
    applyCollections pending rest

def applyBatch : List PendingWrite → DbM ℓ (List PendingWrite)
  | [] => pure []
  | pending :: rest => do
    let pending ← applyCollections pending pending.modifiedCollections.keys
    let rest ← applyBatch rest
    pure (pending :: rest)

def maxTxId (leader : TransactionID) (batch : List PendingWrite) : TransactionID :=
  ((batch.map PendingWrite.mvccTxId).max?).getD leader

def writeMetadataTo (txId : TransactionID) (metaData : Page) (metaPage : PageNum) : DbM ℓ Unit := do
  writeFrame txId metaPage metaData
  writePageTransfer metaPage metaData
  let header ← getHeaderData
  writeFrame txId 0 (.header { header with metadataPage := metaPage })
  setMetadataPage metaPage
  setNextTransactionId (txId + 1)
  writeHeaderNoSync

-- The end of phase 4: the metadata page and the header go to the log, the header to the file.
def writeMetadata (txId : TransactionID) : DbM ℓ Unit := do
  let metadata ← getMetadata
  let page ← metadataPage
  let metaPage ← if page = 0 then allocPage else pure page
  writeMetadataTo txId (.metadata metadata) metaPage

-- Phases 1 to 4: all that comes before the log is synced.
def prepareBatch (leader : TransactionID) (batch : List PendingWrite) :
    DbM ℓ (List PendingWrite) := do
  Proc.forEach validatePendingWrite batch
  Proc.ofExcept (checkBatchConflicts batch)
  Proc.forEach writeFrames batch
  let batch ← applyBatch batch
  writeMetadata (maxTxId leader batch)
  pure batch

def writePages (pending : PendingWrite) : DbM ℓ Unit :=
  Proc.forEach (fun entry => writePageTransfer entry.1 entry.2) pending.writes.toList

def addVersions (chains : HashMap String (HashMap String (List DocumentVersion)))
    (pending : PendingWrite) : HashMap String (HashMap String (List DocumentVersion)) :=
  pending.oldVersions.toList.foldl (fun chains entry =>
    entry.2.toList.foldl (fun chains version =>
      insertNested chains entry.1 version.1
        ((getNested chains entry.1 version.1).getD [] ++
          [{ version.2 with xmax := pending.mvccTxId }])) chains) chains

def pushVersions (pending : PendingWrite) : DbM ℓ Unit :=
  Proc.atomic fun db => ((), { db with versionChains := addVersions db.versionChains pending })

-- From the sync of the log to the end. Watchers are not part of the model.
def finishBatch (batch : List PendingWrite) : DbM ℓ Unit := do
  syncWal
  Proc.forEach writePages batch
  flushNoSync
  syncDataOnly
  Proc.forEach (fun pending => TransactionManager.commitTransaction pending.mvccTxId) batch
  Proc.forEach pushVersions batch

def executeBatchCommit (leader : TransactionID) (batch : List PendingWrite) : DbM ℓ Unit := do
  let batch ← prepareBatch leader batch
  finishBatch batch

end Commit

end JasonDb
