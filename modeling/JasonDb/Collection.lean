import Mathlib.Data.List.Infix
import JasonDb.BTree
import JasonDb.Database.Update
import JasonDb.Transaction.Client
import JasonDb.TxCollection

namespace JasonDb

open Lib

-- The `Display` text of an error.
def Error.display : Error → String
  | .txNotActive => "transaction is not active"
  | .txAlreadyDone => "transaction already committed or rolled back"
  | .txConflict => "transaction conflict: data was modified by another transaction"
  | .collectionNameEmpty => "collection name cannot be empty"
  | .collectionNameTooLong => "collection name too long (max 64 characters)"
  | .collectionNameInvalidStart => "collection name must start with letter or underscore"
  | .collectionNameInvalidChar =>
    "collection name contains invalid characters (use alphanumeric and underscore only)"
  | .collectionNameReserved => "collection name is reserved"
  | .collectionAlreadyExists name => s!"collection '{name}' already exists"
  | .collectionDoesNotExist name => s!"collection '{name}' does not exist"
  | .documentNotFound collection id =>
    let collection := Json.debugString collection
    let id := Json.debugString id
    s!"document not found: collection={collection}, id={id}"
  | .documentAlreadyExists collection id =>
    let collection := Json.debugString collection
    let id := Json.debugString id
    s!"document already exists: collection={collection}, id={id}"
  | .bulkOperationTooLarge count limit =>
    s!"bulk operation exceeds maximum size: operation has {count} items but limit is {limit}"
  | .invalidDocument => "invalid document format"
  | .invalidDocumentFormat reason none => s!"invalid document format: {reason}"
  | .invalidDocumentFormat reason (some collection) =>
    s!"invalid document format: {reason} (collection: '{collection}')"
  | .schemaValidation message => s!"schema validation error: {message}"
  | .corruption component pageNum details =>
    s!"data corruption in {component}: page={pageNum}, {details}"
  | .dataCorruption details => s!"data corruption: {details}"
  | .invalidPageSize => "page size must be 4096 bytes"
  | .invalidMagic => "invalid magic number"
  | .invalidVersion => "unsupported version"
  | .walCorrupted => "WAL file corrupted"
  | .notFound => "document not found"
  | .io message => s!"IO error: {message}"
  | .other message => message
  | .panic message => message
  | .diverged => ""

-- The last eight bytes of a page. Only documents end with a pointer; the other pages are padded.
def Page.overflowPointer : Page → PageNum
  | .doc page => page.overflow
  | .overflow page => page.next
  | _ => 0

section Codec

variable {ℓ : Type}

-- The overflow pages of a document from `page` on. At most as many as there may be are freed.
def freeOverflow : Nat → PageNum → List PageNum → DbM ℓ Unit
  | fuel, page, visited =>
    if page = 0 then pure ()
    else if page ∈ visited then
      Proc.fail (.other s!"Overflow chain cycle detected at page {page} during delete. Document is corrupted.")
    else match fuel with
      | 0 => Proc.fail (.other s!"Overflow chain too long (>{MAX_OVERFLOW_CHAIN_LENGTH} pages) during delete. Document may be corrupted.")
      | fuel + 1 => do
        let content ← readPage page
        freePage page
        freeOverflow fuel content.overflowPointer (page :: visited)

def deleteDocument (pageNum : PageNum) : DbM ℓ Unit := do
  let content ← readPage pageNum
  freeOverflow MAX_OVERFLOW_CHAIN_LENGTH content.overflowPointer []
  freePage pageNum

end Codec

-- What `parse_query` makes of a text: a message, or the test that the query is on documents.
abbrev Query := Except String (Json.Map → Bool)

inductive UpsertResult where
  | inserted (id : String)
  | updated (id : String)
deriving DecidableEq

-- An `insert` comes with the id that is generated when its document has none.
inductive BulkOperation where
  | insert (generatedId : String) (doc : Json)
  | updateOne (query : Query) (updates : Json)
  | updateMany (query : Query) (updates : Json)
  | deleteOne (query : Query)
  | deleteMany (query : Query)

structure BulkWriteError where
  operationIndex : Nat
  message : String
deriving DecidableEq

structure BulkWriteResult where
  insertedCount : Nat
  updatedCount : Nat
  deletedCount : Nat
  errors : List BulkWriteError
deriving DecidableEq

namespace Collection

-- What a call works with: its transaction, and the tree once it is open.
structure Work where
  tx : Transaction
  btree : BTree

abbrev WorkM := DbM Work

variable {ℓ α : Type}

-- The transaction of a call is dropped when the call ends, which aborts it unless it committed.
def inTransaction (body : WorkM α) : DbM ℓ α := do
  let tx ← begin
  let (result, work) ← Proc.within ⟨tx, BTree.open 0⟩ (Proc.attempt body)
  let _ ← Proc.within work.tx Transaction.dropTransaction
  Proc.ofExcept result

def onTree (m : BTree.TreeM α) : WorkM α :=
  Proc.zoom Work.btree (fun btree work => { work with btree }) m

def onTx (m : Transaction.TxM α) : WorkM α := Proc.zoom Work.tx (fun tx work => { work with tx }) m

def modifyTx (f : Transaction → Transaction) : WorkM Unit :=
  Proc.modifyLocal fun work => { work with tx := f work.tx }

def openTree (root : PageNum) : WorkM Unit :=
  Proc.modifyLocal fun work => { work with btree := BTree.open root }

-- A collection without a tree gets a new one, which only the commit makes known.
def openOrCreate (name : String) : WorkM Unit := do
  let metadata ← getMetadata
  if metadata.root name = 0 then
    let btree ← BTree.new
    Proc.modifyLocal fun work => { work with btree }
  else openTree (metadata.root name)

def rootOf (name : String) : DbM ℓ PageNum := do
  let metadata ← getMetadata
  match metadata.collections.get? name with
  | some coll => pure coll.btreeRoot
  | none => Proc.fail (.other s!"collection {name} not found")

def notFound : Error := .other "document not found"

def commit : WorkM Unit := do
  let work ← Proc.getLocal
  if work.tx.writes.isEmpty then onTx Transaction.commitEmpty
  else
    Commit.executeBatchCommit work.tx.mvccTxId [work.tx.prepareWriteRequest]
    modifyTx fun tx => { tx with state := .committed }

-- `if let Some(ref schema) = coll_meta.schema { schema.validate(..)? }`
def validateDocument (name : String) (doc : Json) : DbM ℓ Unit := do
  let metadata ← getMetadata
  match (metadata.collections.get? name).bind CollectionMeta.schema with
  | some schema => Proc.ofExcept (schema.validate doc)
  | none => pure ()

-- A new version of a document, in pages that the transaction takes note of.
def writeVersion (id : String) (data : Json) : WorkM (PageNum × HashMap PageNum Page) := do
  let work ← Proc.getLocal
  writeVersionedDocument id data work.tx.mvccTxId 0 ∅

def recordWrite (name id : String) (pageNum : PageNum) (pages : HashMap PageNum Page) :
    WorkM Unit := do
  modifyTx fun tx => { tx with
    writes := pages.toList.foldl (fun writes entry => writes.insert entry.1 entry.2) tx.writes }
  modifyTx fun tx => tx.writeDocument name id (some pageNum)

def readVersion (pageNum : PageNum) : WorkM VersionedDocument := do
  let work ← Proc.getLocal
  readVersionedDocument pageNum work.tx.writes

def readVisible (id : String) : WorkM VersionedDocument := do
  let pageNum ← onTree (BTree.search id)
  let doc ← readVersion pageNum
  let work ← Proc.getLocal
  if doc.isVisible work.tx.snapshotId then pure doc else Proc.fail notFound

def docIdOf (generatedId : String) (doc : Json) : Except Error (String × Json.Map) :=
  match doc.asObject with
  | none => .error (.other "document must be an object")
  | some fields => match TxCollection.docIdOf generatedId fields with
    | none => .error (.other "_id must be a string")
    | some result => .ok result

-- The part of an insert that `insert` and `execute_insert` have in common.
def insertDocument (name docId : String) (fields : Json.Map) : WorkM Unit := do
  let found ← catching (onTree (BTree.search docId))
  if found.isOk then Proc.fail (.other s!"document with ID {docId} already exists")
  else
    let (pageNum, pages) ← writeVersion docId (.obj fields)
    onTree (BTree.insert docId pageNum)
    recordWrite name docId pageNum pages

-- The part of an update that `update_by_id` and `execute_update_by_id` have in common.
def updateDocument [SerdeJson] (name id : String) (updates : Json) : WorkM Unit := do
  let doc ← readVisible id
  let fields ← Proc.ofExcept (TxCollection.parseMap doc)
  match updates.asObject with
  | none => Proc.fail (.other "updates must be an object")
  | some updates =>
    let fields := TxCollection.applyUpdates id fields updates
    validateDocument name (.obj fields)
    let (pageNum, pages) ← writeVersion id (.obj fields)
    onTree (BTree.delete id)
    onTree (BTree.insert id pageNum)
    recordWrite name id pageNum pages

def setCollectionRoot (name : String) : WorkM Unit :=
  Proc.modifyLocal fun work =>
    { work with tx := work.tx.setCollectionRoot name work.btree.getRootPage }

def insert (name generatedId : String) (doc : Json) : DbM ℓ String := do
  match doc.asObject with
  | none => Proc.fail (.other "document must be an object")
  | some fields =>
    validateDocument name (.obj fields)
    let (docId, fields) ← Proc.ofExcept (docIdOf generatedId doc)
    inTransaction do
      openOrCreate name
      insertDocument name docId fields
      setCollectionRoot name
      commit
      pure docId

-- `find_by_id` and the calls that change one document, on the tree of the collection.
def onExisting (name : String) (body : WorkM α) : DbM ℓ α := inTransaction do
  let root ← rootOf name
  if root = 0 then Proc.fail notFound
  else
    openTree root
    body

def findById [SerdeJson] (name id : String) : DbM ℓ Json := onExisting name do
  let doc ← readVisible id
  Proc.ofExcept doc.parse

def updateById [SerdeJson] (name id : String) (updates : Json) : DbM ℓ Unit :=
  if !updates.isObject then Proc.fail (.other "updates must be an object")
  else onExisting name do
    updateDocument name id updates
    setCollectionRoot name
    commit

-- `execute_delete_by_id`
def deleteVersion (id : String) : WorkM Unit := do
  let pageNum ← onTree (BTree.search id)
  deleteDocument pageNum
  onTree (BTree.delete id)

def deleteById (name id : String) : DbM ℓ Unit := onExisting name do
  deleteVersion id
  setCollectionRoot name
  commit

-- A document that cannot be read or parsed is passed over.
def visit [SerdeJson] (tx : Transaction) (entry : LeafEntry) : BTree.TreeM (Option Json) := do
  match ← catching (readVersionedDocument entry.value tx.writes) with
  | .error _ => pure none
  | .ok doc => pure (if doc.isVisible tx.snapshotId then doc.parsed else none)

def findAllInTx [SerdeJson] : WorkM (List Json) := do
  let work ← Proc.getLocal
  onTree (BTree.iterate (visit work.tx))

def findAll [SerdeJson] (name : String) : DbM ℓ (List Json) := inTransaction do
  let root ← rootOf name
  if root = 0 then pure []
  else
    openTree root
    findAllInTx

def select (query : Query) (docs : List Json) : Except Error (List Json) :=
  match query with
  | .error message => .error (.other s!"failed to parse query: {message}")
  | .ok test => .ok (docs.filter fun doc => (doc.asObject.map test).getD false)

-- The query is parsed before the documents are read.
def checkQuery (query : Query) : DbM ℓ Unit := do
  let _ ← Proc.ofExcept (select query [])

def find [SerdeJson] (name : String) (query : Query) : DbM ℓ (List Json) := do
  checkQuery query
  let docs ← findAll name
  Proc.ofExcept (select query docs)

def findOne [SerdeJson] (name : String) (query : Query) : DbM ℓ (Option Json) := do
  let docs ← find name query
  pure docs.head?

def idOf (doc : Json) : Option String :=
  (doc.asObject.bind (·.get "_id")).bind Json.asStr

-- One call for each document that has an id; the first failure ends it.
def forDocs (f : String → DbM ℓ Unit) : List Json → DbM ℓ Nat
  | [] => pure 0
  | doc :: rest => match idOf doc with
    | some id => do
      f id
      let count ← forDocs f rest
      pure (count + 1)
    | none => forDocs f rest

def update [SerdeJson] (name : String) (query : Query) (updates : Json) : DbM ℓ Nat :=
  if !updates.isObject then Proc.fail (.other "updates must be an object")
  else do
    let docs ← find name query
    forDocs (fun id => updateById name id updates) docs

def updateOne [SerdeJson] (name : String) (query : Query) (updates : Json) : DbM ℓ Bool := do
  match (← findOne name query).bind idOf with
  | some id => do
    updateById name id updates
    pure true
  | none => pure false

def delete [SerdeJson] (name : String) (query : Query) : DbM ℓ Nat := do
  let docs ← find name query
  forDocs (deleteById name) docs

def deleteOne [SerdeJson] (name : String) (query : Query) : DbM ℓ Bool := do
  match (← findOne name query).bind idOf with
  | some id => do
    deleteById name id
    pure true
  | none => pure false

def upsertById [SerdeJson] (name id generatedId : String) (doc : Json) : DbM ℓ UpsertResult :=
  match doc.asObject with
  | none => Proc.fail (.other "document must be an object")
  | some fields => do
    let found ← catching (findById name id)
    if found.isOk then
      updateById name id doc
      pure (.updated id)
    else
      let _ ← insert name generatedId (.obj (Json.Map.insert "_id" (.str id) fields))
      pure (.inserted id)

-- `Err(Error::Other(msg)) if msg.contains("not found") => None`
def orMissing : Except Error (Option Json) → Except Error (Option Json)
  | .error (.other message) =>
    if "not found".toList <:+: message.toList then .ok none else .error (.other message)
  | result => result

def upsert [SerdeJson] (name : String) (query : Query) (generatedId : String) (doc : Json) :
    DbM ℓ UpsertResult :=
  if !doc.isObject then Proc.fail (.other "document must be an object")
  else do
    let found ← catching (findOne name query)
    let existing ← Proc.ofExcept (orMissing found)
    match existing.bind idOf with
    | some id => do
      updateById name id doc
      pure (.updated id)
    | none => do
      let id ← insert name generatedId doc
      pure (.inserted id)

section Bulk

-- `execute_insert`. Unlike `insert` it does not look at the schema.
def executeInsert (name generatedId : String) (doc : Json) : WorkM String := do
  let (docId, fields) ← Proc.ofExcept (docIdOf generatedId doc)
  insertDocument name docId fields
  pure docId

def findInTx [SerdeJson] (query : Query) : WorkM (List Json) := do
  checkQuery query
  let docs ← findAllInTx
  Proc.ofExcept (select query docs)

def executeUpdates [SerdeJson] (name : String) (query : Query) (updates : Json)
    (choose : List Json → List Json) : WorkM Nat :=
  if !updates.isObject then Proc.fail (.other "updates must be an object")
  else do
    let docs ← findInTx query
    forDocs (fun id => updateDocument name id updates) (choose docs)

def executeDeletes [SerdeJson] (query : Query) (choose : List Json → List Json) : WorkM Nat := do
  let docs ← findInTx query
  forDocs deleteVersion (choose docs)

-- The numbers of documents inserted, updated and deleted.
def executeOperation [SerdeJson] (name : String) : BulkOperation → WorkM (Nat × Nat × Nat)
  | .insert generatedId doc => do
    let _ ← executeInsert name generatedId doc
    pure (1, 0, 0)
  | .updateOne query updates => do
    let count ← executeUpdates name query updates (·.take 1)
    pure (0, count, 0)
  | .updateMany query updates => do
    let count ← executeUpdates name query updates id
    pure (0, count, 0)
  | .deleteOne query => do
    let count ← executeDeletes query (·.take 1)
    pure (0, 0, count)
  | .deleteMany query => do
    let count ← executeDeletes query id
    pure (0, 0, count)

def executeOperations [SerdeJson] (name : String) (ordered : Bool) :
    Nat → List BulkOperation → BulkWriteResult → WorkM BulkWriteResult
  | _, [], result => pure result
  | index, operation :: rest, result => do
    match ← catching (executeOperation name operation) with
    | .ok (inserted, updated, deleted) =>
      executeOperations name ordered (index + 1) rest { result with
        insertedCount := result.insertedCount + inserted
        updatedCount := result.updatedCount + updated
        deletedCount := result.deletedCount + deleted }
    | .error e =>
      let message := e.display
      if ordered then
        Proc.fail (.other s!"bulk write failed at operation {index}: {message}")
      else
        executeOperations name ordered (index + 1) rest { result with
          errors := result.errors ++ [⟨index, message⟩] }

-- The root of the tree is made known at once, before the commit.
def installRoot (name : String) : WorkM Unit := do
  let work ← Proc.getLocal
  updateMetadata (Commit.setRoot name work.btree.getRootPage)

def bulkWrite [SerdeJson] (name : String) (maxBulkOperations : Nat) (ordered : Bool)
    (operations : List BulkOperation) : DbM ℓ BulkWriteResult :=
  if operations.isEmpty then pure ⟨0, 0, 0, []⟩
  else if operations.length > maxBulkOperations then
    Proc.fail (.bulkOperationTooLarge operations.length maxBulkOperations)
  else inTransaction do
    openOrCreate name
    let result ← executeOperations name ordered 0 operations ⟨0, 0, 0, []⟩
    installRoot name
    commit
    pure result

def executeInserts (name : String) : List (String × Json) → WorkM (List String)
  | [] => pure []
  | (generatedId, doc) :: rest => do
    let id ← executeInsert name generatedId doc
    let ids ← executeInserts name rest
    pure (id :: ids)

-- Each document comes with the id that is generated when it has none.
def insertMany (name : String) (maxBulkOperations : Nat) (docs : List (String × Json)) :
    DbM ℓ (List String) :=
  if docs.isEmpty then pure []
  else if docs.length > maxBulkOperations then
    Proc.fail (.bulkOperationTooLarge docs.length maxBulkOperations)
  else inTransaction do
    openOrCreate name
    let ids ← executeInserts name docs
    installRoot name
    commit
    pure ids

end Bulk

end Collection

end JasonDb
