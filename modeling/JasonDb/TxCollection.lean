import JasonDb.Transaction

namespace JasonDb

open Lib

namespace Json

def extractFieldValue (doc : Map) (field : String) : Json := (obj doc).valueAt field

def extractFieldValues (doc : Map) (fields : List String) : List Json :=
  fields.map (extractFieldValue doc)

end Json

-- The values of an index key, joined as `serialize_index_key` and
-- `serialize_compound_index_key` join them: one value and several are written alike.
def indexKeyStart (values : List Json) : String := "|".intercalate (values.map Json.render) ++ "|"

def serializeIndexKey (values : List Json) (docId : String) : String := indexKeyStart values ++ docId

-- The source compares the fields of an index by number: with one field the text names the
-- value, else the list of values.
def uniqueViolation (index : String) (values : List Json) : Error :=
  match values with
  | [value] =>
    let text := value.debug
    .other s!"unique constraint violation on index {index}: value {text} already exists"
  | values =>
    let text := Json.debugItems values
    .other s!"unique constraint violation on index {index}: combination [{text}] already exists"

structure TxCollection where
  tx : Transaction
  name : String
  btree : TxBTree
  indexes : HashMap String TxBTree
  indexMeta : HashMap String IndexMeta

namespace TxCollection

abbrev M := DbM TxCollection

section Open

variable {ℓ : Type}

def openTree (root : PageNum) (txWrites : HashMap PageNum Page) : DbM ℓ TxBTree :=
  if root = 0 then TxBTree.createEmpty txWrites else pure (TxBTree.new root txWrites)

def openIndexes : List (String × IndexMeta) → TxCollection → DbM ℓ TxCollection
  | [], c => pure c
  | (name, index) :: rest, c => do
    let tree ← openTree index.btreeRoot c.tx.writes
    openIndexes rest { c with
      tx := { c.tx with writes := tree.txWrites }
      indexes := c.indexes.insert name tree
      indexMeta := c.indexMeta.insert name index }

def new (tx : Transaction) (name : String) : DbM ℓ TxCollection := do
  let metadata ← getMetadata
  let btree ← openTree ((tx.getSnapshotRoot name).getD 0) tx.writes
  let c : TxCollection := ⟨{ tx with writes := btree.txWrites }, name, btree, ∅, ∅⟩
  match metadata.collections.get? name with
  | some coll => openIndexes coll.indexes.toList c
  | none => pure c

end Open

-- The handles share the writes of the transaction.
def tree (c : TxCollection) : TxBTree := { c.btree with txWrites := c.tx.writes }

def putTree (t : TxBTree) (c : TxCollection) : TxCollection :=
  { c with btree := t, tx := { c.tx with writes := t.txWrites } }

def index (name : String) (c : TxCollection) : TxBTree :=
  { (c.indexes.get? name).getD (TxBTree.new 0 ∅) with txWrites := c.tx.writes }

def putIndex (name : String) (t : TxBTree) (c : TxCollection) : TxCollection :=
  { c with indexes := c.indexes.insert name t, tx := { c.tx with writes := t.txWrites } }

section Operations

variable {α : Type}

def onTree (m : TxBTree.TreeM α) : M α := Proc.zoom tree putTree m

def onIndex (name : String) (m : TxBTree.TreeM α) : M α := Proc.zoom (index name) (putIndex name) m

def modifyTx (f : Transaction → Transaction) : M Unit :=
  Proc.modifyLocal fun c => { c with tx := f c.tx }

def invalidFormat (c : TxCollection) (reason : String) : Error :=
  .invalidDocumentFormat reason (some c.name)

-- The id of a new document: its own, or the generated one, which is then added.
def docIdOf (generatedId : String) (doc : Json.Map) : Option (String × Json.Map) :=
  match doc.get "_id" with
  | some id => id.asStr.map fun id => (id, doc)
  | none => some (generatedId, Json.Map.insert "_id" (.str generatedId) doc)

def insertIndexEntry (docId : String) (doc : Json.Map) (pageNum : PageNum) (name : String) :
    M Unit := do
  let c ← Proc.getLocal
  match c.indexMeta.get? name with
  | none => Proc.fail (.panic "no entry found for key")
  | some indexMeta =>
    let values := Json.extractFieldValues doc indexMeta.getFields
    let taken ← if indexMeta.unique then onIndex name (TxBTree.hasPrefix (indexKeyStart values))
      else pure false
    if taken then Proc.fail (uniqueViolation name values)
    else onIndex name (TxBTree.insert (serializeIndexKey values docId) pageNum)

def writePages (pages : HashMap PageNum Page) : M Unit :=
  modifyTx fun tx => { tx with
    writes := pages.toList.foldl (fun writes entry => writes.insert entry.1 entry.2) tx.writes }

-- `write_document` and `set_collection_root`
def recordWrite (id : String) (page : Option PageNum) : M Unit := do
  let c ← Proc.getLocal
  modifyTx fun tx => (tx.writeDocument c.name id page).setCollectionRoot c.name c.btree.getCurrentRoot

def insertDocument (docId : String) (doc : Json.Map) : M String := do
  let c ← Proc.getLocal
  let found ← catching (onTree (TxBTree.search docId))
  modifyTx fun tx => tx.trackDocExistedInSnapshot c.name docId found.isOk
  if found.isOk then Proc.fail (.documentAlreadyExists c.name docId)
  else
    let (pageNum, pages) ← writeVersionedDocument docId (.obj doc) c.tx.mvccTxId 0 ∅
    onTree (TxBTree.insert docId pageNum)
    Proc.forEach (insertIndexEntry docId doc pageNum) c.indexes.keys
    writePages pages
    recordWrite docId (some pageNum)
    pure docId

-- `insert`. The id of a document that comes without one is generated from the time.
def insert (generatedId : String) (doc : Json) : M String := do
  let c ← Proc.getLocal
  match doc.asObject with
  | none => Proc.fail (c.invalidFormat "document must be an object")
  | some doc =>
    if !c.tx.isActive then Proc.fail .txNotActive
    else match docIdOf generatedId doc with
      | none => Proc.fail (c.invalidFormat "_id must be a string")
      | some (docId, doc) => insertDocument docId doc

def isOwnWrite (tx : Transaction) (doc : VersionedDocument) : Bool := doc.xmin = tx.mvccTxId

-- The version the transaction sees, with the page it is in.
def readVisible (id : String) : M (PageNum × VersionedDocument) := do
  let pageNum ← onTree (TxBTree.search id)
  let c ← Proc.getLocal
  let doc ← readVersionedDocument pageNum c.tx.writes
  if !isOwnWrite c.tx doc && !doc.isVisible c.tx.snapshotId then
    Proc.fail (.documentNotFound c.name id)
  else pure (pageNum, doc)

def findById [SerdeJson] (id : String) : M Json := do
  let (_, doc) ← readVisible id
  let c ← Proc.getLocal
  if isOwnWrite c.tx doc then pure ()
  else
    modifyTx fun tx => tx.trackDocExistedInSnapshot c.name id true
    modifyTx fun tx => tx.trackDocOriginalXmin c.name id doc.xmin
  Proc.ofExcept doc.parse

-- The version that an update or a delete replaces, unless the transaction wrote it itself.
def keepOldVersion (id : String) (pageNum : PageNum) (doc : VersionedDocument) : M Unit := do
  let c ← Proc.getLocal
  if isOwnWrite c.tx doc then pure ()
  else modifyTx fun tx => tx.addOldVersion c.name id ⟨id, doc.xmin, doc.xmax, doc.data, pageNum⟩

def trackUpdated (id : String) (doc : VersionedDocument) : M Unit := do
  let c ← Proc.getLocal
  modifyTx fun tx => tx.trackDocExistedInSnapshot c.name id true
  if isOwnWrite c.tx doc then pure ()
  else modifyTx fun tx => tx.trackDocOriginalXmin c.name id doc.xmin

-- `serde_json::from_slice` into a map.
def parseMap [SerdeJson] (doc : VersionedDocument) : Except Error Json.Map :=
  match doc.parse with
  | .error e => .error e
  | .ok data => match data.asObject with
    | some fields => .ok fields
    | none => .error (.other "invalid type: expected a map")

def applyUpdates (id : String) (doc updates : Json.Map) : Json.Map :=
  Json.Map.insert "_id" (.str id)
    (updates.foldl (fun doc update => Json.Map.insert update.1 update.2 doc) doc)

def updateById [SerdeJson] (id : String) (updates : Json) : M Unit := do
  let c ← Proc.getLocal
  match updates.asObject with
  | none => Proc.fail (c.invalidFormat "updates must be an object")
  | some updates =>
    if !c.tx.isActive then Proc.fail .txNotActive
    else
      let (oldPageNum, doc) ← readVisible id
      trackUpdated id doc
      keepOldVersion id oldPageNum doc
      let fields ← Proc.ofExcept (parseMap doc)
      let (pageNum, pages) ← writeVersionedDocument id (.obj (applyUpdates id fields updates))
        c.tx.mvccTxId 0 ∅
      onTree (TxBTree.update id pageNum)
      writePages pages
      recordWrite id (some pageNum)

def deleteById (id : String) : M Unit := do
  let c ← Proc.getLocal
  if !c.tx.isActive then Proc.fail .txNotActive
  else
    let (pageNum, doc) ← readVisible id
    keepOldVersion id pageNum doc
    onTree (TxBTree.delete id)
    recordWrite id none

end Operations

end TxCollection

end JasonDb
