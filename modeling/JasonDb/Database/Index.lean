import JasonDb.Database.Open
import JasonDb.Database.Update
import JasonDb.TextIndex
import JasonDb.TxCollection

namespace JasonDb

open Lib

variable {ℓ : Type}

-- The end of a checkpoint. Frames that the buffered writer holds are not touched.
def WAL.truncate (w : WAL) : Except Error Unit × WAL :=
  if w.failing then (.error (.io "set_len failed"), w.tick)
  else
    let w := { w.tick with frames := [], synced := 0 }
    if w.failing then (.error (.io "sync failed"), w.tick) else (.ok (), w.tick)

-- `write_pages_direct` for the frames in the log.
def writeLoggedPages : DbM ℓ Unit :=
  Proc.atomicE fun db => match db.pager.writePagesDirect (latestPages db.wal.frames).toList with
    | .ok pager => (.ok (), { db with pager })
    | .error e => (.error e, db)

def truncateWal : DbM ℓ Unit :=
  Proc.atomicE fun db =>
    let (r, wal) := db.wal.truncate
    (r, { db with wal })

-- `WAL::checkpoint`
def checkpointWal : DbM ℓ Unit := do
  writeLoggedPages
  flush
  truncateWal

def checkpoint : DbM ℓ Unit := do
  if ← isReadOnly then Proc.fail (.other "cannot checkpoint in read-only mode")
  else checkpointWal

section Scan

-- The document of a leaf entry; one that cannot be read or parsed is passed over.
def readIndexed [SerdeJson] (entry : LeafEntry) : BTree.TreeM (Option Json.Map) := do
  match ← catching (readVersionedDocument entry.value ∅) with
  | .error _ => pure none
  | .ok doc => pure (TxCollection.parseMap doc).toOption

-- `scan_btree_node_for_compound_index` and `scan_btree_node_for_text_index`, which differ in
-- what they do with an entry. A leaf goes on to its right neighbour, also when it was reached
-- from its parent.
def scanNode (visit : LeafEntry → BTree.TreeM Unit) : Nat → PageNum → BTree.TreeM Unit
  | 0, _ => Proc.fail .diverged
  | fuel + 1, pageNum =>
    if pageNum = 0 then pure ()
    else do
      let page ← readPage pageNum
      let node ← Proc.ofExcept (deserializeNode pageNum page)
      match node.nodeType with
      | .leafNode => do
        Proc.forEach visit node.entries
        if node.nextLeaf ≠ 0 then scanNode visit fuel node.nextLeaf else pure ()
      | .internalNode => Proc.forEach (scanNode visit fuel) node.children

-- The tree of an index on the documents of the tree at `root`, with the page it starts at.
def buildIndex (visit : LeafEntry → BTree.TreeM Unit) (name : String) : DbM ℓ PageNum := do
  let tree ← BTree.new
  let metadata ← getMetadata
  let root := metadata.root name
  let fuel ← walkBound
  let (_, tree) ← Proc.within tree (if root ≠ 0 then scanNode visit fuel root else pure ())
  pure tree.getRootPage

def duplicateValue (fields : List String) : Error :=
  let text := ", ".intercalate (fields.map Json.debugString)
  .other s!"unique constraint violation on fields [{text}]: duplicate value found"

def indexEntry [SerdeJson] (fields : List String) (unique : Bool) (entry : LeafEntry) : BTree.TreeM Unit := do
  match ← readIndexed entry with
  | none => pure ()
  | some doc =>
    let key := serializeIndexKey (Json.extractFieldValues doc fields) entry.key
    let found ← if unique then do
        let r ← catching (BTree.search key)
        pure r.isOk
      else pure false
    if found then Proc.fail (duplicateValue fields) else BTree.insert key entry.value

def indexTextEntry [SerdeJson] (tools : TextTools) (fields : List String) (entry : LeafEntry) :
    BTree.TreeM Unit := do
  match ← readIndexed entry with
  | none => pure ()
  | some doc =>
    let values := TextIndex.fieldValues fields doc
    if values.isEmpty then pure () else TextIndex.indexDocument tools fields entry.key values

end Scan

section Calls

variable (isAlphabetic isAlphanumeric : Char → Bool)

-- The checks that the calls below begin with.
def checkCall (name action : String) : DbM ℓ Unit := do
  Proc.ofExcept (validateCollectionName isAlphabetic isAlphanumeric name)
  if ← isReadOnly then Proc.fail (.other s!"cannot {action}: database is in read-only mode")
  else pure ()

-- A change of the metadata in memory, then `save_metadata`.
def changeMetadata (f : Metadata → Metadata) : DbM ℓ Unit := do
  updateMetadataNoFlush f
  updateMetadata id
  flush

def hasIndex (m : Metadata) (name index : String) : Bool :=
  match m.collections.get? name with
  | some coll => decide (index ∈ coll.indexes)
  | none => false

def hasTextIndex (m : Metadata) (name index : String) : Bool :=
  match m.collections.get? name with
  | some coll => decide (index ∈ coll.textIndexes)
  | none => false

def withIndex (name index : String) (fields : List String) (unique : Bool) (root : PageNum)
    (m : Metadata) : Metadata :=
  m.modifyCollection name fun coll =>
    { coll with indexes := coll.indexes.insert index ⟨index, none, fields, root, unique⟩ }

def withTextIndex (name index : String) (fields : List String) (root : PageNum) (m : Metadata) :
    Metadata :=
  m.modifyCollection name fun coll =>
    { coll with textIndexes := coll.textIndexes.insert index ⟨index, fields, root⟩ }

def withoutIndex (name index : String) (m : Metadata) : Metadata :=
  match m.collections.get? name with
  | some coll => ⟨m.collections.insert name { coll with indexes := coll.indexes.erase index }⟩
  | none => m

def withoutSchema (name : String) (m : Metadata) : Metadata :=
  match m.collections.get? name with
  | some coll => ⟨m.collections.insert name { coll with schema := none }⟩
  | none => m

def createCompoundIndex [SerdeJson] (name index : String) (fields : List String) (unique : Bool) :
    DbM ℓ Unit := do
  Proc.ofExcept (validateCollectionName isAlphabetic isAlphanumeric name)
  if fields.isEmpty then Proc.fail (.other "index must have at least one field")
  else if ← isReadOnly then
    Proc.fail (.other "cannot create index: database is in read-only mode")
  else
    checkpointWal
    let metadata ← getMetadata
    if hasIndex metadata name index then
      Proc.fail (.other s!"index {index} already exists on collection {name}")
    else
      let root ← buildIndex (indexEntry fields unique) name
      changeMetadata (withIndex name index fields unique root)
      writeHeader

def createIndex [SerdeJson] (name index field : String) (unique : Bool) : DbM ℓ Unit :=
  createCompoundIndex isAlphabetic isAlphanumeric name index [field] unique

def createTextIndex [SerdeJson] (tools : TextTools) (name index : String) (fields : List String) :
    DbM ℓ Unit := do
  Proc.ofExcept (validateCollectionName isAlphabetic isAlphanumeric name)
  if fields.isEmpty then Proc.fail (.other "text index must have at least one field")
  else if ← isReadOnly then
    Proc.fail (.other "cannot create text index: database is in read-only mode")
  else
    checkpointWal
    let metadata ← getMetadata
    if hasTextIndex metadata name index then
      Proc.fail (.other s!"text index {index} already exists on collection {name}")
    else
      let root ← buildIndex (indexTextEntry tools fields) name
      changeMetadata (withTextIndex name index fields root)
      writeHeader

def dropIndex (name index : String) : DbM ℓ Unit := do
  checkCall isAlphabetic isAlphanumeric name "drop index"
  let metadata ← getMetadata
  match metadata.collections.get? name with
  | none => Proc.fail (.other s!"collection {name} does not exist")
  | some coll =>
    if index ∉ coll.indexes then
      Proc.fail (.other s!"index {index} does not exist on collection {name}")
    else
      changeMetadata (withoutIndex name index)
      writeHeader

def removeSchema (name : String) : DbM ℓ Unit := do
  checkCall isAlphabetic isAlphanumeric name "remove schema"
  changeMetadata (withoutSchema name)

end Calls

end JasonDb
