import JasonDb.Json
import JasonDb.Lib.Bytes
import JasonDb.Lib.Disk
import JasonDb.Lib.Prog

namespace JasonDb

open Lib

def PAGE_SIZE : Nat := 4096

-- A page of one byte over and over.
def filledPage (byte : UInt8) : Bytes := List.replicate PAGE_SIZE byte

def zeroPage : Bytes := filledPage 0

theorem length_filledPage (byte : UInt8) : (filledPage byte).length = PAGE_SIZE :=
  List.length_replicate

def BTREE_ORDER : Nat := 50

def MAX_OVERFLOW_CHAIN_LENGTH : Nat := 250000

abbrev PageNum := Nat

abbrev TransactionID := Nat

-- Errors of the source, and two outcomes the source has no value for: a panic
-- and a loop that never ends.
inductive Error where
  | txNotActive
  | txAlreadyDone
  | txConflict
  | collectionNameEmpty
  | collectionNameTooLong
  | collectionNameInvalidStart
  | collectionNameInvalidChar
  | collectionNameReserved
  | collectionAlreadyExists (name : String)
  | collectionDoesNotExist (name : String)
  | documentNotFound (collection id : String)
  | documentAlreadyExists (collection id : String)
  | bulkOperationTooLarge (count limit : Nat)
  | invalidDocument
  | invalidDocumentFormat (reason : String) (collection : Option String)
  | schemaValidation (message : String)
  | corruption (component : String) (pageNum : PageNum) (details : String)
  | dataCorruption (details : String)
  | invalidPageSize
  | invalidMagic
  | invalidVersion
  | walCorrupted
  | notFound
  | io (message : String)
  | other (message : String)
  | panic (message : String)
  | diverged
deriving DecidableEq

def Error.isPanic : Error → Bool
  | .panic _ => true
  | _ => false

inductive NodeType where
  | internalNode
  | leafNode
deriving DecidableEq

structure LeafEntry where
  key : String
  value : PageNum
deriving DecidableEq

structure BTreeNode where
  pageNum : PageNum
  nodeType : NodeType
  numKeys : Nat
  parent : PageNum
  entries : List LeafEntry
  nextLeaf : PageNum
  keys : List String
  children : List PageNum
deriving DecidableEq

namespace BTreeNode

def newLeaf (pageNum : PageNum) : BTreeNode := ⟨pageNum, .leafNode, 0, 0, [], 0, [], []⟩

def newInternal (pageNum : PageNum) : BTreeNode := ⟨pageNum, .internalNode, 0, 0, [], 0, [], []⟩

end BTreeNode

inductive ValueType where
  | string
  | number
  | integer
  | boolean
  | object
  | array
  | null
deriving DecidableEq

-- `validation::Schema`. Bounds on numbers are floats.
inductive Schema where
  | mk (valueType : Option ValueType) (required : Option (List String))
      (properties : Option (List (String × Schema))) (items : Option Schema)
      (minimum maximum : Option Decimal) (minLength maxLength : Option Nat)
      (enumValues : Option (List Json))

structure IndexMeta where
  name : String
  field : Option String
  fields : List String
  btreeRoot : PageNum
  unique : Bool
deriving DecidableEq

def IndexMeta.getFields (m : IndexMeta) : List String :=
  if m.fields ≠ [] then m.fields
  else match m.field with
    | some field => [field]
    | none => []

structure TextIndexMeta where
  name : String
  fields : List String
  btreeRoot : PageNum
deriving DecidableEq

structure CollectionMeta where
  btreeRoot : PageNum
  indexes : HashMap String IndexMeta
  textIndexes : HashMap String TextIndexMeta
  schema : Option Schema

structure Metadata where
  collections : HashMap String CollectionMeta

namespace Metadata

def new : Metadata := ⟨∅⟩

def emptyCollection : CollectionMeta := ⟨0, ∅, ∅, none⟩

-- The closure argument of `update_metadata` applied to one collection, which
-- `get_collection` creates when it is missing.
def modifyCollection (m : Metadata) (name : String) (f : CollectionMeta → CollectionMeta) :
    Metadata :=
  ⟨m.collections.insert name (f ((m.collections.get? name).getD emptyCollection))⟩

def root (m : Metadata) (name : String) : PageNum :=
  ((m.collections.get? name).map CollectionMeta.btreeRoot).getD 0

end Metadata

-- The first page of a stored document version. `data` is the whole document
-- and `overflow` the page its next part is in, 0 when there is none.
structure DocPage where
  xmin : TransactionID
  xmax : TransactionID
  id : String
  data : Json
  overflow : PageNum
deriving DecidableEq

-- Part `index` of the text of `data`, which did not fit in the pages before it.
structure OverflowPage where
  data : Json
  index : Nat
  next : PageNum
deriving DecidableEq

structure Header where
  numPages : Nat
  metadataPage : PageNum
  nextTxId : TransactionID
  freeList : List PageNum
deriving DecidableEq

-- Contents of a page. Pages are read by the codec that wrote them, so they are
-- kept decoded; `zero` is a page that was never written.
inductive Page where
  | zero
  | node (node : BTreeNode)
  | doc (page : DocPage)
  | overflow (page : OverflowPage)
  | metadata (metadata : Metadata)
  | header (header : Header)
  -- the documents with a term of a text index: how often it stands there among how many terms
  | postings (entries : HashMap String (Nat × Nat))

end JasonDb
