import JasonDb.Document
import JasonDb.Mvcc
import JasonDb.TxBTree

namespace JasonDb

open Lib

inductive TxState where
  | active
  | committed
  | rolledBack
deriving DecidableEq

-- In `docWrites`, `none` is the source's `PageNum::MAX`.
structure Transaction where
  txId : Nat
  mvccTxId : TransactionID
  snapshotId : TransactionID
  state : TxState
  writes : HashMap PageNum Page
  docWrites : HashMap String (HashMap String (Option PageNum))
  snapshotRoots : HashMap String PageNum
  updatedRoots : HashMap String PageNum
  docExistedInSnapshot : HashMap String (HashMap String Bool)
  docOriginalXmin : HashMap String (HashMap String TransactionID)
  modifiedCollections : HashSet String
  oldVersions : HashMap String (HashMap String DocumentVersion)

-- `map.entry(a).or_insert_with(HashMap::new).insert(b, value)`
def insertNested {α : Type} (map : HashMap String (HashMap String α)) (a b : String) (value : α) :
    HashMap String (HashMap String α) :=
  map.insert a (((map.get? a).getD ∅).insert b value)

def getNested {α : Type} (map : HashMap String (HashMap String α)) (a b : String) : Option α :=
  (map.get? a).bind (·.get? b)

-- `map.entry(a).or_insert_with(HashMap::new).entry(b).or_insert(value)`
def insertNestedIfAbsent {α : Type} (map : HashMap String (HashMap String α)) (a b : String)
    (value : α) : HashMap String (HashMap String α) :=
  match getNested map a b with
  | some _ => map
  | none => insertNested map a b value

namespace Transaction

variable {ℓ : Type}

def isActive (tx : Transaction) : Bool := tx.state = .active

def getSnapshotRoot (tx : Transaction) (collection : String) : Option PageNum :=
  (tx.updatedRoots.get? collection).or (tx.snapshotRoots.get? collection)

def trackDocExistedInSnapshot (tx : Transaction) (collection id : String) (existed : Bool) :
    Transaction :=
  { tx with docExistedInSnapshot :=
      insertNestedIfAbsent tx.docExistedInSnapshot collection id existed }

def trackDocOriginalXmin (tx : Transaction) (collection id : String) (xmin : TransactionID) :
    Transaction :=
  { tx with docOriginalXmin := insertNestedIfAbsent tx.docOriginalXmin collection id xmin }

def addOldVersion (tx : Transaction) (collection id : String) (version : DocumentVersion) :
    Transaction :=
  { tx with oldVersions := insertNested tx.oldVersions collection id version }

def writeDocument (tx : Transaction) (collection id : String) (page : Option PageNum) :
    Transaction :=
  { tx with docWrites := insertNested tx.docWrites collection id page }

def setCollectionRoot (tx : Transaction) (collection : String) (root : PageNum) : Transaction :=
  { tx with
    updatedRoots := tx.updatedRoots.insert collection root
    modifiedCollections := tx.modifiedCollections.insert collection () }

-- `Transaction::new`: the roots were read before, the ids are taken now.
def new (collectionRoots : HashMap String PageNum) : DbM ℓ Transaction := do
  let txId ← Proc.atomic fun db => (db.txIdCounter, { db with txIdCounter := db.txIdCounter + 1 })
  let mvccTxId ← TransactionManager.beginTransaction
  let snapshotId ← TransactionManager.getLatestCommittedTxId
  pure ⟨txId, mvccTxId, snapshotId, .active, ∅, ∅, collectionRoots, collectionRoots, ∅, ∅, ∅, ∅⟩

-- `prepare_write_request`: a copy of all that the commit needs.
def prepareWriteRequest (tx : Transaction) : PendingWrite :=
  ⟨tx.writes, tx.docWrites, tx.snapshotRoots, tx.updatedRoots, tx.oldVersions,
    tx.modifiedCollections, tx.docExistedInSnapshot, tx.docOriginalXmin, tx.txId, tx.snapshotId,
    tx.mvccTxId⟩

end Transaction

-- The root of every collection.
def Metadata.roots (m : Metadata) : HashMap String PageNum :=
  m.collections.toList.foldl (fun roots entry => roots.insert entry.1 entry.2.btreeRoot) ∅

-- `Database::begin`
def begin {ℓ : Type} : DbM ℓ Transaction := do
  let metadata ← getMetadata
  Transaction.new metadata.roots

end JasonDb
