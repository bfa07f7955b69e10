import JasonDb.BTree
import JasonDb.Codec.Decoded
import JasonDb.Lib.DepthFirst
import JasonDb.TxBTree.Iterator

namespace JasonDb.Codec

open Lib

section Model

variable (read : PageNum → Except Error BTreeNode)

-- `if let Ok(node) = result`. A panic is not caught.
def ifRead {α : Type} (f : BTreeNode → Except Error (Option α)) :
    Except Error BTreeNode → Except Error (Option α)
  | .ok node => f node
  | .error (.panic message) => .error (.panic message)
  | .error _ => .ok none

-- `read_node(page).ok()`
def tryRead (pageNum : PageNum) : Except Error (Option BTreeNode) :=
  ifRead (fun node => .ok (some node)) (read pageNum)

-- `while node.node_type == InternalNode`, to the child that is picked, from what reading the node
-- gave.
def descend (pick : BTreeNode → Except Error PageNum) :
    Nat → Except Error BTreeNode → Except Error BTreeNode
  | 0, _ => .error .diverged
  | fuel + 1, result => do
    let node ← result
    match node.nodeType with
    | .leafNode => .ok node
    | .internalNode => do
      let childPage ← pick node
      descend pick fuel (read childPage)

-- The search of both trees, which differ in the child they pick and in what they answer for a
-- key that is missing.
def searchFrom (rootPage : PageNum) (pick : BTreeNode → Except Error PageNum) (key : String)
    (missing : Error) (fuel : Nat) : Except Error PageNum := do
  let leaf ← descend read pick fuel (read rootPage)
  match leaf.entries.find? (·.key = key) with
  | some entry => .ok entry.value
  | none => .error missing

def pickFirst (node : BTreeNode) : Except Error PageNum :=
  match node.children with
  | [] => .error (.other "internal node has no children")
  | first :: _ => .ok first

def iteratorFrom (rootPage : PageNum) (fuel : Nat) : Except Error TxBTree.Cursor := do
  let leaf ← descend read pickFirst fuel (read rootPage)
  .ok ⟨some leaf, 0, false⟩

-- A child that cannot be read is skipped. The two functions take what reading a node gave.
def isPageInTree (target : PageNum) : Nat → Except Error BTreeNode → Except Error (Option Unit)
  | 0, _ => .error .diverged
  | fuel + 1, result => ifRead (fun node =>
    if node.pageNum = target then .ok (some ())
    else match node.nodeType with
      | .leafNode => .ok none
      | .internalNode => firstFound (isPageInTree target fuel) (node.children.map read)) result

def findNextLeafByKey (key : String) : Nat → Except Error BTreeNode → Except Error (Option PageNum)
  | 0, _ => .error .diverged
  | fuel + 1, result => ifRead (fun node => match node.nodeType with
    | .leafNode => match node.entries with
      | first :: _ => .ok (if key < first.key then some node.pageNum else none)
      | [] => .ok none
    | .internalNode => match node.keys.findIdx? (key < ·) with
      | some i => firstFound (findNextLeafByKey key fuel) ((node.children.drop i).map read)
      | none => match node.children.getLast? with
        | some last => findNextLeafByKey key fuel (read last)
        | none => .error (.panic "called `Option::unwrap()` on a `None` value")) result

def nextLeafByKey (fuel : Nat) (root current : BTreeNode) : Except Error (Option BTreeNode) :=
  match current.entries.getLast? with
  | none => .ok none
  | some last => do
    match ← findNextLeafByKey read last.key fuel (.ok root) with
    | none => .ok none
    | some pageNum => tryRead read pageNum

-- The leaf the link of a leaf leads to.
def linkedLeaf (current : BTreeNode) : Except Error (Option BTreeNode) :=
  if current.nextLeaf ≠ 0 then tryRead read current.nextLeaf else .ok none

def nextLeaf (rootPage : PageNum) (fuel : Nat) (current : BTreeNode) : Except Error (Option BTreeNode) := do
  let linked ← linkedLeaf read current
  match ← tryRead read rootPage with
  | none => .ok none
  | some root => match linked with
    | some leaf => do
      match ← isPageInTree read leaf.pageNum fuel (.ok root) with
      | some () => .ok (some leaf)
      | none => nextLeafByKey read fuel root current
    | none => nextLeafByKey read fuel root current

def nextFrom (rootPage : PageNum) (it : TxBTree.Cursor) (fuel : Nat) : Except Error (Bool × TxBTree.Cursor) :=
  match it.currentLeaf with
  | none => .ok (false, it)
  | some current =>
    if !it.started then .ok (!current.entries.isEmpty, { it with started := true })
    else if it.index + 1 < current.entries.length then .ok (true, { it with index := it.index + 1 })
    else do
      match ← nextLeaf read rootPage fuel current with
      | none => .ok (false, { it with index := it.index + 1 })
      | some leaf => .ok (!leaf.entries.isEmpty, ⟨some leaf, 0, true⟩)

end Model

section Handles

-- `BTree::read_node` and `BTree::search` on pages of bytes.
def btreeReadNode (s : PageStore) (t : BTree) (pageNum : PageNum) : Except Error BTreeNode := do
  let data ← s.readPage (t.actualPage pageNum)
  deserializeNode (t.actualPage pageNum) data

def btreeSearch (s : PageStore) (t : BTree) (key : String) : Nat → Except Error PageNum :=
  searchFrom (btreeReadNode s t) t.getRootPage (BTree.findChild · key) key .notFound

-- The handle of a transaction, with its writes as bytes.
structure TxBTree where
  snapshotRoot : PageNum
  modifiedRoot : PageNum
  cowPages : HashMap PageNum PageNum
  txWrites : HashMap PageNum Bytes

namespace TxBTree

variable (s : PageStore) (t : TxBTree)

def getCurrentRoot : PageNum := if t.modifiedRoot ≠ 0 then t.modifiedRoot else t.snapshotRoot

def actualPage (pageNum : PageNum) : PageNum := (t.cowPages.get? pageNum).getD pageNum

def readNode (pageNum : PageNum) : Except Error BTreeNode := do
  let data ← match t.txWrites.get? (t.actualPage pageNum) with
    | some data => .ok data
    | none => s.readPage (t.actualPage pageNum)
  deserializeNode (t.actualPage pageNum) data

def search (key : String) : Nat → Except Error PageNum :=
  searchFrom (t.readNode s) t.getCurrentRoot (JasonDb.TxBTree.findChild · key) key
    (JasonDb.TxBTree.notFound key)

def iterator : Nat → Except Error JasonDb.TxBTree.Cursor := iteratorFrom (t.readNode s) t.getCurrentRoot

def next (it : JasonDb.TxBTree.Cursor) : Nat → Except Error (Bool × JasonDb.TxBTree.Cursor) :=
  nextFrom (t.readNode s) t.getCurrentRoot it

end TxBTree

end Handles

end JasonDb.Codec
