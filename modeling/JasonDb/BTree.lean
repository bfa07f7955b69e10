import JasonDb.TxBTree

namespace JasonDb

open Lib

-- `BTree`: the handle that writes nodes in place, unless a transaction of its own is on.
structure BTree where
  rootPage : PageNum
  txActive : Bool
  cowPages : HashMap PageNum PageNum
  newPages : HashMap PageNum Bool
  modifiedRoot : PageNum

namespace BTree

abbrev TreeM := DbM BTree

variable {ℓ α : Type}

def «open» (rootPage : PageNum) : BTree := ⟨rootPage, false, ∅, ∅, 0⟩

def getRootPage (t : BTree) : PageNum :=
  if t.modifiedRoot ≠ 0 then t.modifiedRoot else t.rootPage

def actualPage (t : BTree) (pageNum : PageNum) : PageNum :=
  if t.txActive then (t.cowPages.get? pageNum).getD pageNum else pageNum

def readNode (pageNum : PageNum) : TreeM BTreeNode := do
  let t ← Proc.getLocal
  let actual := t.actualPage pageNum
  let page ← readPage actual
  Proc.ofExcept (deserializeNode actual page)

def writeTarget (pageNum : PageNum) : TreeM PageNum := do
  let t ← Proc.getLocal
  if !t.txActive then pure pageNum
  else if pageNum ∈ t.newPages then pure pageNum
  else match t.cowPages.get? pageNum with
    | some existing => pure existing
    | none =>
      let newPage ← allocPage
      Proc.modifyLocal fun t => { t with
        cowPages := t.cowPages.insert pageNum newPage
        newPages := t.newPages.insert newPage true
        modifiedRoot := if pageNum = t.getRootPage then newPage else t.modifiedRoot }
      pure newPage

def writeNode (node : BTreeNode) : TreeM Unit := do
  let pageNum ← writeTarget node.pageNum
  writePageTransfer pageNum (.node { node with pageNum })

def new : DbM ℓ BTree := do
  let rootPage ← allocPage
  let (_, t) ← Proc.within (BTree.open rootPage) (writeNode (.newLeaf rootPage))
  pure t

def markNew (pageNum : PageNum) : TreeM Unit :=
  Proc.modifyLocal fun t =>
    if t.txActive then { t with newPages := t.newPages.insert pageNum true } else t

def corrupt (node : BTreeNode) (details : String) : Error :=
  .corruption "btree" node.pageNum details

def findChild (node : BTreeNode) (key : String) : Except Error PageNum :=
  if node.children.isEmpty then .error (corrupt node "internal node has no children")
  else
    let index := (node.keys.findIdx? (key < ·)).getD node.keys.length
    match node.children[index]? with
    | some child => .ok child
    | none =>
      let count := node.children.length
      .error (corrupt node s!"child index {index} out of range (have {count} children)")

-- The path is kept innermost page first.
def findLeaf : Nat → BTreeNode → String → List PageNum → TreeM (BTreeNode × List PageNum)
  | 0, _, _, _ => Proc.fail .diverged
  | fuel + 1, node, key, path => match node.nodeType with
    | .leafNode => pure (node, path)
    | .internalNode => do
      let childPage ← Proc.ofExcept (findChild node key)
      let child ← readNode childPage
      findLeaf fuel child key (childPage :: path)

-- The leaf that `key` belongs to, with the path to it.
def descend (key : String) : TreeM (BTreeNode × List PageNum) := do
  let t ← Proc.getLocal
  let fuel ← walkBound
  let root ← readNode t.getRootPage
  findLeaf fuel root key [t.getRootPage]

def search (key : String) : TreeM PageNum := do
  let (leaf, _) ← descend key
  match leaf.entries.find? (·.key = key) with
  | some entry => pure entry.value
  | none => Proc.fail .notFound

def insertIntoLeaf (leaf : BTreeNode) (key : String) (value : PageNum) : BTreeNode :=
  if leaf.entries.any (·.key = key) then
    { leaf with entries := TxBTree.setEntry key value leaf.entries }
  else
    let pos := (leaf.entries.findIdx? (key < ·.key)).getD leaf.entries.length
    let entries := leaf.entries.insertIdx pos ⟨key, value⟩
    { leaf with entries, numKeys := entries.length }

def createNewRoot (left right : PageNum) (key : String) : TreeM Unit := do
  let newRootPage ← allocPage
  markNew newRootPage
  writeNode { BTreeNode.newInternal newRootPage with
    keys := [key], children := [left, right], numKeys := 1 }
  Proc.modifyLocal fun t =>
    if t.txActive then { t with modifiedRoot := newRootPage } else { t with rootPage := newRootPage }

-- The parent with the pointer to the old place of a child redirected.
def redirect (parent : BTreeNode) (oldPage newPage : PageNum) : BTreeNode :=
  if oldPage ≠ newPage then
    { parent with children := TxBTree.replaceChild oldPage newPage parent.children }
  else parent

def splitInternal (node : BTreeNode) (path : List PageNum)
    (insertIntoParent : BTreeNode → String → PageNum → TreeM Unit) : TreeM Unit := do
  let mid := node.keys.length / 2
  let newNodePage ← allocPage
  markNew newNodePage
  match node.keys[mid]? with
  | none => Proc.fail (.panic "index out of bounds")
  | some promoteKey =>
    let newKeys := node.keys.drop (mid + 1)
    let newNode := { BTreeNode.newInternal newNodePage with
      keys := newKeys, children := node.children.drop (mid + 1), numKeys := newKeys.length }
    let node := { node with
      keys := node.keys.take mid, children := node.children.take (mid + 1), numKeys := mid }
    writeNode node
    writeNode newNode
    match path with
    | oldNodePage :: parentPage :: _ =>
      let parent ← readNode parentPage
      insertIntoParent (redirect parent oldNodePage node.pageNum) promoteKey newNodePage
    | _ => createNewRoot node.pageNum newNodePage promoteKey

def insertIntoParent : List PageNum → BTreeNode → String → PageNum → TreeM Unit
  | [], _, _, _ => Proc.fail (.panic "attempt to subtract with overflow")
  | page :: up, parent, key, rightChild =>
    if TxBTree.outOfPlace parent key then Proc.fail (.panic "insertion index should be <= len")
    else
      let parent := TxBTree.insertChild parent key rightChild
      if parent.keys.length > BTREE_ORDER then
        splitInternal parent (page :: up) (insertIntoParent up)
      else writeNode parent

def splitLeaf (leaf : BTreeNode) (path : List PageNum) : TreeM Unit := do
  let mid := leaf.entries.length / 2
  let newLeafPage ← allocPage
  markNew newLeafPage
  let rightEntries := leaf.entries.drop mid
  let newLeaf := { BTreeNode.newLeaf newLeafPage with
    entries := rightEntries, numKeys := rightEntries.length, nextLeaf := leaf.nextLeaf }
  let leaf := { leaf with entries := leaf.entries.take mid, numKeys := mid, nextLeaf := newLeafPage }
  writeNode leaf
  writeNode newLeaf
  match rightEntries with
  | [] => Proc.fail (.panic "index out of bounds")
  | first :: _ =>
    match path with
    | oldLeafPage :: parentPage :: up =>
      let parent ← readNode parentPage
      insertIntoParent (parentPage :: up) (redirect parent oldLeafPage leaf.pageNum) first.key
        newLeafPage
    | _ => createNewRoot leaf.pageNum newLeafPage first.key

def updatePathAfterModification : List PageNum → TreeM Unit
  | childPage :: parentPage :: rest => do
    let parent ← readNode parentPage
    let t ← Proc.getLocal
    match t.cowPages.get? childPage with
    | some newChild =>
      if childPage ∈ parent.children then
        writeNode { parent with
          children := TxBTree.replaceChild childPage newChild parent.children }
    | none => pure ()
    updatePathAfterModification (parentPage :: rest)
  | _ => pure ()

def insert (key : String) (value : PageNum) : TreeM Unit := do
  let (leaf, path) ← descend key
  let leaf := insertIntoLeaf leaf key value
  if leaf.entries.length > BTREE_ORDER then
    splitLeaf leaf path
  else
    writeNode leaf
    updatePathAfterModification path

-- An entry goes out of its leaf; leaves are not merged.
def delete (key : String) : TreeM Unit := do
  let (leaf, _) ← descend key
  if leaf.entries.any (·.key = key) then
    let entries := leaf.entries.eraseP (·.key = key)
    writeNode { leaf with entries, numKeys := entries.length }
  else Proc.fail .notFound

def firstLeaf : Nat → BTreeNode → TreeM BTreeNode
  | 0, _ => Proc.fail .diverged
  | fuel + 1, node => match node.nodeType with
    | .leafNode => pure node
    | .internalNode => match node.children with
      | [] => Proc.fail (.other "internal node has no children")
      | first :: _ => do
        let child ← readNode first
        firstLeaf fuel child

def visitEntries (visit : LeafEntry → TreeM (Option α)) : List LeafEntry → TreeM (List α)
  | [] => pure []
  | entry :: rest => do
    let found ← visit entry
    let others ← visitEntries visit rest
    pure (found.toList ++ others)

-- `while iter.next() { .. }` from `leaf` on. An empty leaf ends the iteration, and so does a
-- link that cannot be followed.
def visitLeaves (visit : LeafEntry → TreeM (Option α)) : Nat → BTreeNode → TreeM (List α)
  | 0, _ => Proc.fail .diverged
  | fuel + 1, leaf =>
    if leaf.entries.isEmpty then pure []
    else do
      let here ← visitEntries visit leaf.entries
      if leaf.nextLeaf = 0 then pure here
      else match ← catching (readNode leaf.nextLeaf) with
        | .error _ => pure here
        | .ok next => do
          let others ← visitLeaves visit fuel next
          pure (here ++ others)

def iterate (visit : LeafEntry → TreeM (Option α)) : TreeM (List α) := do
  let t ← Proc.getLocal
  let fuel ← walkBound
  let root ← readNode t.getRootPage
  let leaf ← firstLeaf fuel root
  visitLeaves visit fuel leaf

def beginTransaction : TreeM Unit :=
  Proc.modifyLocal fun t => { t with
    txActive := true, cowPages := ∅, newPages := ∅, modifiedRoot := 0 }

def commitTransaction : TreeM Unit :=
  Proc.modifyLocal fun t => { t with
    rootPage := if t.modifiedRoot ≠ 0 then t.modifiedRoot else t.rootPage
    txActive := false, cowPages := ∅, newPages := ∅, modifiedRoot := 0 }

-- The copies go back to the pager; the other pages the transaction took do not.
def rollbackTransaction : TreeM Unit := do
  let t ← Proc.getLocal
  Proc.forEach (fun newPage => do let _ ← Proc.attempt (freePage newPage); pure ())
    (t.cowPages.toList.map Prod.snd)
  Proc.modifyLocal fun t => { t with
    txActive := false, cowPages := ∅, newPages := ∅, modifiedRoot := 0 }

end BTree

end JasonDb
