import JasonDb.Database.State

namespace JasonDb

open Lib

-- `deserialize_node`: the page number of the result is the one it was read from.
-- A page of zeros is an internal node without children.
def deserializeNode (pageNum : PageNum) : Page → Except Error BTreeNode
  | .node node => .ok { node with pageNum }
  | .zero => .ok (.newInternal pageNum)
  | _ => .error (.corruption "btree" pageNum "not a node")

structure TxBTree where
  snapshotRoot : PageNum
  modifiedRoot : PageNum
  cowPages : HashMap PageNum PageNum
  newPages : HashMap PageNum Bool
  txWrites : HashMap PageNum Page

namespace TxBTree

abbrev TreeM := DbM TxBTree

variable {α : Type}

def new (snapshotRoot : PageNum) (txWrites : HashMap PageNum Page) : TxBTree :=
  ⟨snapshotRoot, 0, ∅, ∅, txWrites⟩

def getCurrentRoot (t : TxBTree) : PageNum :=
  if t.modifiedRoot ≠ 0 then t.modifiedRoot else t.snapshotRoot

-- The page a pointer stands for inside this handle.
def actualPage (t : TxBTree) (pageNum : PageNum) : PageNum :=
  (t.cowPages.get? pageNum).getD pageNum

def readNode (pageNum : PageNum) : TreeM BTreeNode := do
  let t ← Proc.getLocal
  let actual := t.actualPage pageNum
  match t.txWrites.get? actual with
  | some page => Proc.ofExcept (deserializeNode actual page)
  | none =>
    let page ← readPage actual
    Proc.ofExcept (deserializeNode actual page)

def markNew (pageNum : PageNum) : TreeM Unit :=
  Proc.modifyLocal fun t => { t with newPages := t.newPages.insert pageNum true }

-- The page a node is written to: its own if this handle created it, else a copy.
def writeTarget (pageNum : PageNum) : TreeM PageNum := do
  let t ← Proc.getLocal
  if pageNum ∈ t.newPages then
    pure pageNum
  else match t.cowPages.get? pageNum with
    | some existing => pure existing
    | none =>
      let isRoot := pageNum = t.getCurrentRoot
      let newPage ← if isRoot then allocPageMinimum t.getCurrentRoot else allocPage
      Proc.modifyLocal fun t => { t with
        cowPages := t.cowPages.insert pageNum newPage
        newPages := t.newPages.insert newPage true
        modifiedRoot := if isRoot then newPage else t.modifiedRoot }
      pure newPage

def writeNode (node : BTreeNode) : TreeM PageNum := do
  let pageNum ← writeTarget node.pageNum
  let page := Page.node { node with pageNum }
  Proc.modifyLocal fun t => { t with txWrites := t.txWrites.insert pageNum page }
  writePageTransfer pageNum page
  pure pageNum

def findChild (node : BTreeNode) (key : String) : Except Error PageNum :=
  match node.keys.findIdx? (key < ·) with
  | some i => match node.children[i]? with
    | some child => .ok child
    | none => .error (.panic "index out of bounds")
  | none => match node.children.getLast? with
    | some child => .ok child
    | none => .error (.panic "called `Option::unwrap()` on a `None` value")

-- The path is kept innermost page first.
def findLeaf : Nat → BTreeNode → String → List PageNum → TreeM (BTreeNode × List PageNum)
  | 0, _, _, _ => Proc.fail .diverged
  | fuel + 1, node, key, path => match node.nodeType with
    | .leafNode => pure (node, path)
    | .internalNode => do
      let childPage ← Proc.ofExcept (findChild node key)
      let child ← readNode childPage
      findLeaf fuel child key (childPage :: path)

def notFound (key : String) : Error := .documentNotFound "" key

def search (key : String) : TreeM PageNum := do
  let t ← Proc.getLocal
  let fuel ← walkBound
  let root ← readNode t.getCurrentRoot
  let (leaf, _) ← findLeaf fuel root key [t.getCurrentRoot]
  match leaf.entries.find? (·.key = key) with
  | some entry => pure entry.value
  | none => Proc.fail (notFound key)

def createNewRoot (left right : PageNum) (key : String) : TreeM Unit := do
  let t ← Proc.getLocal
  let newRootPage ← allocPageMinimum t.getCurrentRoot
  markNew newRootPage
  let actual ← writeNode { BTreeNode.newInternal newRootPage with
    keys := [key], children := [left, right], numKeys := 1 }
  Proc.modifyLocal fun t => { t with modifiedRoot := actual }

-- Replace the first occurrence of a child pointer.
def replaceChild (old new : PageNum) : List PageNum → List PageNum
  | [] => []
  | child :: rest => if child = old then new :: rest else child :: replaceChild old new rest

def updatePathAfterModification : List PageNum → TreeM Unit
  | childPage :: parentPage :: rest => do
    let parent ← readNode parentPage
    let t ← Proc.getLocal
    match t.cowPages.get? childPage with
    | some newChild =>
      if childPage ∈ parent.children then
        let _ ← writeNode { parent with children := replaceChild childPage newChild parent.children }
    | none => pure ()
    updatePathAfterModification (parentPage :: rest)
  | _ => pure ()

def insertChild (parent : BTreeNode) (key : String) (rightChild : PageNum) : BTreeNode :=
  let pos := (parent.keys.findIdx? (key < ·)).getD parent.keys.length
  let keys := parent.keys.insertIdx pos key
  { parent with keys, children := parent.children.insertIdx (pos + 1) rightChild, numKeys := keys.length }

-- `split_internal`. The last argument is `insert_into_parent` for the path without
-- its innermost page, which the source calls with that shorter path.
def splitInternal (node : BTreeNode) (path : List PageNum)
    (insertIntoParent : BTreeNode → String → PageNum → TreeM Unit) : TreeM Unit := do
  let mid := node.keys.length / 2
  let newNodePage ← allocPage
  markNew newNodePage
  match node.keys[mid]? with
  | none => Proc.fail (.panic "index out of bounds")
  | some promoteKey =>
    let newKeys := node.keys.drop (mid + 1)
    let newNode := { BTreeNode.newInternal newNodePage with
      keys := newKeys, children := node.children.drop (mid + 1), numKeys := newKeys.length }
    let node := { node with
      keys := node.keys.take mid, children := node.children.take (mid + 1), numKeys := mid }
    let _ ← writeNode node
    let _ ← writeNode newNode
    match path with
    | oldNodePage :: parentPage :: _ =>
      let parent ← readNode parentPage
      let parent := if oldNodePage ≠ node.pageNum then
        { parent with children := replaceChild oldNodePage node.pageNum parent.children } else parent
      insertIntoParent parent promoteKey newNodePage
    | _ => createNewRoot node.pageNum newNodePage promoteKey

-- A child is inserted past the end of the children, which `Vec::insert` does not do.
def outOfPlace (parent : BTreeNode) (key : String) : Bool :=
  parent.children.length ≤ (parent.keys.findIdx? (key < ·)).getD parent.keys.length

def insertIntoParent : List PageNum → BTreeNode → String → PageNum → TreeM Unit
  | [], _, _, _ => Proc.fail (.panic "attempt to subtract with overflow")
  | page :: up, parent, key, rightChild =>
    if outOfPlace parent key then Proc.fail (.panic "insertion index should be <= len")
    else
      let parent := insertChild parent key rightChild
      if parent.keys.length > BTREE_ORDER then
        splitInternal parent (page :: up) (insertIntoParent up)
      else do
        let _ ← writeNode parent
        updatePathAfterModification (page :: up)

def splitLeaf (leaf : BTreeNode) (path : List PageNum) : TreeM Unit := do
  let mid := leaf.entries.length / 2
  let rightPage ← allocPage
  markNew rightPage
  let t ← Proc.getLocal
  let nextPage := if leaf.nextLeaf ≠ 0 then t.actualPage leaf.nextLeaf else 0
  let rightEntries := leaf.entries.drop mid
  match rightEntries with
  | [] => Proc.fail (.panic "index out of bounds")
  | first :: _ =>
    let right := { BTreeNode.newLeaf rightPage with
      entries := rightEntries, numKeys := rightEntries.length, nextLeaf := nextPage }
    let leaf := { leaf with entries := leaf.entries.take mid, numKeys := mid, nextLeaf := rightPage }
    let actualLeft ← writeNode leaf
    let actualRight ← writeNode right
    match path with
    | oldLeafPage :: parentPage :: up =>
      let parent ← readNode parentPage
      let parent := if oldLeafPage ≠ actualLeft then
        { parent with children := replaceChild oldLeafPage actualLeft parent.children } else parent
      insertIntoParent (parentPage :: up) parent first.key actualRight
    | _ => createNewRoot actualLeft actualRight first.key

-- `read_node(child).ok()`: a page that cannot be read is skipped.
def tryChild (pageNum : PageNum) (f : BTreeNode → TreeM (Option α)) : TreeM (Option α) := do
  match ← Proc.attempt (readNode pageNum) with
  | .ok child => f child
  | .error _ => pure none

def firstChild (f : PageNum → TreeM (Option α)) : List PageNum → TreeM (Option α)
  | [] => pure none
  | child :: rest => do
    match ← f child with
    | some result => pure (some result)
    | none => firstChild f rest

-- `is_page_in_tree`, with `some ()` for true.
def isPageInTree : Nat → BTreeNode → PageNum → TreeM (Option Unit)
  | 0, _, _ => Proc.fail .diverged
  | fuel + 1, node, target =>
    if node.pageNum = target then pure (some ())
    else match node.nodeType with
      | .leafNode => pure none
      | .internalNode =>
        firstChild (fun page => tryChild page fun child => isPageInTree fuel child target) node.children

def findNextLeafByKey : Nat → BTreeNode → String → TreeM (Option PageNum)
  | 0, _, _ => Proc.fail .diverged
  | fuel + 1, node, key => match node.nodeType with
    | .leafNode => match node.entries with
      | first :: _ => pure (if key < first.key then some node.pageNum else none)
      | [] => pure none
    | .internalNode => match node.keys.findIdx? (key < ·) with
      | some i =>
        firstChild (fun page => tryChild page fun child => findNextLeafByKey fuel child key)
          (node.children.drop i)
      | none => match node.children.getLast? with
        | some last => tryChild last fun child => findNextLeafByKey fuel child key
        | none => Proc.fail (.panic "called `Option::unwrap()` on a `None` value")

def findCorrectNextLeaf (fuel : Nat) (root leaf : BTreeNode) : TreeM (Option PageNum) :=
  match leaf.entries.getLast? with
  | none => pure none
  | some last => findNextLeafByKey fuel root last.key

-- The first unreadable child ends the search, as `read_node(child).ok()?` does.
-- The result is the path, innermost page first.
def findAnyLeafPath : Nat → BTreeNode → PageNum → List PageNum → TreeM (Option (List PageNum))
  | 0, _, _, _ => Proc.fail .diverged
  | fuel + 1, node, target, path => match node.nodeType with
    | .leafNode => pure (if node.pageNum = target then some path else none)
    | .internalNode => do
      let found ← firstChild (fun page => do
        match ← Proc.attempt (readNode page) with
        | .error _ => pure (some none)
        | .ok child =>
          match ← findAnyLeafPath fuel child target (page :: path) with
          | some result => pure (some (some result))
          | none => pure none) node.children
      pure found.join

def leftmostLeaf : Nat → BTreeNode → TreeM BTreeNode
  | 0, _ => Proc.fail .diverged
  | fuel + 1, node => match node.nodeType with
    | .leafNode => pure node
    | .internalNode => match node.children with
      | [] => Proc.fail (.panic "index out of bounds")
      | first :: _ => do
        let child ← readNode first
        leftmostLeaf fuel child

def noPredecessorPath (pageNum : PageNum) : TreeM Unit :=
  Proc.fail (.corruption "BTree" pageNum "Could not find predecessor path before COW")

-- Walk the leaf chain up to the leaf whose link is `oldPage` and redirect it.
def redirectLink (root : BTreeNode) (rootPage oldPage newPage : PageNum) :
    Nat → PageNum → TreeM Unit
  | 0, _ => Proc.fail .diverged
  | fuel + 1, currentPage => do
    let leaf ← readNode currentPage
    if leaf.nextLeaf = oldPage then
      let bound ← walkBound
      let found ← findAnyLeafPath bound root leaf.pageNum [rootPage]
      match found with
      | none => noPredecessorPath leaf.pageNum
      | some predPath => do
        let newPredPage ← writeNode { leaf with nextLeaf := newPage }
        if newPredPage ≠ leaf.pageNum then
          updatePathAfterModification predPath
    else if leaf.nextLeaf = 0 then
      pure ()
    else
      redirectLink root rootPage oldPage newPage fuel leaf.nextLeaf

def updatePredecessorNextLeaf (oldPage newPage : PageNum) : TreeM Unit := do
  let t ← Proc.getLocal
  let rootPage := t.getCurrentRoot
  let root ← readNode rootPage
  let fuel ← walkBound
  let currentPage ← match root.nodeType with
    | .leafNode => pure rootPage
    | .internalNode => do
      let leaf ← leftmostLeaf fuel root
      pure leaf.pageNum
  redirectLink root rootPage oldPage newPage fuel currentPage

-- `let _ = ..`
def ignoreErrors (m : TreeM Unit) : TreeM Unit := do
  let _ ← catching m

def insertEntry (key : String) (value : PageNum) : List LeafEntry → List LeafEntry
  | [] => [⟨key, value⟩]
  | entry :: rest =>
    if entry.key = key then ⟨key, value⟩ :: rest
    else if key < entry.key then ⟨key, value⟩ :: entry :: rest
    else entry :: insertEntry key value rest

-- The repair `insert` makes before it writes a leaf whose link left the tree.
def repairNextLeaf (fuel : Nat) (leaf : BTreeNode) : TreeM BTreeNode := do
  if leaf.nextLeaf = 0 then pure leaf
  else
    let t ← Proc.getLocal
    let root ← readNode t.getCurrentRoot
    match root.nodeType with
    | .leafNode => pure leaf
    | .internalNode =>
      match ← isPageInTree fuel root leaf.nextLeaf with
      | some () => pure leaf
      | none =>
        match ← findCorrectNextLeaf fuel root leaf with
        | some correctNext => pure { leaf with nextLeaf := correctNext }
        | none => pure leaf

def insert (key : String) (value : PageNum) : TreeM Unit := do
  let t ← Proc.getLocal
  let fuel ← walkBound
  let root ← readNode t.getCurrentRoot
  let (leaf, path) ← findLeaf fuel root key [t.getCurrentRoot]
  let entries := insertEntry key value leaf.entries
  let leaf := { leaf with entries, numKeys := entries.length }
  if entries.length > BTREE_ORDER then
    splitLeaf leaf path
  else
    let leaf ← repairNextLeaf fuel leaf
    let actualPage ← writeNode leaf
    if actualPage ≠ leaf.pageNum then
      ignoreErrors (updatePredecessorNextLeaf leaf.pageNum actualPage)
    updatePathAfterModification path

-- The entry for `key` gets a new value.
def setEntry (key : String) (value : PageNum) : List LeafEntry → List LeafEntry
  | [] => []
  | entry :: rest =>
    if entry.key = key then { entry with value } :: rest else entry :: setEntry key value rest

def update (key : String) (value : PageNum) : TreeM Unit := do
  let t ← Proc.getLocal
  let fuel ← walkBound
  let root ← readNode t.getCurrentRoot
  let (leaf, path) ← findLeaf fuel root key [t.getCurrentRoot]
  if leaf.entries.any (·.key = key) then
    let _ ← writeNode { leaf with entries := setEntry key value leaf.entries }
    updatePathAfterModification path
  else Proc.fail (notFound key)

def delete (key : String) : TreeM Unit := do
  let t ← Proc.getLocal
  let fuel ← walkBound
  let root ← readNode t.getCurrentRoot
  let (leaf, path) ← findLeaf fuel root key [t.getCurrentRoot]
  let entries := leaf.entries.filter (·.key ≠ key)
  if entries.length = leaf.entries.length then Proc.fail (notFound key)
  else
    let _ ← writeNode { leaf with entries, numKeys := entries.length }
    updatePathAfterModification path

def anyChild (f : PageNum → TreeM Bool) : List PageNum → TreeM Bool
  | [] => pure false
  | child :: rest => do
    if ← f child then pure true else anyChild f rest

-- `has_prefix_in_node`
def hasPrefixInNode : Nat → PageNum → String → TreeM Bool
  | 0, _, _ => Proc.fail .diverged
  | fuel + 1, pageNum, start =>
    if pageNum = 0 then pure false
    else do
      let node ← readNode pageNum
      match node.nodeType with
      | .leafNode => pure (node.entries.any (·.key.startsWith start))
      | .internalNode => anyChild (fun child => hasPrefixInNode fuel child start) node.children

def hasPrefix (start : String) : TreeM Bool := do
  let t ← Proc.getLocal
  let fuel ← walkBound
  hasPrefixInNode fuel t.getCurrentRoot start

-- `create_empty`: a handle on a fresh tree with one empty leaf.
def createEmpty (txWrites : HashMap PageNum Page) {ℓ : Type} : DbM ℓ TxBTree := do
  let rootPage ← allocPage
  let t : TxBTree := ⟨rootPage, 0, ∅, (∅ : HashMap PageNum Bool).insert rootPage true, txWrites⟩
  let page := Page.node (.newLeaf rootPage)
  writePageTransfer rootPage page
  pure { t with txWrites := t.txWrites.insert rootPage page }

end TxBTree

end JasonDb
