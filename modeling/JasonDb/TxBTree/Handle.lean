import JasonDb.TxBTree
import JasonDb.Pager.Lemmas
import JasonDb.Lib.SearchTree.Store
import Mathlib.Data.String.Basic

namespace JasonDb

open Lib SearchTree

abbrev PageShape := Shape PageNum String LeafEntry

abbrev PageTree := SearchTree PageNum String LeafEntry

abbrev PageFrame := Frame PageNum String LeafEntry

-- The node in a page, if the page has one.
def Database.nodeAt (db : Database) (pageNum : PageNum) : Option BTreeNode :=
  (db.pager.view pageNum).bind fun page => (deserializeNode pageNum page).toOption

theorem deserializeNode_pageNum {pageNum : PageNum} {page : Page} {node : BTreeNode}
    (h : deserializeNode pageNum page = .ok node) : node.pageNum = pageNum := by
  cases page <;> simp only [deserializeNode, Except.ok.injEq, reduceCtorEq] at h <;> subst h <;> rfl

theorem Database.nodeAt_pageNum {db : Database} {pageNum : PageNum} {node : BTreeNode}
    (h : db.nodeAt pageNum = some node) : node.pageNum = pageNum := by
  unfold nodeAt at h
  cases hv : db.pager.view pageNum with
  | none => simp [hv] at h
  | some page =>
    rw [hv, Option.bind_some] at h
    cases hd : deserializeNode pageNum page with
    | error e => simp [hd, Except.toOption] at h
    | ok n =>
      rw [hd] at h
      obtain rfl : n = node := by simpa [Except.toOption] using h
      exact deserializeNode_pageNum hd

-- The contents of a node, with `f` applied to its pointers.
def BTreeNode.shape (f : PageNum → PageNum) (node : BTreeNode) : PageShape :=
  match node.nodeType with
  | .leafNode => .leaf node.entries (f node.nextLeaf)
  | .internalNode => .node node.keys (node.children.map f)

theorem BTreeNode.shape_comp (f g : PageNum → PageNum) (node : BTreeNode) :
    node.shape (g ∘ f) = (node.shape f).mapPtr g := by
  unfold shape
  cases node.nodeType <;> simp [Shape.mapPtr]

theorem BTreeNode.shape_eq_leaf {f : PageNum → PageNum} {node : BTreeNode} {es : List LeafEntry}
    {nx : PageNum} (h : node.shape f = .leaf es nx) :
    node.nodeType = .leafNode ∧ node.entries = es ∧ f node.nextLeaf = nx := by
  unfold shape at h
  cases hn : node.nodeType <;> simp_all

theorem BTreeNode.shape_eq_node {f : PageNum → PageNum} {node : BTreeNode} {keys : List String}
    {children : List PageNum} (h : node.shape f = .node keys children) :
    node.nodeType = .internalNode ∧ node.keys = keys ∧ node.children.map f = children := by
  unfold shape at h
  cases hn : node.nodeType <;> simp_all

namespace TxBTree

-- The nodes this handle reads, by the page they are in, with all pointers
-- followed through its copies.
def store (t : TxBTree) (db : Database) (pageNum : PageNum) : Option PageShape :=
  (db.nodeAt pageNum).map (BTreeNode.shape t.actualPage)

-- What holds of a handle between two of its operations and at each of their steps.
structure WF (t : TxBTree) (db : Database) : Prop where
  pager : db.pager.WF
  copied : ∀ p q, t.cowPages.get? p = some q →
    q ∈ t.newPages ∧ p ∉ t.newPages ∧ db.pager.Allocated p
  created : ∀ p ∈ t.newPages, db.pager.Allocated p
  coherent : ∀ p page, t.txWrites.get? p = some page → db.pager.view p = some page
  root : t.cowPages.get? t.getCurrentRoot = none

theorem actualPage_of_none {t : TxBTree} {p : PageNum} (h : t.cowPages.get? p = none) :
    t.actualPage p = p := by
  simp [actualPage, h]

theorem WF.get?_actualPage {t : TxBTree} {db : Database} (h : t.WF db) (p : PageNum) :
    t.cowPages.get? (t.actualPage p) = none := by
  cases hp : t.cowPages.get? p with
  | none => rwa [actualPage_of_none hp]
  | some q =>
    simp only [actualPage, hp, Option.getD_some]
    by_contra hq
    obtain ⟨r, hr⟩ := Option.ne_none_iff_exists'.mp hq
    exact (h.copied q r hr).2.1 (h.copied p q hp).1

theorem WF.actualPage_zero {t : TxBTree} {db : Database} (h : t.WF db) : t.actualPage 0 = 0 := by
  cases h0 : t.cowPages.get? 0 with
  | none => exact actualPage_of_none h0
  | some q => exact absurd rfl (h.copied 0 q h0).2.2.1

-- Reading a node does not change anything.
theorem exec_readNode {t : TxBTree} {db : Database} (h : t.WF db) {p : PageNum} {node : BTreeNode}
    (hn : db.nodeAt (t.actualPage p) = some node) :
    Proc.exec (readNode p) t db = (.ok node, t, db) := by
  unfold Database.nodeAt at hn
  cases hv : db.pager.view (t.actualPage p) with
  | none => simp [hv] at hn
  | some page =>
    rw [hv, Option.bind_some] at hn
    cases hd : deserializeNode (t.actualPage p) page with
    | error e => simp [hd, Except.toOption] at hn
    | ok n =>
      obtain rfl : n = node := by simpa [hd, Except.toOption] using hn
      unfold readNode
      rw [Proc.exec_bind_ok (Proc.exec_getLocal t db)]
      cases hw : t.txWrites.get? (t.actualPage p) with
      | some page' =>
        obtain rfl : page = page' := by
          have := h.coherent _ _ hw
          rw [hv] at this
          exact Option.some.inj this
        simp only [hw, hd, Proc.ofExcept]
        rfl
      | none =>
        have hread : Proc.exec (readPage (t.actualPage p)) t db = (.ok page, t, db) := by
          simp [readPage, Proc.exec_atomicE, Pager.readPage, hv]
        simp only [hw]
        rw [Proc.exec_bind_ok hread]
        simp only [hd, Proc.ofExcept]
        rfl

end TxBTree

end JasonDb
