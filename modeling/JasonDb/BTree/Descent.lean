import JasonDb.BTree.Represents
import JasonDb.TxBTree.Entries

namespace JasonDb.BTree

open Lib SearchTree

variable {db : Database} {Q : LeafPred PageNum String LeafEntry}

-- `find_child` takes the child whose range has the key.
theorem findChild_hole {n : BTreeNode} {fr : PageFrame} {c : PageTree} {lo hi : Bound String}
    {key : String} (hkeys : n.keys = fr.keys)
    (hchildren : n.children = fr.left.map ptr ++ c.ptr :: fr.right.map ptr)
    (hleft : AllLeft Q lo hi fr.lkeys fr.left) (hlt : lo < hi)
    (hlo : loOf lo fr.lkeys ≤ .key key) (hhi : .key key < hiOf hi fr.rkeys) :
    findChild n key = .ok c.ptr := by
  have hidx : (n.keys.findIdx? (key < ·)).getD n.keys.length = fr.lkeys.length := by
    rw [hkeys, findIdx_hole hleft hlt hlo hhi]
    by_cases hr : fr.rkeys = []
    · simp [hr, Frame.keys]
    · simp [hr]
  have hget : n.children[fr.lkeys.length]? = some c.ptr := by
    rw [hchildren, fr.balanced, List.getElem?_append_right (by simp)]
    simp
  have hne : n.children.isEmpty = false := by simp [hchildren]
  unfold findChild
  simp only [hne, Bool.false_eq_true, ↓reduceIte, hidx, hget]

theorem exec_findLeaf (root : PageNum) {fuel : Nat} {n : BTreeNode} {ctx : List PageFrame} {sub : PageTree}
    {key : String} (h : Holds db [plug ctx sub]) (hn : db.nodeAt sub.ptr = some n)
    (hall : All Q ⊥ ⊤ (plug ctx sub)) (hlo : (holeRange ⊥ ⊤ ctx).1 ≤ .key key)
    (hhi : .key key < (holeRange ⊥ ⊤ ctx).2) (hfuel : sub.height ≤ fuel) :
    ∃ n' ctx' p es nx,
      Proc.exec (findLeaf fuel n key (sub.ptr :: ctx.map Frame.ptr)) (BTree.open root) db =
        (.ok (n', p :: ctx'.map Frame.ptr), BTree.open root, db) ∧
      plug ctx sub = plug ctx' (leaf p es nx) ∧ n'.pageNum = p ∧ n'.shape id = .leaf es nx ∧
      (holeRange ⊥ ⊤ ctx').1 ≤ .key key ∧ .key key < (holeRange ⊥ ⊤ ctx').2 := by
  induction fuel generalizing n ctx sub with
  | zero =>
    have := sub.height_pos
    omega
  | succ fuel ih =>
    have hcell : (sub.ptr, sub.shape) ∈ [plug ctx sub].flatMap cells := by
      simpa using mem_cells_plug sub.root_mem_cells
    obtain ⟨m, hm, hpage, hshape⟩ := h.nodeAt hcell
    obtain rfl : n = m := Option.some.inj (hn.symm.trans hm)
    cases sub with
    | leaf p es nx =>
      obtain ⟨htype, _, _⟩ := BTreeNode.shape_eq_leaf hshape
      refine ⟨n, ctx, p, es, nx, ?_, rfl, hpage, hshape, hlo, hhi⟩
      simp only [findLeaf, htype]
      rfl
    | node p keys children =>
      obtain ⟨htype, hkeys, hchildren⟩ := BTreeNode.shape_eq_node hshape
      rw [List.map_id] at hchildren
      obtain ⟨houter, hsub⟩ := (all_plug ctx _).mp hall
      have hlt := (houter.bounds bot_lt_top).2.1
      obtain ⟨fr, c, heq, hlo', hhi'⟩ := AllForest.exists_hole hsub hlo hhi p
      rw [heq] at h hall hsub hfuel ⊢
      simp only [Frame.fill, node.injEq] at heq
      obtain ⟨rfl, hk, hc⟩ := heq
      obtain ⟨hleft, _, _⟩ := (all_fill fr c).mp hsub
      have hfind := findChild_hole (c := c) (hkeys.trans hk) (hchildren.trans (by rw [hc]; simp))
        hleft hlt hlo' hhi'
      have hfill : plug ctx (fr.fill c) = plug (fr :: ctx) c := rfl
      rw [hfill] at h hall ⊢
      have hcellc : (c.ptr, c.shape) ∈ [plug (fr :: ctx) c].flatMap cells := by
        simpa using mem_cells_plug c.root_mem_cells
      obtain ⟨m, hm, _, _⟩ := h.nodeAt hcellc
      have hheight : c.height ≤ fuel := by
        have hle := height_le_heightAll (show c ∈ fr.left ++ c :: fr.right by simp)
        simp only [Frame.fill, height] at hfuel
        omega
      obtain ⟨n', ctx', p', es, nx, he, hrest⟩ := ih h hm hall hlo' hhi' hheight
      refine ⟨n', ctx', p', es, nx, ?_, hrest⟩
      simp only [findLeaf, htype, hfind]
      rw [Proc.exec_bind_ok (show Proc.exec (Proc.ofExcept (.ok c.ptr)) _ db = _ from rfl),
        Proc.exec_bind_ok (exec_readNode_at hm)]
      exact he

-- The leaf of a key, with what is around it.
structure LeafAt (T : PageTree) (key : String) (n : BTreeNode) (ctx : List PageFrame)
    (es : List LeafEntry) (nx : PageNum) : Prop where
  tree : T = plug ctx (leaf n.pageNum es nx)
  shape : n.shape id = .leaf es nx
  lo : (holeRange ⊥ ⊤ ctx).1 ≤ .key key
  hi : .key key < (holeRange ⊥ ⊤ ctx).2

theorem Represents.exec_descend {T : PageTree} (h : Represents db T) (key : String) :
    ∃ n ctx es nx, Proc.exec (descend key) (BTree.open T.ptr) db =
        (.ok (n, n.pageNum :: ctx.map Frame.ptr), BTree.open T.ptr, db) ∧
      LeafAt T key n ctx es nx := by
  have hcell : (T.ptr, T.shape) ∈ [T].flatMap cells := by simpa using T.root_mem_cells
  obtain ⟨top, hn, _, _⟩ := h.holds.nodeAt hcell
  obtain ⟨n, ctx, p, es, nx, he, heq, rfl, hshape, hlo, hhi⟩ :=
    exec_findLeaf T.ptr (show Holds db [plug [] T] from h.holds) hn h.ordered bot_le
      (WithBot.coe_lt_coe.mpr (WithTop.coe_lt_top key)) (Nat.le_succ_of_le h.holds.height_le)
  refine ⟨n, ctx, es, nx, ?_, heq, hshape, hlo, hhi⟩
  have hbound : Proc.exec (walkBound : TreeM Nat) (BTree.open T.ptr) db =
      (.ok (db.pager.numPages + 1), BTree.open T.ptr, db) := rfl
  unfold descend
  rw [Proc.exec_bind_ok (Proc.exec_getLocal _ db), Proc.exec_bind_ok hbound]
  simp only [getRootPage_open]
  rw [Proc.exec_bind_ok (exec_readNode_at hn)]
  exact he

section Leaf

variable {T : PageTree} {key : String} {n : BTreeNode} {ctx : List PageFrame}
  {es : List LeafEntry} {nx : PageNum}

theorem LeafAt.entries (h : LeafAt T key n ctx es nx) : n.entries = es :=
  (BTreeNode.shape_eq_leaf h.shape).2.1

-- Outside the leaf of a key there is no entry for it.
theorem Represents.key_outside (h : Represents db T) (hat : LeafAt T key n ctx es nx) :
    (∀ e ∈ entriesBefore ctx, e.key < key) ∧ ∀ e ∈ entriesAfter ctx, key < e.key := by
  have houter := ((all_plug ctx _).mp (hat.tree ▸ h.ordered)).1
  constructor
  · intro e he
    have hlt := houter.entriesBefore_lt (fun _ _ _ _ _ => id) bot_lt_top e he
    exact Bound.key_lt_key.mp (lt_of_lt_of_le hlt hat.lo)
  · intro e he
    have hle := houter.le_entriesAfter (fun _ _ _ _ _ => id) bot_lt_top e he
    exact Bound.key_lt_key.mp (lt_of_lt_of_le hat.hi hle)

theorem Represents.leaf_sorted (h : Represents db T) (hat : LeafAt T key n ctx es nx) :
    LeafSorted LeafEntry.key (holeRange ⊥ ⊤ ctx).1 (holeRange ⊥ ⊤ ctx).2 n.pageNum es nx := by
  have hall := h.ordered
  rw [hat.tree, all_plug] at hall
  exact hall.2

theorem Represents.find?_leaf (h : Represents db T) (hat : LeafAt T key n ctx es nx) :
    T.entries.find? (·.key = key) = es.find? (·.key = key) := by
  obtain ⟨hb, ha⟩ := h.key_outside hat
  rw [hat.tree, entries_plug]
  exact TxBTree.find?_middle (fun e he => (hb e he).ne) (fun e he => (ha e he).ne')

end Leaf

-- What `search` returns, from all entries of the tree.
theorem exec_search {T : PageTree} (h : Represents db T) (key : String) :
    Proc.exec (search key) (BTree.open T.ptr) db =
      (match TxBTree.mapOf T.entries key with
        | some value => .ok value
        | none => .error .notFound, BTree.open T.ptr, db) := by
  obtain ⟨n, ctx, es, nx, he, hat⟩ := h.exec_descend key
  unfold search
  rw [Proc.exec_bind_ok he]
  simp only [hat.entries, TxBTree.mapOf, h.find?_leaf hat]
  cases es.find? (·.key = key) <;> rfl

end JasonDb.BTree
