import JasonDb.BTree.Descent
import JasonDb.TxBTree.Split

namespace JasonDb.BTree

open Lib SearchTree

-- A subtree at a hole was cut in `L`, which is in the hole, and `R`, which is not in the tree
-- yet, with `s` between them.
structure Parted (db : Database) (ctx : List PageFrame) (L R : PageTree) (s : String) : Prop where
  holds : Holds db [plug ctx L, R]
  outer : AllOuter (LeafSorted LeafEntry.key) ⊥ ⊤ ctx
  lo : (holeRange ⊥ ⊤ ctx).1 < .key s
  hi : .key s < (holeRange ⊥ ⊤ ctx).2
  left : All (LeafSorted LeafEntry.key) (holeRange ⊥ ⊤ ctx).1 (.key s) L
  right : All (LeafSorted LeafEntry.key) (.key s) (holeRange ⊥ ⊤ ctx).2 R
  small : ∀ c ∈ [plug ctx L, R].flatMap cells, c.2.size ≤ BTREE_ORDER
  level : ∃ n, LevelOuter n ctx ∧ Level n L ∧ Level n R
  linked : Linked 0 (leavesBefore ctx ++ (L.leaves ++ R.leaves) ++ leavesAfter ctx)

-- The tree after the rest of an insertion: the same leaves, all of them in it.
def Joined (db : Database) (S : Set PageNum) (ls : List (PageNum × List LeafEntry × PageNum))
    (T : PageTree) (db' : Database) : Prop :=
  Represents db' T ∧ T.leaves = ls ∧ Edits db S db' {p | p ∈ T.ptrs}

theorem Joined.after {db db' db'' : Database} {S S' : Set PageNum} {T : PageTree}
    {ls : List (PageNum × List LeafEntry × PageNum)} (h : Edits db S db' S')
    (h' : Joined db' S' ls T db'') : Joined db S ls T db'' :=
  ⟨h'.1, h'.2.1, h.trans h'.2.2⟩

section NewRoot

variable {db : Database} {L R : PageTree} {s : String} {root : PageNum} {S : Set PageNum}

theorem Parted.exec_createNewRoot (h : Parted db [] L R s) (root : PageNum)
    (hS : ∀ p ∈ [L, R].flatMap ptrs, p ∈ S) :
    ∃ T db', Proc.exec (createNewRoot L.ptr R.ptr s) (BTree.open root) db =
        (.ok (), BTree.open T.ptr, db') ∧ Joined db S (L.leaves ++ R.leaves) T db' := by
  obtain ⟨q, db₁, halloc, _, h₁, hfresh, hused, hedit⟩ := h.holds.exec_alloc (BTree.open root) S
  have hnew : ([node q [s] [L, R]].flatMap cells).Perm
      ((q, .node [s] [L.ptr, R.ptr]) :: [L, R].flatMap cells) := by
    rw [List.flatMap_singleton, cells_node]
    exact List.Perm.refl _
  have h₂ : Holds (written db₁ { BTreeNode.newInternal q with
      keys := [s], children := [L.ptr, R.ptr], numKeys := 1 }) [node q [s] [L, R]] :=
    h₁.written_new hnew hfresh hused
  have hleaves : (node q [s] [L, R]).leaves = L.leaves ++ R.leaves := by simp [leaves_node]
  refine ⟨node q [s] [L, R], _, ?_, ⟨h₂, ⟨h.left, h.lo, h.hi, h.right⟩, ?_, ?_, ?_⟩, hleaves, ?_⟩
  · unfold createNewRoot
    rw [Proc.exec_bind_ok halloc,
      Proc.exec_bind_ok (exec_markNew_open q db₁),
      Proc.exec_bind_ok (exec_writeNode_open _ h₁.pager _)]
    rfl
  · intro c hc
    rw [cells_node] at hc
    rcases List.mem_cons.mp hc with rfl | hc
    · exact Nat.le_of_ble_eq_true rfl
    · exact h.small c hc
  · obtain ⟨n, _, hl, hr⟩ := h.level
    refine ⟨n + 1, ?_⟩
    intro c hc
    rcases List.mem_cons.mp hc with rfl | hc
    · exact hl
    · obtain rfl := List.mem_singleton.mp hc
      exact hr
  · rw [hleaves]
    simpa [leavesBefore, leavesAfter] using h.linked
  · refine (hedit.trans (edits_written db₁ ?_)).mono ?_
    · exact Or.inr rfl
    intro p hp
    have hp' : p ∈ (node q [s] [L, R]).ptrs := hp
    rw [ptrs_node] at hp'
    rcases List.mem_cons.mp hp' with rfl | hp
    · exact Or.inr rfl
    · exact Or.inl (hS p hp)

end NewRoot

section Parent

variable {db : Database} {fr : PageFrame} {ctx : List PageFrame} {L R : PageTree} {s : String}
  {n : BTreeNode} {root : PageNum} {S : Set PageNum}

-- The node around the hole, as it is in its page.
theorem Parted.parent (h : Parted db (fr :: ctx) L R s) :
    ∃ n, db.nodeAt fr.ptr = some n ∧ n.pageNum = fr.ptr ∧ n.shape id = fr.shape L.ptr := by
  refine h.holds.nodeAt ?_
  refine (flatMap_cells_focus_node ctx fr.ptr fr.keys (fr.left ++ L :: fr.right) [R]).mem_iff.mpr ?_
  simp [Frame.shape]

-- The parent with the new child.
theorem Parted.insertChild (h : Parted db (fr :: ctx) L R s) (hshape : n.shape id = fr.shape L.ptr) :
    (TxBTree.insertChild n s R.ptr).shape id = ((fr.insertRight s R).fill L).shape ∧
      (TxBTree.insertChild n s R.ptr).keys = (fr.insertRight s R).keys := by
  obtain ⟨hctx, hleft, _⟩ := h.outer
  have hlt := (hctx.bounds bot_lt_top).2.1
  exact TxBTree.insertChild_hole hshape rfl hleft hlt h.lo.le h.hi

theorem Parted.inPlace (h : Parted db (fr :: ctx) L R s) (hshape : n.shape id = fr.shape L.ptr) :
    ¬ TxBTree.outOfPlace n s = true := by
  obtain ⟨hctx, hleft, _⟩ := h.outer
  have hlt := (hctx.bounds bot_lt_top).2.1
  rw [TxBTree.outOfPlace_hole hshape hleft hlt h.lo.le h.hi]
  exact Bool.false_ne_true

theorem Parted.ordered (h : Parted db (fr :: ctx) L R s) :
    All (LeafSorted LeafEntry.key) ⊥ ⊤ (plug ctx ((fr.insertRight s R).fill L)) := by
  obtain ⟨hctx, hleft, hright⟩ := h.outer
  have hlt := (hctx.bounds bot_lt_top).2.1
  exact (all_plug ctx _).mpr ⟨hctx, All.insertRight hleft hright hlt h.lo h.hi h.left h.right⟩

theorem leaves_insertRight (fr : PageFrame) (ctx : List PageFrame) (s : String) (L R : PageTree) :
    (plug ctx ((fr.insertRight s R).fill L)).leaves =
      leavesBefore (fr :: ctx) ++ (L.leaves ++ R.leaves) ++ leavesAfter (fr :: ctx) := by
  simp [leaves_plug, Frame.fill, Frame.insertRight, leaves_node, leavesBefore, leavesAfter]

theorem Parted.level_insertRight (h : Parted db (fr :: ctx) L R s) :
    ∃ n, LevelOuter n ctx ∧ Level n ((fr.insertRight s R).fill L) := by
  obtain ⟨n, ⟨hsides, hctx⟩, hl, hr⟩ := h.level
  refine ⟨n + 1, hctx, (level_fill _ _).mpr ⟨?_, hl⟩⟩
  intro c hc
  simp only [Frame.insertRight, List.mem_append, List.mem_cons] at hc
  rcases hc with hc | rfl | hc
  · exact hsides c (List.mem_append_left _ hc)
  · exact hr
  · exact hsides c (List.mem_append_right _ hc)

-- The cells other than those of the parent are the same before and after it gets its new child.
theorem Parted.small_rest (h : Parted db (fr :: ctx) L R s) {c : PageNum × PageShape}
    (hc : c ∈ (fr.left ++ L :: R :: fr.right).flatMap cells ++ outerCells ctx fr.ptr) :
    c.2.size ≤ BTREE_ORDER := by
  refine h.small c ?_
  refine (flatMap_cells_focus_node ctx fr.ptr fr.keys (fr.left ++ L :: fr.right) [R]).mem_iff.mpr ?_
  refine List.mem_cons_of_mem _ ?_
  rcases List.mem_append.mp hc with hc | hc
  · exact List.mem_append_left _ (((perm_children fr L R).flatMap_right _).mem_iff.mp hc)
  · exact List.mem_append_right _ hc

-- The parent has room and is written.
theorem Parted.written_room (h : Parted db (fr :: ctx) L R s) (hpage : n.pageNum = fr.ptr)
    (hshape : n.shape id = fr.shape L.ptr)
    (hroom : (TxBTree.insertChild n s R.ptr).keys.length ≤ BTREE_ORDER)
    (hS : ∀ p ∈ [plug (fr :: ctx) L, R].flatMap ptrs, p ∈ S) :
    Joined db S (leavesBefore (fr :: ctx) ++ (L.leaves ++ R.leaves) ++ leavesAfter (fr :: ctx))
      (plug ctx ((fr.insertRight s R).fill L)) (written db (TxBTree.insertChild n s R.ptr)) := by
  obtain ⟨hshape', hkeys⟩ := h.insertChild hshape
  have hpn : (TxBTree.insertChild n s R.ptr).pageNum = fr.ptr := hpage
  have hperm : ((fr.left ++ L :: R :: fr.right) ++ []).Perm ((fr.left ++ L :: fr.right) ++ [R]) := by
    simpa using perm_children fr L R
  have hfill : (fr.insertRight s R).fill L =
      node (TxBTree.insertChild n s R.ptr).pageNum (fr.insertRight s R).keys
        (fr.left ++ L :: R :: fr.right) := by
    rw [hpn]
    rfl
  have hholds : Holds (written db (TxBTree.insertChild n s R.ptr))
      [plug ctx ((fr.insertRight s R).fill L)] := by
    rw [hfill]
    have hold : Holds db (plug ctx (node (TxBTree.insertChild n s R.ptr).pageNum fr.keys
        (fr.left ++ L :: fr.right)) :: [R]) := by
      rw [hpn]
      exact h.holds
    exact hold.written_inner hshape' hperm
  have hlevel := exists_level_plug.mpr h.level_insertRight
  refine ⟨⟨hholds, h.ordered, ?_, hlevel, ?_⟩, leaves_insertRight .., ?_⟩
  · intro c hc
    have hcells : c ∈ [plug ctx ((fr.insertRight s R).fill L)].flatMap cells := by simpa using hc
    have hc' := (flatMap_cells_focus_node ctx fr.ptr (fr.insertRight s R).keys
      (fr.left ++ L :: R :: fr.right) []).mem_iff.mp hcells
    rcases List.mem_cons.mp hc' with rfl | hc'
    · rw [Shape.size, ← hkeys]
      exact hroom
    · exact h.small_rest (by simpa using hc')
  · rw [leaves_insertRight]
    exact h.linked
  · have hmem : fr.ptr ∈ [plug (fr :: ctx) L, R].flatMap ptrs := by
      rw [← map_fst_flatMap_cells]
      exact ((flatMap_cells_focus_node ctx fr.ptr fr.keys (fr.left ++ L :: fr.right) [R]).map
        Prod.fst).mem_iff.mpr (List.mem_cons_self ..)
    refine (edits_written db (by rw [hpn]; exact hS _ hmem)).mono ?_
    intro p hp
    have hsame : ([plug ctx ((fr.insertRight s R).fill L)].flatMap ptrs).Perm
        ([plug (fr :: ctx) L, R].flatMap ptrs) := flatMap_ptrs_focus_node hperm
    rw [List.flatMap_singleton] at hsame
    exact hS p (hsame.mem_iff.mp hp)

-- The two nodes `split_internal` makes of an overfull one.
def leftHalf (n : BTreeNode) (mid : Nat) : BTreeNode :=
  { n with keys := n.keys.take mid, children := n.children.take (mid + 1), numKeys := mid }

def rightHalf (n : BTreeNode) (mid : Nat) (r : PageNum) : BTreeNode :=
  { BTreeNode.newInternal r with
    keys := n.keys.drop (mid + 1), children := n.children.drop (mid + 1)
    numKeys := (n.keys.drop (mid + 1)).length }

-- Both halves are written. The children of the right one are without a parent in between.
theorem Holds.written_halves {keys : List String} {children children' X : List PageTree}
    {r : PageNum} (h : Holds db (plug ctx (node n.pageNum keys children) :: X))
    (hshape : n.shape id = .node n.keys (children'.map ptr)) (hperm : children'.Perm (children ++ X))
    (mid : Nat) (hr : r ∉ (plug ctx (node n.pageNum keys children) :: X).flatMap ptrs)
    (hused : db.pager.Allocated r) :
    Holds (BTree.written (BTree.written db (leftHalf n mid)) (rightHalf n mid r))
      [plug ctx (node n.pageNum (n.keys.take mid) (children'.take (mid + 1))),
        node r (n.keys.drop (mid + 1)) (children'.drop (mid + 1))] := by
  obtain ⟨htype, _, hchildren⟩ := BTreeNode.shape_eq_node hshape
  rw [List.map_id] at hchildren
  have hl : (leftHalf n mid).shape id =
      .node (n.keys.take mid) ((children'.take (mid + 1)).map ptr) := by
    simp [leftHalf, BTreeNode.shape, htype, hchildren, List.map_take]
  have hrt : (rightHalf n mid r).shape id =
      .node (n.keys.drop (mid + 1)) ((children'.drop (mid + 1)).map ptr) := by
    simp [rightHalf, BTreeNode.shape, BTreeNode.newInternal, hchildren, List.map_drop]
  have hcut : (children'.take (mid + 1) ++ children'.drop (mid + 1)).Perm (children ++ X) := by
    rwa [List.take_append_drop]
  have h₁ : Holds (BTree.written db (leftHalf n mid))
      (plug ctx (node n.pageNum (n.keys.take mid) (children'.take (mid + 1))) ::
        children'.drop (mid + 1)) :=
    Holds.written_inner (n := leftHalf n mid) h hl hcut
  refine h₁.written_new ?_ ?_ hused
  · rw [hrt, List.flatMap_cons, List.flatMap_singleton, cells_node]
    simp only [List.flatMap_cons]
    exact List.perm_middle
  · intro hmem
    exact hr ((flatMap_ptrs_focus_node hcut).mem_iff.mp hmem)

end Parent

section Full

variable {db : Database} {fr : PageFrame} {ctx : List PageFrame} {L R : PageTree} {s : String}
  {n : BTreeNode} {root : PageNum} {S : Set PageNum}

-- The end of `split_leaf` and of `split_internal`: the new node gets into the parent, or under
-- a new root.
def attach (path : List PageNum) (left right : PageNum) (key : String) : TreeM Unit :=
  match path with
  | oldPage :: parentPage :: up => do
    let parent ← readNode parentPage
    insertIntoParent (parentPage :: up) (redirect parent oldPage left) key right
  | _ => createNewRoot left right key

-- The parent has no room and is split in turn.
theorem Parted.exec_full (h : Parted db (fr :: ctx) L R s) (hpage : n.pageNum = fr.ptr)
    (hshape : n.shape id = fr.shape L.ptr)
    (hfull : BTREE_ORDER < (TxBTree.insertChild n s R.ptr).keys.length)
    (hS : ∀ p ∈ [plug (fr :: ctx) L, R].flatMap ptrs, p ∈ S) (root : PageNum) (up : List PageNum) :
    ∃ promote db' L' R' S', Proc.exec (splitInternal (TxBTree.insertChild n s R.ptr) (fr.ptr :: up)
          (insertIntoParent up)) (BTree.open root) db =
        Proc.exec (attach (fr.ptr :: up) L'.ptr R'.ptr promote) (BTree.open root) db' ∧
      Parted db' ctx L' R' promote ∧ L'.ptr = fr.ptr ∧
      L'.leaves ++ R'.leaves =
        fr.left.flatMap leaves ++ (L.leaves ++ R.leaves) ++ fr.right.flatMap leaves ∧
      Edits db S db' S' ∧ ∀ p ∈ [plug ctx L', R'].flatMap ptrs, p ∈ S' := by
  obtain ⟨hshape', hkeys⟩ := h.insertChild hshape
  have hroom : fr.keys.length ≤ BTREE_ORDER := by
    refine h.small (fr.ptr, fr.shape L.ptr) ?_
    refine (flatMap_cells_focus_node ctx fr.ptr fr.keys (fr.left ++ L :: fr.right) [R]).mem_iff.mpr ?_
    simp [Frame.shape]
  have hlen : (TxBTree.insertChild n s R.ptr).keys.length = fr.keys.length + 1 := by
    rw [hkeys]
    simp only [Frame.keys, Frame.insertRight, List.length_append, List.length_cons]
    omega
  generalize hm : TxBTree.insertChild n s R.ptr = m at hshape' hkeys hfull hlen
  have hpm : m.pageNum = fr.ptr := by
    rw [← hm]
    exact hpage
  -- the page of the right half
  obtain ⟨r, db₁, halloc, _, h₁, hfresh, hused, hedit⟩ := h.holds.exec_alloc (BTree.open root) S
  have hshapem : m.shape id = .node m.keys ((fr.left ++ L :: R :: fr.right).map ptr) := by
    rw [hshape', hkeys]
    rfl
  have hforest : plug (fr :: ctx) L = plug ctx (node m.pageNum fr.keys (fr.left ++ L :: fr.right)) := by
    rw [hpm]
    rfl
  rw [hforest] at h₁ hfresh
  have h₂ := h₁.written_halves hshapem (perm_children fr L R) (m.keys.length / 2) hfresh hused
  -- the separator between the halves
  obtain ⟨houter, hnode⟩ := (all_plug _ _).mp h.ordered
  have hall : AllForest (LeafSorted LeafEntry.key) (holeRange ⊥ ⊤ ctx).1 (holeRange ⊥ ⊤ ctx).2
      m.keys (fr.left ++ L :: R :: fr.right) := by
    rw [hkeys]
    exact hnode
  have hmid : m.keys.length / 2 < m.keys.length := by omega
  obtain ⟨promote, hpromote, hl, hlo, hhi, hr⟩ := hall.halves hmid
  refine ⟨promote, _, _, _, S ∪ {r}, ?_,
    ⟨h₂, houter, hlo, hhi, hl, hr, ?_, ?_, ?_⟩, hpm, ?_, ?_, ?_⟩
  · have hw₁ : Proc.exec (writeNode (leftHalf m (m.keys.length / 2))) (BTree.open root) db₁ =
        (.ok (), BTree.open root, written db₁ (leftHalf m (m.keys.length / 2))) :=
      exec_writeNode_open _ h₁.pager _
    have hw₂ : Proc.exec (writeNode (rightHalf m (m.keys.length / 2) r)) (BTree.open root)
        (written db₁ (leftHalf m (m.keys.length / 2))) = (.ok (), BTree.open root, _) :=
      exec_writeNode_open _ (wf_written h₁.pager _) _
    unfold splitInternal
    rw [Proc.exec_bind_ok halloc, Proc.exec_bind_ok (exec_markNew_open r db₁)]
    simp only [hpromote]
    unfold leftHalf at hw₁ hw₂
    unfold rightHalf at hw₂
    rw [Proc.exec_bind_ok hw₁, Proc.exec_bind_ok hw₂]
    cases up <;> rfl
  · intro c hc
    have hc' := (flatMap_cells_focus_node ctx m.pageNum _ _ _).mem_iff.mp hc
    rcases List.mem_cons.mp hc' with rfl | hc'
    · simp only [Shape.size, List.length_take]
      omega
    · rcases List.mem_append.mp hc' with hc' | hc'
      · rw [List.flatMap_append, List.flatMap_singleton, cells_node] at hc'
        have hsmall : c ∈ (fr.left ++ L :: R :: fr.right).flatMap cells → c.2.size ≤ BTREE_ORDER :=
          fun hmem => h.small_rest (List.mem_append_left _ hmem)
        rcases List.mem_append.mp hc' with hc' | hc'
        · exact hsmall (List.mem_flatMap.mpr (by
            obtain ⟨d, hd, hcd⟩ := List.mem_flatMap.mp hc'
            exact ⟨d, List.mem_of_mem_take hd, hcd⟩))
        · rcases List.mem_cons.mp hc' with rfl | hc'
          · simp only [Shape.size, List.length_drop]
            omega
          · exact hsmall (List.mem_flatMap.mpr (by
              obtain ⟨d, hd, hcd⟩ := List.mem_flatMap.mp hc'
              exact ⟨d, List.mem_of_mem_drop hd, hcd⟩))
      · rw [hpm] at hc'
        exact h.small_rest (List.mem_append_right _ hc')
  · obtain ⟨k, hctx, hlevel⟩ := h.level_insertRight
    simp only [Frame.fill, level_node] at hlevel
    obtain ⟨k, rfl, hlevel⟩ := hlevel
    exact ⟨k + 1, hctx, fun c hc => hlevel c (List.mem_of_mem_take hc),
      fun c hc => hlevel c (List.mem_of_mem_drop hc)⟩
  · rw [leaves_node, leaves_node, ← List.flatMap_append, List.take_append_drop]
    have hlinked := h.linked
    simpa [leavesBefore, leavesAfter] using hlinked
  · rw [leaves_node, leaves_node, ← List.flatMap_append, List.take_append_drop]
    simp
  · have hmem : fr.ptr ∈ S := by
      refine hS _ ?_
      rw [← map_fst_flatMap_cells]
      exact ((flatMap_cells_focus_node ctx fr.ptr fr.keys (fr.left ++ L :: fr.right) [R]).map
        Prod.fst).mem_iff.mpr (List.mem_cons_self ..)
    refine hedit.trans ((edits_written db₁ ?_).trans (edits_written _ ?_))
    · exact Or.inl (hpm ▸ hmem)
    · exact Or.inr rfl
  · intro p hp
    rw [hpm] at hp
    rcases mem_ptrs_halves hp with rfl | hp
    · exact Or.inr rfl
    · exact Or.inl (hS p hp)

-- The new node gets a place in the tree, with all the splits this leads to further up.
theorem Parted.exec_attach {ctx : List PageFrame} {L R : PageTree} {s : String} {db : Database}
    {S : Set PageNum} (h : Parted db ctx L R s) (hS : ∀ p ∈ [plug ctx L, R].flatMap ptrs, p ∈ S)
    (hroot : (plug ctx L).ptr = root) :
    ∃ T db', Proc.exec (attach (L.ptr :: ctx.map Frame.ptr) L.ptr R.ptr s) (BTree.open root) db =
        (.ok (), BTree.open T.ptr, db') ∧
      Joined db S (leavesBefore ctx ++ (L.leaves ++ R.leaves) ++ leavesAfter ctx) T db' := by
  induction ctx generalizing L R s db S with
  | nil =>
    obtain ⟨T, db', he, hj⟩ := h.exec_createNewRoot root hS
    exact ⟨T, db', he, by simpa [leavesBefore, leavesAfter] using hj⟩
  | cons fr ctx ih =>
    obtain ⟨n, hn, hpage, hshape⟩ := h.parent
    have hrun : Proc.exec (attach (L.ptr :: (fr :: ctx).map Frame.ptr) L.ptr R.ptr s)
        (BTree.open root) db = Proc.exec (insertIntoParent (fr.ptr :: ctx.map Frame.ptr) n s R.ptr)
          (BTree.open root) db := by
      rw [List.map_cons, attach, Proc.exec_bind_ok (exec_readNode_at hn)]
      simp [redirect]
    rw [hrun]
    by_cases hfull : BTREE_ORDER < (TxBTree.insertChild n s R.ptr).keys.length
    · obtain ⟨promote, db₁, L₁, R₁, S₁, he₁, h₁, hptr, hleaves, hedit, hS₁⟩ :=
        h.exec_full hpage hshape hfull hS root (ctx.map Frame.ptr)
      have hroot₁ : (plug ctx L₁).ptr = root := by
        rw [← hroot]
        exact ptr_plug_congr ctx hptr
      obtain ⟨T, db', he, hj⟩ := ih h₁ hS₁ hroot₁
      refine ⟨T, db', ?_, ?_⟩
      · rw [insertIntoParent, if_neg (h.inPlace hshape), if_pos hfull, he₁, ← hptr]
        exact he
      · rw [hleaves] at hj
        have hj' := hj.after hedit
        simpa [leavesBefore, leavesAfter] using hj'
    · refine ⟨_, _, ?_, h.written_room hpage hshape (Nat.le_of_not_lt hfull) hS⟩
      have hptr : (plug ctx ((fr.insertRight s R).fill L)).ptr = root := by
        rw [← hroot]
        exact ptr_plug_congr ctx rfl
      rw [insertIntoParent, if_neg (h.inPlace hshape), if_neg hfull, exec_writeNode_open _ h.holds.pager, hptr]

end Full

end JasonDb.BTree
