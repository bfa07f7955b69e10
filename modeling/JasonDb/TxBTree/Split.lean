import JasonDb.TxBTree.Update

namespace JasonDb.TxBTree

open Lib SearchTree

variable {t : TxBTree} {db : Database} {rank : Rank}

theorem insertIdx_append_length {α : Type} (l₁ l₂ : List α) (x : α) :
    (l₁ ++ l₂).insertIdx l₁.length x = l₁ ++ x :: l₂ := by
  induction l₁ with
  | nil => rfl
  | cons a l₁ ih => simp [List.insertIdx_succ_cons, ih]

section Hole

variable {Q : LeafPred PageNum String LeafEntry} {f : PageNum → PageNum} {n : BTreeNode}
  {fr : PageFrame} {L R : PageTree} {lo hi : Bound String} {s : String}

-- Where a node goes into its parent: behind the hole.
theorem findIdx_shape (hshape : n.shape f = fr.shape L.ptr)
    (hleft : AllLeft Q lo hi fr.lkeys fr.left) (hlt : lo < hi)
    (hlo : loOf lo fr.lkeys ≤ .key s) (hhi : .key s < hiOf hi fr.rkeys) :
    (n.keys.findIdx? (s < ·)).getD n.keys.length = fr.lkeys.length := by
  obtain ⟨_, hkeys, _⟩ := BTreeNode.shape_eq_node hshape
  rw [hkeys, findIdx_hole hleft hlt hlo hhi]
  by_cases hr : fr.rkeys = []
  · simp [hr, Frame.keys]
  · simp [hr]

theorem outOfPlace_hole (hshape : n.shape f = fr.shape L.ptr)
    (hleft : AllLeft Q lo hi fr.lkeys fr.left) (hlt : lo < hi)
    (hlo : loOf lo fr.lkeys ≤ .key s) (hhi : .key s < hiOf hi fr.rkeys) :
    outOfPlace n s = false := by
  obtain ⟨_, _, hchildren⟩ := BTreeNode.shape_eq_node hshape
  have hlen : n.children.length = fr.left.length + (fr.right.length + 1) := by
    rw [← List.length_map f, hchildren]
    simp
  unfold outOfPlace
  rw [findIdx_shape hshape hleft hlt hlo hhi, fr.balanced, hlen]
  exact decide_eq_false (by omega)

-- `insert_into_parent` puts the new child right of the one that was split.
theorem insertChild_hole (hshape : n.shape f = fr.shape L.ptr) (hf : f R.ptr = R.ptr)
    (hleft : AllLeft Q lo hi fr.lkeys fr.left) (hlt : lo < hi)
    (hlo : loOf lo fr.lkeys ≤ .key s) (hhi : .key s < hiOf hi fr.rkeys) :
    (insertChild n s R.ptr).shape f = ((fr.insertRight s R).fill L).shape ∧
      (insertChild n s R.ptr).keys = (fr.insertRight s R).keys := by
  obtain ⟨htype, hkeys, hchildren⟩ := BTreeNode.shape_eq_node hshape
  have hpos := findIdx_shape hshape hleft hlt hlo hhi
  have hk : (insertChild n s R.ptr).keys = fr.lkeys ++ s :: fr.rkeys := by
    simp only [insertChild]
    rw [hpos, hkeys, Frame.keys, insertIdx_append_length]
  have hc : (insertChild n s R.ptr).children.map f =
      fr.left.map ptr ++ L.ptr :: R.ptr :: fr.right.map ptr := by
    simp only [insertChild]
    rw [hpos, List.map_insertIdx, hchildren, hf, fr.balanced]
    have := insertIdx_append_length (fr.left.map ptr ++ [L.ptr]) (fr.right.map ptr) R.ptr
    simpa using this
  refine ⟨?_, hk⟩
  have htype' : (insertChild n s R.ptr).nodeType = .internalNode := htype
  simp only [BTreeNode.shape, htype', hk, hc, Frame.fill, Frame.insertRight, Frame.keys,
    SearchTree.shape, List.map_append, List.map_cons]

end Hole

theorem WF.of_new (h : t.WF db) {p : PageNum} (hp : p ∈ t.newPages) : t.actualPage p = p := by
  refine actualPage_of_none ?_
  by_contra hc
  obtain ⟨q, hq⟩ := Option.ne_none_iff_exists'.mp hc
  exact (h.copied p q hq).2.1 hp

theorem Rank.move_self (rank : Rank) (p : PageNum) : rank.move p p = rank :=
  Function.update_eq_self p rank

-- `create_new_root` over the two halves of the old one.
theorem exec_createNewRoot {L R : PageTree} {left right : PageNum} (h : Holds t db [L, R])
    (hr : Ranked t db rank) (hl : t.actualPage left = L.ptr) (hrt : t.actualPage right = R.ptr)
    (key : String) :
    ∃ r t' db', Proc.exec (createNewRoot left right key) t db = (.ok (), t', db') ∧
      Holds t' db' [node r [key] [L, R]] ∧ t'.getCurrentRoot = r ∧ Ranked t' db' rank ∧
      Extends t db t' db' ∧ Reuses t' [L, R] [node r [key] [L, R]] ∧
      ∀ S, Settled t db [L, R] S → StaleIn t S [left, right] →
        Settled t' db' [node r [key] [L, R]] S := by
  obtain ⟨r, t₁, db₁, ha, hmark, hc⟩ := exec_allocNew h.wf t.getCurrentRoot
  obtain ⟨h₁, hfresh⟩ := hc.holds h
  obtain ⟨hr₁, hnone⟩ := hc.ranked hr
  have hnew : r ∈ t₁.newPages := (hc.new r).mpr (Or.inl rfl)
  have hcells : ([node r [key] [L, R]].flatMap cells).Perm
      ((r, .node [key] [t₁.actualPage left, t₁.actualPage right]) :: [L, R].flatMap cells) := by
    simp [cells_node, hc.act, hl, hrt]
  obtain ⟨t₂, db₂, hwrite, hw, h₂⟩ := h₁.exec_writeNew
    (n := { BTreeNode.newInternal r with keys := [key], children := [left, right], numKeys := 1 })
    hcells hfresh hnew
  have hr₂ := hw.ranked (n := { BTreeNode.newInternal r with
    keys := [key], children := [left, right], numKeys := 1 }) h₁.wf hc.used.1 hr₁
    (fun l hl => by simp [BTreeNode.newInternal, hnone] at hl)
  rw [show (BTreeNode.newInternal r).pageNum = r from rfl, Rank.move_self] at hr₂
  have hcow : t₂.cowPages.get? r = none := (h₂.live r (by simp [ptrs_node])).2
  have hr0 : r ≠ 0 := hc.used.1
  refine ⟨r, { t₂ with modifiedRoot := r }, db₂, ?_, ⟨⟨h₂.wf.pager, h₂.wf.copied, h₂.wf.created,
    h₂.wf.coherent, ?_⟩, h₂.stores, h₂.live⟩, ?_, ⟨hr₂.link, hr₂.alloc, hr₂.act⟩, ?_, ?_, ?_⟩
  · unfold createNewRoot
    rw [Proc.exec_bind_ok (Proc.exec_getLocal t db), Proc.exec_bind_ok ha,
      Proc.exec_bind_ok hmark, Proc.exec_bind_ok hwrite]
    rfl
  · simpa [getCurrentRoot, hr0] using hcow
  · simp [getCurrentRoot, hr0]
  · have hext := hc.ext.trans hw.ext
    exact ⟨hext.new, hext.fresh, hext.alloc, hext.view, hext.writes, hext.snapshot, hext.shared,
      hext.pager⟩
  · intro p hp
    simp only [List.flatMap_cons, List.flatMap_nil, List.append_nil, ptrs_node, List.mem_cons] at hp ⊢
    rcases hp with rfl | hp
    · exact Or.inr (hw.ext.new _ hnew)
    · exact Or.inl hp
  · intro S hS hlinks
    have hS₁ : Settled t₁ db₁ [L, R] S := by
      intro x hx m hm c hc' hne
      rw [hc.act] at hne
      refine hS x hx m ?_ c hc' hne
      simpa [Database.nodeAt, hc.view] using hm
    have hS₂ := Settled.wrote (F := [L, R]) (G := [node r [key] [L, R]]) (S := S) hw
      (fun y hy => by simpa [ptrs_node, BTreeNode.newInternal] using hy)
      (fun x hx _ m hm => hS₁ x hx m hm)
      (fun c hc' hne => hlinks c hc' (by rwa [hc.act] at hne)) (Or.inl hnew)
    have hid : [node r [key] [L, R]].map
        (mapPtr (relocate (BTreeNode.newInternal r).pageNum (BTreeNode.newInternal r).pageNum)) =
        [node r [key] [L, R]] := by
      rw [relocate_refl]
      simp [mapPtr_id]
    rw [hid] at hS₂
    exact hS₂

-- The pages of the inner nodes that split when a child of the innermost one does.
def fullPtrs (ctx : List PageFrame) : List PageNum :=
  (ctx.takeWhile fun fr => BTREE_ORDER ≤ fr.keys.length).map Frame.ptr

-- Those of them this handle has no copy of.
def uncopied (t : TxBTree) (ctx : List PageFrame) : Set PageNum :=
  {x | x ∈ fullPtrs ctx ∧ x ∉ t.newPages}

theorem fullPtrs_cons_of_lt {fr : PageFrame} {ctx : List PageFrame}
    (h : BTREE_ORDER < fr.keys.length + 1) : fullPtrs (fr :: ctx) = fr.ptr :: fullPtrs ctx := by
  simp [fullPtrs, Nat.lt_succ_iff.mp h]

theorem mem_fullPtrs_mapPtr {f : PageNum → PageNum} {ctx : List PageFrame} {x : PageNum}
    (h : x ∈ fullPtrs (ctx.map (Frame.mapPtr f))) : ∃ y ∈ fullPtrs ctx, f y = x := by
  unfold fullPtrs at h ⊢
  rw [List.takeWhile_map, List.map_map] at h
  obtain ⟨fr, hfr, rfl⟩ := List.mem_map.mp h
  exact ⟨fr.ptr, List.mem_map_of_mem hfr, rfl⟩

theorem uncopied_moved {t' : TxBTree} {db' : Database} {rank' : Rank} {f : PageNum → PageNum}
    (hm : Moved t db rank f t' db' rank') (ctx : List PageFrame) :
    uncopied t' (ctx.map (Frame.mapPtr f)) ⊆ uncopied t ctx := by
  rintro x ⟨hx, hnew⟩
  obtain ⟨y, hy, rfl⟩ := mem_fullPtrs_mapPtr hx
  rcases hm.fresh y with hf | hf
  · rw [hf] at hnew ⊢
    exact ⟨hy, fun hy' => hnew (hm.ext.new y hy')⟩
  · exact absurd hf hnew

-- A node is written in two parts: the first where the node was, the second to a
-- page of its own. `G` is the forest after the first write.
theorem Holds.exec_writeTwo {F G H : List PageTree} {a b : BTreeNode} {s : PageShape}
    {rest : List (PageNum × PageShape)} (h : Holds t db F)
    (hold : (F.flatMap cells).Perm ((a.pageNum, s) :: rest))
    (hG : (G.flatMap cells).Perm ((a.pageNum, a.shape t.actualPage) :: rest))
    (hH : (H.flatMap cells).Perm ((b.pageNum, b.shape t.actualPage) :: G.flatMap cells))
    (hfresh : b.pageNum ∉ F.flatMap ptrs) (hnew : b.pageNum ∈ t.newPages) :
    ∃ q t₁ db₁ t₂ db₂, Proc.exec (writeNode a) t db = (.ok q, t₁, db₁) ∧
      Wrote t db a q t₁ db₁ ∧ Proc.exec (writeNode b) t₁ db₁ = (.ok b.pageNum, t₂, db₂) ∧
      Wrote t₁ db₁ b b.pageNum t₂ db₂ ∧ q ≠ b.pageNum ∧
      Holds t₂ db₂ (H.map (mapPtr (relocate a.pageNum q))) ∧
      ∀ S, (∀ x ∈ F.flatMap ptrs, x ≠ a.pageNum →
          ∀ m, db.nodeAt x = some m → StaleIn t S m.links) →
        StaleIn t S a.links → StaleIn t S b.links →
        (a.pageNum ∈ t.newPages ∨ a.pageNum ∈ S) →
        Settled t₂ db₂ (H.map (mapPtr (relocate a.pageNum q))) S := by
  have hlive := h.live_of_cell (hold.mem_iff.mpr (List.mem_cons_self ..))
  have hptrs : ∀ y, y ∈ G.flatMap ptrs ↔ y ∈ F.flatMap ptrs := by
    intro y
    rw [← map_fst_flatMap_cells, ← map_fst_flatMap_cells, (hold.map Prod.fst).mem_iff,
      (hG.map Prod.fst).mem_iff]
    rfl
  have hne : a.pageNum ≠ b.pageNum := by
    intro he
    refine hfresh (he ▸ ?_)
    rw [← map_fst_flatMap_cells]
    exact (hold.map Prod.fst).mem_iff.mpr (List.mem_cons_self ..)
  obtain ⟨q, t₁, db₁, he₁, hw₁, h₁⟩ :=
    h.exec_write (Or.inr ⟨s, hold⟩) hG (h.stores.not_mem_rest hold) hlive
  have hqne : q ≠ b.pageNum := by
    intro he
    rcases hw₁.target with ⟨_, ht⟩ | ⟨_, ht⟩
    · exact hne (ht.symm.trans he)
    · exact ht (he ▸ h.wf.created _ hnew)
  have hcells : ((H.map (mapPtr (relocate a.pageNum q))).flatMap cells).Perm
      ((b.pageNum, b.shape t₁.actualPage) ::
        (G.map (mapPtr (relocate a.pageNum q))).flatMap cells) := by
    rw [flatMap_cells_mapPtr, flatMap_cells_mapPtr, hw₁.act, BTreeNode.shape_comp]
    have := hH.map (Prod.map (relocate a.pageNum q) (Shape.mapPtr (relocate a.pageNum q)))
    rwa [List.map_cons, Prod.map_apply, relocate_of_ne hne.symm] at this
  have hfresh₁ : b.pageNum ∉ (G.map (mapPtr (relocate a.pageNum q))).flatMap ptrs := by
    intro hmem
    rw [List.flatMap_map] at hmem
    simp only [ptrs_mapPtr, ← List.map_flatMap, List.mem_map] at hmem
    obtain ⟨y, hy, hyr⟩ := hmem
    by_cases hyn : y = a.pageNum
    · rw [hyn, relocate_self] at hyr
      exact hqne hyr
    · rw [relocate_of_ne hyn] at hyr
      exact hfresh (hyr ▸ (hptrs y).mp hy)
  obtain ⟨t₂, db₂, he₂, hw₂, h₂⟩ := h₁.exec_writeNew hcells hfresh₁ (hw₁.ext.new _ hnew)
  refine ⟨q, t₁, db₁, t₂, db₂, he₁, hw₁, he₂, hw₂, hqne, h₂, ?_⟩
  intro S hF ha hb hS
  have hS₁ : Settled t₁ db₁ (G.map (mapPtr (relocate a.pageNum q))) S :=
    Settled.wrote hw₁ (fun y hy => Or.inr ((hptrs y).mp hy)) hF ha hS
  have hsub : ∀ y ∈ (H.map (mapPtr (relocate a.pageNum q))).flatMap ptrs,
      y = b.pageNum ∨ y ∈ (G.map (mapPtr (relocate a.pageNum q))).flatMap ptrs := by
    intro y hy
    rw [← map_fst_flatMap_cells] at hy ⊢
    exact List.mem_cons.mp ((hcells.map Prod.fst).mem_iff.mp hy)
  have := Settled.wrote hw₂ hsub (fun x hx _ m hm => hS₁ x hx m hm) (hb.wrote hw₁ hS)
    (Or.inl (hw₁.ext.new _ hnew))
  rwa [relocate_refl, List.map_congr_left (fun u _ => mapPtr_id u), List.map_id'] at this

def leftHalf (n : BTreeNode) (mid : Nat) : BTreeNode :=
  { n with keys := n.keys.take mid, children := n.children.take (mid + 1), numKeys := mid }

def rightHalf (n : BTreeNode) (mid : Nat) (r : PageNum) : BTreeNode :=
  { BTreeNode.newInternal r with
    keys := n.keys.drop (mid + 1)
    children := n.children.drop (mid + 1)
    numKeys := (n.keys.drop (mid + 1)).length }

-- The two halves of an inner node are written. `X` has the child that is in no node
-- of the tree yet.
theorem exec_splitHalves {n : BTreeNode} {ctx : List PageFrame} {keys : List String}
    {children children' X : List PageTree} {r : PageNum}
    (h : Holds t db (plug ctx (node n.pageNum keys children) :: X)) (hr : Ranked t db rank)
    (hshape : n.shape t.actualPage = .node n.keys (children'.map ptr))
    (hperm : children'.Perm (children ++ X)) (mid : Nat)
    (hfresh : r ∉ (plug ctx (node n.pageNum keys children) :: X).flatMap ptrs)
    (hnew : r ∈ t.newPages) (hnone : rank r = none) :
    ∃ q t₁ db₁ t₂ db₂ rank',
      Proc.exec (writeNode (leftHalf n mid)) t db = (.ok q, t₁, db₁) ∧
      Proc.exec (writeNode (rightHalf n mid r)) t₁ db₁ = (.ok r, t₂, db₂) ∧
      Holds t₂ db₂ ([plug ctx (node n.pageNum (n.keys.take mid) (children'.take (mid + 1))),
        node r (n.keys.drop (mid + 1)) (children'.drop (mid + 1))].map
          (mapPtr (relocate n.pageNum q))) ∧
      Ranked t₂ db₂ rank' ∧ Moved t db rank (relocate n.pageNum q) t₂ db₂ rank' ∧
      ∀ S, (∀ x ∈ (plug ctx (node n.pageNum keys children) :: X).flatMap ptrs, x ≠ n.pageNum →
          ∀ m, db.nodeAt x = some m → StaleIn t S m.links) → StaleIn t S n.links →
        (n.pageNum ∈ t.newPages ∨ n.pageNum ∈ S) →
        Settled t₂ db₂ ([plug ctx (node n.pageNum (n.keys.take mid) (children'.take (mid + 1))),
          node r (n.keys.drop (mid + 1)) (children'.drop (mid + 1))].map
            (mapPtr (relocate n.pageNum q))) S := by
  obtain ⟨htype, _, hch⟩ := BTreeNode.shape_eq_node hshape
  have hold := flatMap_cells_focus_node ctx n.pageNum keys children X
  have hcell := hold.mem_iff.mpr (List.mem_cons_self ..)
  have hlive := h.live_of_cell hcell
  have hG : ((plug ctx (node n.pageNum (n.keys.take mid) (children'.take (mid + 1))) ::
      children'.drop (mid + 1)).flatMap cells).Perm
      ((n.pageNum, (leftHalf n mid).shape t.actualPage) ::
        ((children ++ X).flatMap cells ++ outerCells ctx n.pageNum)) := by
    refine (flatMap_cells_focus_node ctx n.pageNum _ _ _).trans ?_
    rw [List.take_append_drop]
    have hs : (leftHalf n mid).shape t.actualPage =
        .node (n.keys.take mid) ((children'.take (mid + 1)).map ptr) := by
      simp [BTreeNode.shape, leftHalf, htype, List.map_take, hch]
    rw [hs]
    exact List.Perm.cons _ (List.Perm.append_right _ (hperm.flatMap_right _))
  have hF' : ([plug ctx (node n.pageNum (n.keys.take mid) (children'.take (mid + 1))),
      node r (n.keys.drop (mid + 1)) (children'.drop (mid + 1))].flatMap cells).Perm
      ((r, (rightHalf n mid r).shape t.actualPage) ::
        (plug ctx (node n.pageNum (n.keys.take mid) (children'.take (mid + 1))) ::
          children'.drop (mid + 1)).flatMap cells) := by
    have hs : (rightHalf n mid r).shape t.actualPage =
        .node (n.keys.drop (mid + 1)) ((children'.drop (mid + 1)).map ptr) := by
      simp [BTreeNode.shape, rightHalf, BTreeNode.newInternal, List.map_drop, hch]
    simp only [List.flatMap_cons, List.flatMap_nil, List.append_nil, cells_node, hs]
    exact List.perm_middle
  obtain ⟨q, t₁, db₁, t₂, db₂, he₁, hw₁, he₂, hw₂, hqr, h₂, hS⟩ :=
    h.exec_writeTwo (a := leftHalf n mid) (b := rightHalf n mid r) hold hG hF' hfresh hnew
  have hrank0 : rank n.pageNum = none := by
    by_contra hne
    obtain ⟨l, hl⟩ := Option.ne_none_iff_exists'.mp hne
    obtain ⟨s, hs, es, nx, rfl, _⟩ := hr.link _ _ hl
    rw [h.stores.stored _ hcell] at hs
    simp at hs
  have hp0 : (leftHalf n mid).pageNum ≠ 0 := hlive.1.1
  have hr0 : (rightHalf n mid r).pageNum ≠ 0 := (h.wf.created r hnew).1
  have hr₁ := hw₁.ranked h.wf hp0 hr (fun l hl => by simp [leftHalf, hrank0] at hl)
  have hr₂ := hw₂.ranked hw₁.wf hr0 hr₁ (fun l hl => by
    rw [Rank.move, Function.update_of_ne (Ne.symm hqr)] at hl
    simp [rightHalf, BTreeNode.newInternal, hnone] at hl)
  have hm := (hw₁.moved hp0 hr).trans (hw₂.moved hr0 hr₁)
  rw [relocate_refl, Function.id_comp] at hm
  refine ⟨q, t₁, db₁, t₂, db₂, _, he₁, he₂, h₂, hr₂, hm, ?_⟩
  intro S hF hn hnS
  refine hS S hF ?_ ?_ hnS
  · intro c hc
    simp only [BTreeNode.links, leftHalf, htype] at hc
    exact hn c (by simpa [BTreeNode.links, htype] using List.mem_of_mem_take hc)
  · intro c hc
    simp only [BTreeNode.links, rightHalf, BTreeNode.newInternal] at hc
    exact hn c (by simpa [BTreeNode.links, htype] using List.mem_of_mem_drop hc)

end JasonDb.TxBTree
