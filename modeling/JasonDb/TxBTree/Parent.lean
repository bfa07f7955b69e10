import JasonDb.TxBTree.Split

namespace JasonDb.TxBTree

open Lib SearchTree

variable {t : TxBTree} {db : Database} {rank : Rank}

theorem Created.staleIn {t' : TxBTree} {db' : Database} {q : PageNum} {S : Set PageNum}
    {links : List PageNum} (hc : Created t db q t' db') (h : StaleIn t S links) :
    StaleIn t' S links := by
  intro c hc' hne
  rw [hc.act] at hne
  exact h c hc' hne

theorem Created.nodeAt {t' : TxBTree} {db' : Database} {q : PageNum} (hc : Created t db q t' db')
    (x : PageNum) : db'.nodeAt x = db.nodeAt x := by
  simp only [Database.nodeAt, hc.view]

-- A subtree at a hole was split in `L`, which is in the hole, and `R`, which is not in
-- the tree yet. `parent` is the node around the hole with its pointer to `L` current.
structure SplitChild (t : TxBTree) (db : Database) (rank : Rank) (fr : PageFrame)
    (ctx : List PageFrame) (L R : PageTree) (s : String) (parent : BTreeNode) : Prop where
  holds : Holds t db [plug (fr :: ctx) L, R]
  ranked : Ranked t db rank
  root : (plug (fr :: ctx) L).ptr = t.getCurrentRoot
  page : parent.pageNum = fr.ptr
  shape : parent.shape t.actualPage = fr.shape L.ptr
  outer : AllOuter (LeafOk rank) ⊥ ⊤ (fr :: ctx)
  lo : (holeRange ⊥ ⊤ (fr :: ctx)).1 < .key s
  hi : .key s < (holeRange ⊥ ⊤ (fr :: ctx)).2
  left : All (LeafOk rank) (holeRange ⊥ ⊤ (fr :: ctx)).1 (.key s) L
  right : All (LeafOk rank) (.key s) (holeRange ⊥ ⊤ (fr :: ctx)).2 R

-- Child pointers outside the parent, and those of the parent in memory, are stale
-- only if in `S`.
def SettledSplit (t : TxBTree) (db : Database) (fr : PageFrame) (ctx : List PageFrame)
    (L R : PageTree) (parent : BTreeNode) (S : Set PageNum) : Prop :=
  (∀ x ∈ [plug (fr :: ctx) L, R].flatMap ptrs, x ≠ fr.ptr →
    ∀ m, db.nodeAt x = some m → StaleIn t S m.links) ∧ StaleIn t S parent.links

section Insert

variable {fr : PageFrame} {ctx : List PageFrame} {L R : PageTree} {s : String} {parent : BTreeNode}

theorem SplitChild.act_right (h : SplitChild t db rank fr ctx L R s parent) :
    t.actualPage R.ptr = R.ptr :=
  actualPage_of_none (h.holds.live R.ptr (by simp [ptr_mem_ptrs])).2

-- The parent with the new child.
theorem SplitChild.insertChild (h : SplitChild t db rank fr ctx L R s parent) :
    (insertChild parent s R.ptr).shape t.actualPage = ((fr.insertRight s R).fill L).shape ∧
      (TxBTree.insertChild parent s R.ptr).keys = (fr.insertRight s R).keys := by
  obtain ⟨hctx, hleft, _⟩ := h.outer
  have hlt := (hctx.bounds bot_lt_top).2.1
  exact insertChild_hole h.shape h.act_right hleft hlt h.lo.le h.hi

theorem SplitChild.inPlace (h : SplitChild t db rank fr ctx L R s parent) :
    ¬ outOfPlace parent s = true := by
  obtain ⟨hctx, hleft, _⟩ := h.outer
  have hlt := (hctx.bounds bot_lt_top).2.1
  rw [outOfPlace_hole h.shape hleft hlt h.lo.le h.hi]
  exact Bool.false_ne_true

theorem SplitChild.ordered (h : SplitChild t db rank fr ctx L R s parent) :
    All (LeafOk rank) ⊥ ⊤ (plug ctx ((fr.insertRight s R).fill L)) := by
  obtain ⟨hctx, hleft, hright⟩ := h.outer
  have hlt := (hctx.bounds bot_lt_top).2.1
  exact (all_plug ctx _).mpr ⟨hctx, All.insertRight hleft hright hlt h.lo h.hi h.left h.right⟩

theorem SplitChild.links (h : SplitChild t db rank fr ctx L R s parent) {S : Set PageNum}
    (hS : StaleIn t S parent.links) : StaleIn t S (TxBTree.insertChild parent s R.ptr).links := by
  obtain ⟨htype, _, _⟩ := BTreeNode.shape_eq_node h.shape
  have htype' : (TxBTree.insertChild parent s R.ptr).nodeType = .internalNode := htype
  intro c hc hne
  simp only [BTreeNode.links, htype'] at hc
  rcases List.eq_or_mem_of_mem_insertIdx hc with rfl | hc
  · exact absurd h.act_right hne
  · exact hS c (by simpa [BTreeNode.links, htype] using hc) hne

theorem entries_insertRight (fr : PageFrame) (ctx : List PageFrame) (s : String) (L R : PageTree) :
    (plug ctx ((fr.insertRight s R).fill L)).entries =
      entriesBefore (fr :: ctx) ++ (L.entries ++ R.entries) ++ entriesAfter (fr :: ctx) := by
  simp [entries_plug, Frame.fill, Frame.insertRight, entries_node, entriesBefore, entriesAfter]

-- The parent has room: it is written, and the path above it updated.
theorem SplitChild.exec_room (h : SplitChild t db rank fr ctx L R s parent) {path : List PageNum}
    (hpath : PathTo t path ctx fr.ptr) :
    ∃ t' db' T' rank', Proc.exec (do
        let _ ← writeNode (TxBTree.insertChild parent s R.ptr)
        updatePathAfterModification path) t db = (.ok (), t', db') ∧
      Represents t' db' rank' T' ∧
      T'.entries = entriesBefore (fr :: ctx) ++ (L.entries ++ R.entries) ++ entriesAfter (fr :: ctx) ∧
      Extends t db t' db' ∧ Reuses t' [plug (fr :: ctx) L, R] [T'] ∧
      ∀ S, SettledSplit t db fr ctx L R parent S → Settled t' db' [T'] S := by
  obtain ⟨page, up, rfl, hpage⟩ := hpath.head
  obtain ⟨hshape, hkeys⟩ := h.insertChild
  have hpn : (TxBTree.insertChild parent s R.ptr).pageNum = fr.ptr := h.page
  have hold := flatMap_cells_focus_node ctx fr.ptr fr.keys (fr.left ++ L :: fr.right) [R]
  have hcell := hold.mem_iff.mpr (List.mem_cons_self ..)
  have hp0 : (TxBTree.insertChild parent s R.ptr).pageNum ≠ 0 := by
    rw [hpn]
    exact (h.holds.live_of_cell hcell).1.1
  have hperm : ((fr.left ++ L :: R :: fr.right) ++ []).Perm ((fr.left ++ L :: fr.right) ++ [R]) := by
    rw [List.append_nil]
    exact perm_children fr L R
  obtain ⟨q, t₁, db₁, he₁, hw, h₁⟩ := Holds.exec_writeInner
    (n := TxBTree.insertChild parent s R.ptr) (show Holds t db (plug ctx (node _ fr.keys
      (fr.left ++ L :: fr.right)) :: [R]) by rw [hpn]; exact h.holds)
    (show BTreeNode.shape _ _ = .node (fr.insertRight s R).keys
      ((fr.left ++ L :: R :: fr.right).map ptr) from hshape) hperm
  have hfull : plug ctx (node (TxBTree.insertChild parent s R.ptr).pageNum (fr.insertRight s R).keys
      (fr.left ++ L :: R :: fr.right)) = plug ctx ((fr.insertRight s R).fill L) := by
    rw [hpn]
    rfl
  rw [hfull, List.map_cons, List.map_nil] at h₁
  have hrank0 : rank fr.ptr = none := by
    by_contra hne
    obtain ⟨l, hl⟩ := Option.ne_none_iff_exists'.mp hne
    obtain ⟨s', hs, es, nx, rfl, _⟩ := h.ranked.link _ _ hl
    rw [h.holds.stores.stored _ hcell] at hs
    simp at hs
  have hr₁ := hw.ranked h.holds.wf hp0 h.ranked (fun l hl => by rw [hpn, hrank0] at hl; simp at hl)
  have hm₁ := hw.moved hp0 h.ranked
  have hrep : Represents t₁ db₁ _ ((plug ctx ((fr.insertRight s R).fill L)).mapPtr _) :=
    ⟨h₁, by
      rw [ptr_mapPtr, hm₁.root, ← h.root]
      exact congrArg _ (ptr_plug_congr ctx rfl), hr₁, h.ordered.mapPtr hm₁.leafOk⟩
  rw [mapPtr_plug] at hrep
  have hpath₁ := hpath.moved hm₁.act
  obtain ⟨t₂, db₂, g, rank₂, he₂, h₂, hm₂, hS₂⟩ := hrep.exec_updatePath
    (by simpa [Frame.insertRight] using hpath₁)
  refine ⟨t₂, db₂, _, rank₂, (Proc.exec_bind_ok he₁).trans he₂, h₂, ?_, hm₁.ext.trans hm₂.ext, ?_, ?_⟩
  · rw [entries_mapPtr, ← mapPtr_plug, entries_mapPtr, entries_insertRight]
  · have hsame : Reuses t [plug (fr :: ctx) L, R] [plug ctx ((fr.insertRight s R).fill L)] :=
      fun y hy => Or.inl ((flatMap_ptrs_focus_node hperm).mem_iff.mp hy)
    have hmoved := hm₁.reuses [plug ctx ((fr.insertRight s R).fill L)]
    rw [List.map_cons, List.map_nil, mapPtr_plug] at hmoved
    exact (hsame.trans hm₁.ext hmoved).trans hm₂.ext (hm₂.reuses _)
  · rintro S ⟨hS, hlinks⟩
    have hS₁ := Settled.wrote (F := [plug (fr :: ctx) L, R])
      (G := [plug ctx ((fr.insertRight s R).fill L)]) (S := S ∪ {page}) hw
      (fun y hy => Or.inr ((flatMap_ptrs_focus_node hperm).mem_iff.mp hy))
      (fun x hx hne m hm => (hS x hx (by rwa [hpn] at hne) m hm).mono fun _ => Or.inl)
      ((h.links hlinks).mono fun _ => Or.inl)
      (by
        rw [hpn]
        exact h.holds.wf.new_or_mem hpage S)
    rw [List.map_cons, List.map_nil, mapPtr_plug] at hS₁
    refine (hS₂ _ hS₁).mono ?_
    rintro x ⟨hx | hx, hxp⟩
    · exact hx
    · obtain rfl : x = page := hx
      simp at hxp

-- The parent is full: it is split in turn, with `promote` as the separator of its
-- halves.
structure SplitParent (t : TxBTree) (db : Database) (rank : Rank) (ctx : List PageFrame)
    (L R : PageTree) (promote : String) : Prop where
  holds : Holds t db [plug ctx L, R]
  ranked : Ranked t db rank
  root : (plug ctx L).ptr = t.getCurrentRoot
  outer : AllOuter (LeafOk rank) ⊥ ⊤ ctx
  lo : (holeRange ⊥ ⊤ ctx).1 < .key promote
  hi : .key promote < (holeRange ⊥ ⊤ ctx).2
  left : All (LeafOk rank) (holeRange ⊥ ⊤ ctx).1 (.key promote) L
  right : All (LeafOk rank) (.key promote) (holeRange ⊥ ⊤ ctx).2 R

theorem SplitChild.exec_full (h : SplitChild t db rank fr ctx L R s parent)
    (hfull : BTREE_ORDER < (TxBTree.insertChild parent s R.ptr).keys.length)
    (path : List PageNum) (k : BTreeNode → String → PageNum → TreeM Unit) :
    ∃ f promote t' db' rank' L' R',
      Proc.exec (splitInternal (TxBTree.insertChild parent s R.ptr) path k) t db =
        Proc.exec (match path with
          | oldNodePage :: parentPage :: _ => do
            let parent' ← readNode parentPage
            let parent' := if oldNodePage ≠ fr.ptr then
              { parent' with children := replaceChild oldNodePage fr.ptr parent'.children }
              else parent'
            k parent' promote R'.ptr
          | _ => createNewRoot fr.ptr R'.ptr promote) t' db' ∧
      SplitParent t' db' rank' (ctx.map (Frame.mapPtr f)) L' R' promote ∧
      Moved t db rank f t' db' rank' ∧ t'.actualPage fr.ptr = L'.ptr ∧
      L'.entries ++ R'.entries =
        fr.left.flatMap entries ++ (L.entries ++ R.entries) ++ fr.right.flatMap entries ∧
      Reuses t' [plug (fr :: ctx) L, R] [plug (ctx.map (Frame.mapPtr f)) L', R'] ∧
      ∀ S, SettledSplit t db fr ctx L R parent S →
        Settled t' db' [plug (ctx.map (Frame.mapPtr f)) L', R']
            (S ∪ {x | x = fr.ptr ∧ x ∉ t.newPages}) := by
  obtain ⟨hshape, hkeys⟩ := h.insertChild
  generalize hn : TxBTree.insertChild parent s R.ptr = n at hshape hkeys hfull
  have hpn : n.pageNum = fr.ptr := by
    rw [← hn]
    exact h.page
  have hold := flatMap_cells_focus_node ctx fr.ptr fr.keys (fr.left ++ L :: fr.right) [R]
  -- the page of the right half
  obtain ⟨r, t₀, db₀, halloc, hmark, hc⟩ := exec_allocNew h.holds.wf 0
  obtain ⟨h₀, hfresh⟩ := hc.holds h.holds
  obtain ⟨hr₀, hnone⟩ := hc.ranked h.ranked
  have hnew : r ∈ t₀.newPages := (hc.new r).mpr (Or.inl rfl)
  have hm₀ : Moved t db rank id t₀ db₀ rank := hc.moved
  obtain ⟨q, t₁, db₁, t₂, db₂, rank', he₁, he₂, h₂, hr₂, hm₂, hS₂⟩ :=
    exec_splitHalves (n := n) (show Holds t₀ db₀ (plug ctx (node n.pageNum fr.keys
        (fr.left ++ L :: fr.right)) :: [R]) by rw [hpn]; exact h₀) hr₀
      (by
        rw [hc.act, hshape, hkeys]
        rfl)
      (perm_children fr L R) (n.keys.length / 2) (by rw [hpn]; exact hfresh) hnew hnone
  have hm := hm₀.trans hm₂
  rw [Function.comp_id] at hm
  -- the separator between the halves
  have hall := h.ordered.mapPtr hm.leafOk
  rw [mapPtr_plug] at hall
  obtain ⟨houter, hnode⟩ := (all_plug _ _).mp hall
  have hforest : AllForest (LeafOk rank') (holeRange ⊥ ⊤ (ctx.map (Frame.mapPtr (relocate n.pageNum q)))).1
      (holeRange ⊥ ⊤ (ctx.map (Frame.mapPtr (relocate n.pageNum q)))).2 n.keys
      ((fr.left ++ L :: R :: fr.right).map (mapPtr (relocate n.pageNum q))) := by
    rw [hkeys]
    simpa [Frame.fill, Frame.insertRight, All] using hnode
  have hmid : n.keys.length / 2 < n.keys.length := by
    have : 0 < n.keys.length := by omega
    omega
  obtain ⟨promote, hpromote, hl, hlo, hhi, hr⟩ := hforest.halves hmid
  have hpl : (plug ctx (node n.pageNum (n.keys.take (n.keys.length / 2))
      ((fr.left ++ L :: R :: fr.right).take (n.keys.length / 2 + 1)))).mapPtr (relocate n.pageNum q) =
      plug (ctx.map (Frame.mapPtr (relocate n.pageNum q)))
        (node q (n.keys.take (n.keys.length / 2))
          (((fr.left ++ L :: R :: fr.right).take (n.keys.length / 2 + 1)).map
            (mapPtr (relocate n.pageNum q)))) := by
    rw [mapPtr_plug, mapPtr_node, relocate_self]
  have hrne : r ≠ n.pageNum := by
    intro he
    refine hfresh ?_
    rw [he, hpn, ← map_fst_flatMap_cells]
    exact (hold.map Prod.fst).mem_iff.mpr (List.mem_cons_self ..)
  have hforest₂ : [plug ctx (node n.pageNum (n.keys.take (n.keys.length / 2))
      ((fr.left ++ L :: R :: fr.right).take (n.keys.length / 2 + 1))),
      node r (n.keys.drop (n.keys.length / 2 + 1))
        ((fr.left ++ L :: R :: fr.right).drop (n.keys.length / 2 + 1))].map
          (mapPtr (relocate n.pageNum q)) =
      [plug (ctx.map (Frame.mapPtr (relocate n.pageNum q)))
        (node q (n.keys.take (n.keys.length / 2))
          (((fr.left ++ L :: R :: fr.right).take (n.keys.length / 2 + 1)).map
            (mapPtr (relocate n.pageNum q)))),
       node r (n.keys.drop (n.keys.length / 2 + 1))
        (((fr.left ++ L :: R :: fr.right).drop (n.keys.length / 2 + 1)).map
          (mapPtr (relocate n.pageNum q)))] := by
    rw [List.map_cons, List.map_cons, List.map_nil, hpl, mapPtr_node, relocate_of_ne hrne]
  rw [hforest₂] at h₂ hS₂
  refine ⟨relocate n.pageNum q, promote, t₂, db₂, rank', _, _, ?_,
    ⟨h₂, hr₂, ?_, houter, hlo, hhi, ?_, ?_⟩, hm, ?_, ?_, ?_, ?_⟩
  · unfold splitInternal
    simp only [allocPage]
    rw [Proc.exec_bind_ok halloc, Proc.exec_bind_ok hmark]
    simp only [hpromote]
    have he₁' : Proc.exec (writeNode (leftHalf n (n.keys.length / 2))) t₀ db₀ = (.ok q, t₁, db₁) := he₁
    have he₂' : Proc.exec (writeNode (rightHalf n (n.keys.length / 2) r)) t₁ db₁ =
      (.ok r, t₂, db₂) := he₂
    unfold leftHalf at he₁'
    unfold rightHalf at he₂'
    rw [Proc.exec_bind_ok he₁', Proc.exec_bind_ok he₂']
    simp only [hpn]
    rfl
  · rw [hm.root, ← h.root, ← hpl, ptr_mapPtr]
    refine congrArg _ (ptr_plug_congr ctx ?_)
    rw [hpn]
    rfl
  · rw [All, List.map_take]
    exact hl
  · rw [All, List.map_drop]
    exact hr
  · rw [hm.act, Function.comp_apply, ← hpn]
    have hlive := h.holds.live_of_cell (hold.mem_iff.mpr (List.mem_cons_self ..))
    rw [← hpn] at hlive
    rw [actualPage_of_none hlive.2, relocate_self]
    rfl
  · simp only [entries_node, List.flatMap_map, entries_mapPtr]
    rw [← List.flatMap_append, List.take_append_drop]
    simp
  · have hhalves : Reuses t₀ [plug (fr :: ctx) L, R] [plug ctx (node n.pageNum (n.keys.take (n.keys.length / 2))
        ((fr.left ++ L :: R :: fr.right).take (n.keys.length / 2 + 1))),
        node r (n.keys.drop (n.keys.length / 2 + 1))
          ((fr.left ++ L :: R :: fr.right).drop (n.keys.length / 2 + 1))] := by
      intro p hp
      rw [hpn] at hp
      rcases mem_ptrs_halves hp with rfl | hp
      · exact Or.inr hnew
      · exact Or.inl hp
    have hmoved := hhalves.trans hm₂.ext (hm₂.reuses _)
    rwa [hforest₂] at hmoved
  · rintro S ⟨hS, hlinks⟩
    refine hS₂ _ ?_ ?_ ?_
    · intro x hx hne m hm'
      rw [hpn] at hx hne
      rw [hc.nodeAt] at hm'
      exact hc.staleIn ((hS x hx hne m hm').mono fun _ => Or.inl)
    · rw [← hn]
      exact hc.staleIn ((h.links hlinks).mono fun _ => Or.inl)
    · rw [hpn]
      by_cases hfn : fr.ptr ∈ t.newPages
      · exact Or.inl (hc.ext.new _ hfn)
      · exact Or.inr (Or.inr ⟨rfl, hfn⟩)

-- The code's way to make the parent's pointer to the left half current.
def repoint (old new : PageNum) (n : BTreeNode) : BTreeNode :=
  if old ≠ new then { n with children := replaceChild old new n.children } else n

theorem SplitParent.child {n : BTreeNode} {old new : PageNum}
    (h : SplitParent t db rank (fr :: ctx) L R s) (hn : db.nodeAt fr.ptr = some n)
    (hold : t.actualPage old = L.ptr) (hnew : t.actualPage new = L.ptr) :
    SplitChild t db rank fr ctx L R s (repoint old new n) ∧
      ∀ S, Settled t db [plug (fr :: ctx) L, R] (S ∪ {old}) → StaleIn t S [new] →
        SettledSplit t db fr ctx L R (repoint old new n) S := by
  have hcell : (fr.ptr, fr.shape L.ptr) ∈ [plug (fr :: ctx) L, R].flatMap cells := by
    refine (flatMap_cells_focus_node ctx fr.ptr fr.keys (fr.left ++ L :: fr.right) [R]).mem_iff.mpr ?_
    simp [Frame.shape]
  obtain ⟨m, hm, hpage, hshape⟩ := h.holds.nodeAt hcell
  obtain rfl : n = m := Option.some.inj (hn.symm.trans hm)
  obtain ⟨htype, hkeys, hchildren⟩ := BTreeNode.shape_eq_node hshape
  have hshape' : (repoint old new n).shape t.actualPage = fr.shape L.ptr := by
    unfold repoint
    split
    · simp only [BTreeNode.shape, htype, map_replaceChild (hnew.trans hold.symm), hchildren, hkeys]
      rfl
    · exact hshape
  have hpage' : (repoint old new n).pageNum = fr.ptr := by
    unfold repoint
    split
    · exact hpage
    · exact hpage
  refine ⟨⟨h.holds, h.ranked, h.root, hpage', hshape', h.outer, h.lo, h.hi, h.left, h.right⟩, ?_⟩
  intro S hS hstale
  have hmem : fr.ptr ∈ [plug (fr :: ctx) L, R].flatMap ptrs := by
    rw [← map_fst_flatMap_cells]
    exact List.mem_map_of_mem hcell
  refine ⟨?_, ?_⟩
  · intro x hx hne m hm' c hc hact
    rcases hS x hx m hm' c hc hact with hc' | rfl
    · exact hc'
    · refine absurd (h.holds.link_unique hcell ?_ hx hm' hc) hne
      simp [Frame.shape, Shape.children, hold]
  · intro c hc hact
    unfold repoint at hc
    split at hc
    case isTrue hne =>
      have hnd : (n.children.map t.actualPage).Nodup := by
        rw [hchildren]
        exact h.holds.stores.children_nodup hcell
      have hlinks : c ∈ replaceChild old new n.children := by
        simpa [BTreeNode.links, htype] using hc
      rcases mem_replaceChild hnd hlinks with rfl | ⟨hc', hcne⟩
      · exact hstale c (by simp) hact
      · exact (hS fr.ptr hmem n hn c (by simpa [BTreeNode.links, htype] using hc') hact).resolve_right hcne
    case isFalse heq =>
      obtain rfl : old = new := by simpa using heq
      rcases hS fr.ptr hmem n hn c hc hact with hc' | rfl
      · exact hc'
      · exact hstale c (by simp) hact

end Insert

-- `insert_into_parent`, with all the splits it leads to further up.
theorem exec_insertIntoParent {path : List PageNum} {t : TxBTree} {db : Database} {rank : Rank}
    {fr : PageFrame} {ctx : List PageFrame} {L R : PageTree} {s : String} {parent : BTreeNode}
    (h : SplitChild t db rank fr ctx L R s parent) (hpath : PathTo t path ctx fr.ptr) :
    ∃ t' db' T' rank', Proc.exec (insertIntoParent path parent s R.ptr) t db = (.ok (), t', db') ∧
      Represents t' db' rank' T' ∧
      T'.entries = entriesBefore (fr :: ctx) ++ (L.entries ++ R.entries) ++ entriesAfter (fr :: ctx) ∧
      Extends t db t' db' ∧ Reuses t' [plug (fr :: ctx) L, R] [T'] ∧
      ∀ S, SettledSplit t db fr ctx L R parent S →
        Settled t' db' [T'] (S ∪ uncopied t (fr :: ctx)) := by
  induction path generalizing t db rank fr ctx L R s parent with
  | nil => simp [PathTo] at hpath
  | cons page up ih =>
    by_cases hfull : BTREE_ORDER < (insertChild parent s R.ptr).keys.length
    · have hrun : Proc.exec (insertIntoParent (page :: up) parent s R.ptr) t db =
          Proc.exec (splitInternal (insertChild parent s R.ptr) (page :: up)
            (insertIntoParent up)) t db := by
        rw [insertIntoParent, if_neg h.inPlace, if_pos hfull]
      obtain ⟨f, promote, t₁, db₁, rank₁, L₁, R₁, he₁, hsp, hm₁, hact, hentries, hreuse, hS₁⟩ :=
        h.exec_full hfull (page :: up) (insertIntoParent up)
      have hR₁ : t₁.actualPage R₁.ptr = R₁.ptr :=
        actualPage_of_none (hsp.holds.live R₁.ptr (by simp [ptr_mem_ptrs])).2
      have hstale : ∀ S, StaleIn t₁ (S ∪ {x | x = fr.ptr ∧ x ∉ t.newPages}) [fr.ptr] := by
        intro S c hc hne
        obtain rfl : c = fr.ptr := by simpa using hc
        refine Or.inr ⟨rfl, fun hnew => hne (hsp.holds.wf.of_new (hm₁.ext.new _ hnew))⟩
      have hsub : ∀ S, S ∪ {x | x = fr.ptr ∧ x ∉ t.newPages} ∪
          uncopied t₁ (ctx.map (Frame.mapPtr f)) ⊆ S ∪ uncopied t (fr :: ctx) := by
        have hlen : BTREE_ORDER < fr.keys.length + 1 := by
          rw [h.insertChild.2] at hfull
          simpa [Frame.keys, Frame.insertRight, Nat.add_assoc] using hfull
        rintro S x ((hx | ⟨rfl, hx⟩) | hx)
        · exact Or.inl hx
        · exact Or.inr ⟨by simp [fullPtrs_cons_of_lt hlen], hx⟩
        · obtain ⟨hx, hnew⟩ := uncopied_moved hm₁ ctx hx
          exact Or.inr ⟨by simp [fullPtrs_cons_of_lt hlen, hx], hnew⟩
      rw [hrun, he₁]
      obtain ⟨hpage, hup⟩ := List.cons.inj hpath
      cases ctx with
      | nil =>
        obtain rfl : up = [] := List.map_eq_nil_iff.mp hup
        obtain ⟨r, t₂, db₂, he₂, h₂, hroot, hr₂, hext, hreuse₂, hS₂⟩ :=
          exec_createNewRoot hsp.holds hsp.ranked hact hR₁ promote
        refine ⟨t₂, db₂, _, rank₁, he₂, ⟨h₂, hroot.symm, hr₂, ?_⟩, ?_, hm₁.ext.trans hext,
          hreuse.trans hext hreuse₂, ?_⟩
        · exact ⟨hsp.left, hsp.lo, hsp.hi, hsp.right⟩
        · simp only [entries_node, List.flatMap_cons, List.flatMap_nil, List.append_nil]
          change L₁.entries ++ R₁.entries = _
          rw [hentries]
          simp [entriesBefore, entriesAfter]
        · intro S hS
          refine (hS₂ _ (hS₁ S hS) ?_).mono (fun x hx => hsub S (Or.inl hx))
          intro c hc hne
          rcases List.mem_cons.mp hc with rfl | hc
          · exact hstale S fr.ptr (by simp) hne
          · obtain rfl : c = R₁.ptr := by simpa using hc
            exact absurd hR₁ hne
      | cons fr' ctx' =>
        obtain ⟨parentPage, up', rfl⟩ : ∃ a b, up = a :: b := by
          cases up with
          | nil => simp at hup
          | cons a b => exact ⟨a, b, rfl⟩
        simp only [List.map_cons] at hup
        obtain ⟨hparent, hup⟩ := List.cons.inj hup
        have hcell : ((fr'.mapPtr f).ptr, (fr'.mapPtr f).shape L₁.ptr) ∈
            [plug ((fr' :: ctx').map (Frame.mapPtr f)) L₁, R₁].flatMap cells := by
          refine (flatMap_cells_focus_node (ctx'.map (Frame.mapPtr f)) (fr'.mapPtr f).ptr
            (fr'.mapPtr f).keys ((fr'.mapPtr f).left ++ L₁ :: (fr'.mapPtr f).right)
            [R₁]).mem_iff.mpr ?_
          simp [Frame.shape]
        obtain ⟨n, hread, hn, _, _⟩ := hsp.holds.exec_readNode hcell
          (r := parentPage) (by rw [hm₁.act, Function.comp_apply, hparent]; rfl)
        have hpage₁ : t₁.actualPage page = L₁.ptr := by
          rw [← hact, hm₁.act, Function.comp_apply, Function.comp_apply, hpage]
          have hlive := (h.holds.live fr.ptr (by
            simp only [List.flatMap_cons, List.mem_append]
            refine Or.inl ?_
            rw [← List.append_nil (ptrs _), ← List.flatMap_nil (f := ptrs), ← List.flatMap_cons,
              ← map_fst_flatMap_cells]
            exact ((flatMap_cells_focus_node _ fr.ptr fr.keys _ []).map Prod.fst).mem_iff.mpr
              (List.mem_cons_self ..))).2
          rw [actualPage_of_none hlive]
        obtain ⟨hchild, hSchild⟩ := hsp.child hn hpage₁ hact
        obtain ⟨t₂, db₂, T', rank₂, he₂, h₂, hentries₂, hext, hreuse₂, hS₂⟩ := ih hchild (by
          simp only [PathTo, List.map_cons, hm₁.act, Function.comp_apply, hparent, Frame.ptr_mapPtr,
            List.map_map]
          refine congrArg _ ?_
          have := congrArg (List.map f) hup
          simpa [Function.comp_def] using this)
        refine ⟨t₂, db₂, T', rank₂, ?_, h₂, ?_, hm₁.ext.trans hext, hreuse.trans hext hreuse₂, ?_⟩
        · rw [Proc.exec_bind_ok hread]
          exact he₂
        · rw [hentries₂, hentries]
          have hb : entriesBefore (fr'.mapPtr f :: ctx'.map (Frame.mapPtr f)) =
              entriesBefore (fr' :: ctx') := entriesBefore_mapPtr f (fr' :: ctx')
          have ha : entriesAfter (fr'.mapPtr f :: ctx'.map (Frame.mapPtr f)) =
              entriesAfter (fr' :: ctx') := entriesAfter_mapPtr f (fr' :: ctx')
          rw [hb, ha]
          simp [entriesBefore, entriesAfter]
        · intro S hS
          refine (hS₂ _ (hSchild _ ((hS₁ S hS).mono fun x hx => Or.inl hx) (hstale S))).mono ?_
          exact hsub S
    · have hrun : Proc.exec (insertIntoParent (page :: up) parent s R.ptr) t db =
          Proc.exec (do
            let _ ← writeNode (insertChild parent s R.ptr)
            updatePathAfterModification (page :: up)) t db := by
        rw [insertIntoParent, if_neg h.inPlace, if_neg hfull]
      obtain ⟨t', db', T', rank', he, hrep, hentries, hext, hreuse, hS⟩ := h.exec_room hpath
      exact ⟨t', db', T', rank', hrun.trans he, hrep, hentries, hext, hreuse,
        fun S hS' => (hS S hS').mono fun _ => Or.inl⟩

end JasonDb.TxBTree
