import JasonDb.TxBTree.Redirect
import JasonDb.TxBTree.SplitLeaf

namespace JasonDb.TxBTree

open Lib SearchTree

variable {t : TxBTree} {db : Database} {rank : Rank} {ctx : List PageFrame} {n : BTreeNode}
  {t' : TxBTree} {db' : Database} {es : List LeafEntry} {nx : PageNum} {key : String} {value : PageNum}

theorem Represents.leafOk (h : Represents t db rank (plug ctx (leaf n.pageNum es nx))) :
    LeafOk rank (holeRange ⊥ ⊤ ctx).1 (holeRange ⊥ ⊤ ctx).2 n.pageNum es nx :=
  ((all_plug ctx _).mp h.ordered).2

-- A leaf with an entry beyond the last one of the leaf at the hole lies after it.
theorem Represents.hole_before (h : Represents t db rank (plug ctx (leaf n.pageNum es nx)))
    {last e : LeafEntry} {ctx' : List PageFrame} {q nx' : PageNum} {es' : List LeafEntry}
    (heq : plug ctx (leaf n.pageNum es nx) = plug ctx' (leaf q es' nx'))
    (hlo : (holeRange ⊥ ⊤ ctx).1 ≤ .key last.key) (hlast : ∀ d ∈ es, d.key ≤ last.key)
    (he : e ∈ es') (hlt : last.key < e.key) :
    ∃ l, rank q = some l ∧ (holeRange ⊥ ⊤ ctx).2 ≤ l := by
  have h' := h
  rw [heq] at h'
  have hok := ((all_plug ctx' _).mp h'.ordered).2
  refine ⟨_, hok.2.1, ?_⟩
  by_cases hq : n.pageNum = q
  · -- both are the same leaf
    subst hq
    obtain ⟨m, hm, _, hs⟩ := h.subtree
    obtain ⟨m', hm', _, hs'⟩ := h'.subtree
    obtain rfl : m = m' := Option.some.inj (hm.symm.trans hm')
    obtain ⟨rfl, _⟩ : es = es' ∧ nx = nx' := by
      have := hs.symm.trans hs'
      simpa [SearchTree.shape] using this
    exact absurd (hlast e he) (not_le_of_gt hlt)
  · rcases h.ordered.ranges_disjoint bot_lt_top heq hq with hle | hle
    · exact hle
    · have hhi := (hok.1.2 e he).2
      have hbound : Bound.key e.key < .key last.key := lt_of_lt_of_le (lt_of_lt_of_le hhi hle) hlo
      exact absurd (Bound.key_lt_key.mp hbound) (not_lt_of_gt hlt)

-- What `insert` writes as the link of a leaf leads to leaves after it.
theorem Represents.reads_repairNextLeaf {m : BTreeNode}
    (h : Represents t db rank (plug ctx (leaf n.pageNum es nx)))
    (hnx : t.actualPage m.nextLeaf = nx)
    (hlo : ∀ last, m.entries.getLast? = some last →
      (holeRange ⊥ ⊤ ctx).1 ≤ .key last.key ∧ ∀ d ∈ es, d.key ≤ last.key) :
    Reads t db (repairNextLeaf (db.pager.numPages + 1) m) fun m' =>
      ∃ next, m' = { m with nextLeaf := next } ∧ (t.actualPage next ≠ 0 →
        ∃ l, rank (t.actualPage next) = some l ∧ (holeRange ⊥ ⊤ ctx).2 ≤ l) := by
  have hkeep : ∃ next, m = { m with nextLeaf := next } ∧ (t.actualPage next ≠ 0 →
      ∃ l, rank (t.actualPage next) = some l ∧ (holeRange ⊥ ⊤ ctx).2 ≤ l) :=
    ⟨m.nextLeaf, rfl, by rw [hnx]; exact h.leafOk.2.2⟩
  by_cases hz : m.nextLeaf = 0
  · exact ⟨m, by simp [repairNextLeaf, hz, Proc.exec_pure], hkeep⟩
  · obtain ⟨root, hroot, _, _⟩ := h.plug_nil.subtree
    have hact : t.actualPage t.getCurrentRoot = (plug ctx (leaf n.pageNum es nx)).ptr := by
      rw [actualPage_of_none h.holds.wf.root, h.root]
    have hread := TxBTree.exec_readNode h.holds.wf (hact ▸ hroot)
    have hheight := h.holds.height_le
    unfold Reads repairNextLeaf
    simp only [hz, ↓reduceIte]
    rw [Proc.exec_bind_ok (Proc.exec_getLocal t db), Proc.exec_bind_ok hread]
    cases htype : root.nodeType with
    | leafNode => exact ⟨m, rfl, hkeep⟩
    | internalNode =>
      simp only
      obtain ⟨found, hfound, _⟩ := h.plug_nil.reads_isPageInTree hroot
        (Nat.le_succ_of_le hheight) m.nextLeaf
      rw [Proc.exec_bind_ok hfound]
      cases found with
      | some u => exact ⟨m, rfl, hkeep⟩
      | none =>
        simp only
        cases hlast : m.entries.getLast? with
        | none =>
          refine ⟨m, ?_, hkeep⟩
          simp only [findCorrectNextLeaf, hlast]
          rfl
        | some last =>
          obtain ⟨next, hnext, hres⟩ := h.plug_nil.reads_findNextLeafByKey hroot
            (Nat.le_succ_of_le hheight) last.key
          simp only [findCorrectNextLeaf, hlast]
          rw [Proc.exec_bind_ok hnext]
          cases next with
          | none => exact ⟨m, rfl, hkeep⟩
          | some q =>
            refine ⟨{ m with nextLeaf := q }, rfl, q, rfl, fun _ => ?_⟩
            obtain ⟨ctx', es', nx', e, heq, he, hlt⟩ := hres q rfl
            have heq' : plug ctx (leaf n.pageNum es nx) = plug ctx' (leaf q es' nx') := heq
            have hcell : (q, Shape.leaf es' nx') ∈
                [plug ctx (leaf n.pageNum es nx)].flatMap cells := by
              rw [heq']
              exact (flatMap_cells_focus_leaf ctx' q es' nx' []).mem_iff.mpr (by simp)
            rw [actualPage_of_none (h.holds.live_of_cell hcell).2]
            exact h.hole_before heq' (hlo last hlast).1 (hlo last hlast).2 he hlt

theorem Wrote.act_target (hw : Wrote t db n nx t' db') (h : t.WF db)
    (hn : t.actualPage n.pageNum = n.pageNum) :
    t'.actualPage nx = nx ∧ t'.actualPage n.pageNum = nx := by
  rw [hw.act, Function.comp_apply, Function.comp_apply, hn, relocate_self]
  refine ⟨?_, rfl⟩
  rcases hw.target with ⟨_, ht⟩ | ⟨_, ht⟩
  · rw [ht, hn, relocate_self]
  · have hcow : t.cowPages.get? nx = none := by
      by_contra hc
      obtain ⟨r, hr⟩ := Option.ne_none_iff_exists'.mp hc
      exact ht (h.copied nx r hr).2.2
    rw [actualPage_of_none hcow]
    unfold relocate
    split <;> rfl

-- `insert` redirects the predecessor of a leaf that had to be copied.
theorem Wrote.exec_predecessor {T : PageTree} (hw : Wrote t db n nx t' db') (h : t.WF db)
    (hn : t.actualPage n.pageNum = n.pageNum) (h' : Represents t' db' rank T) :
    ∃ t₂ db₂ f rank₂, Proc.exec (do
        if nx ≠ n.pageNum then
          ignoreErrors (updatePredecessorNextLeaf n.pageNum nx) : TreeM Unit) t' db' =
        (.ok (), t₂, db₂) ∧
      Represents t₂ db₂ rank₂ (T.mapPtr f) ∧ Moved t' db' rank f t₂ db₂ rank₂ ∧
      ∀ S, Settled t' db' [T] S → Settled t₂ db₂ [T.mapPtr f] S := by
  by_cases hq : nx = n.pageNum
  · refine ⟨t', db', id, rank, ?_, by rwa [mapPtr_id], Moved.refl _ _ _, by simp [mapPtr_id]⟩
    rw [if_neg (by simpa using hq)]
    rfl
  · obtain ⟨hq', hn'⟩ := hw.act_target h hn
    obtain ⟨t₂, db₂, f, rank₂, he₂, hrest⟩ := h'.exec_updatePredecessor (hq'.trans hn'.symm)
    refine ⟨t₂, db₂, f, rank₂, ?_, hrest⟩
    rw [if_pos hq]
    exact he₂

-- `insert` when the leaf has room: the leaf is written, its predecessor and its parents
-- follow.
theorem Represents.exec_insertRoom {path : List PageNum}
    (h : Represents t db rank (plug ctx (leaf n.pageNum es nx)))
    (htype : n.nodeType = .leafNode) (hnx : t.actualPage n.nextLeaf = nx)
    (hsorted : LeafSorted LeafEntry.key (holeRange ⊥ ⊤ ctx).1 (holeRange ⊥ ⊤ ctx).2 n.pageNum
      n.entries nx)
    (hlast : ∀ last, n.entries.getLast? = some last → ∀ d ∈ es, d.key ≤ last.key)
    (hpath : PathTo t path ctx n.pageNum) :
    ∃ t' db', Proc.exec (do
        let leaf ← repairNextLeaf (db.pager.numPages + 1) n
        let actualPage ← writeNode leaf
        if actualPage ≠ leaf.pageNum then
          ignoreErrors (updatePredecessorNextLeaf leaf.pageNum actualPage)
        updatePathAfterModification path) t db = (.ok (), t', db') ∧
      BecomesWithin t db (plug ctx (leaf n.pageNum es nx))
        (entriesBefore ctx ++ n.entries ++ entriesAfter ctx) ∅ t' db' := by
  obtain ⟨r, rest, rfl, hr⟩ := hpath.head
  obtain ⟨m, hrepair, next, hm, hnext⟩ := h.reads_repairNextLeaf hnx fun last hl =>
    ⟨(hsorted.2 last (List.mem_of_getLast? hl)).1, hlast last hl⟩
  have hpage : m.pageNum = n.pageNum := by rw [hm]
  obtain ⟨q, t₁, db₁, rank₁, he₁, h₁, hm₁, hw, hS₁⟩ :=
    h.exec_writeLeaf (n := { n with nextLeaf := next })
      (show BTreeNode.shape _ _ = .leaf n.entries (t.actualPage next) by simp [BTreeNode.shape, htype])
      ⟨hsorted, h.leafOk.2.1, hnext⟩
  rw [← hm] at he₁
  simp only [mapPtr_plug] at h₁ hS₁
  have hpath₁ := hpath.moved hm₁.act
  have hlive := h.holds.live_of_cell (p := n.pageNum) (s := .leaf es nx)
    ((flatMap_cells_focus_leaf ctx n.pageNum es nx []).mem_iff.mpr (by simp))
  obtain ⟨t₂, db₂, f, rank₂, he₂, h₂, hm₂, hS₂⟩ :=
    hw.exec_predecessor h.holds.wf (actualPage_of_none hlive.2) h₁
  simp only [mapPtr_plug] at h₂ hS₂
  obtain ⟨t₃, db₃, g, rank₃, he₃, h₃, hm₃, hS₃⟩ := h₂.exec_updatePath (hpath₁.moved hm₂.act)
  refine ⟨t₃, db₃, ?_, _, rank₃, h₃, ?_, (hm₁.ext.trans hm₂.ext).trans hm₃.ext, ?_, ?_⟩
  · rw [Proc.exec_bind_ok hrepair, Proc.exec_bind_ok he₁]
    by_cases hq : q = n.pageNum
    · rw [if_neg (by simpa [hpage] using hq)] at he₂ ⊢
      obtain ⟨rfl, rfl⟩ : t₁ = t₂ ∧ db₁ = db₂ := by simpa [Proc.exec_pure] using he₂
      exact he₃
    · rw [if_pos (by simpa using hq)] at he₂
      rw [if_pos (by simpa [hpage] using hq), hpage]
      exact (Proc.exec_bind_ok he₂).trans he₃
  · simp only [entries_mapPtr, entries_plug, entriesBefore_mapPtr, entriesAfter_mapPtr]
    rfl
  · have hsame : Reuses t [plug ctx (leaf n.pageNum es nx)]
        [plug ctx (leaf n.pageNum n.entries (t.actualPage next))] := by
      intro p hp
      rw [List.flatMap_cons, List.flatMap_nil, List.append_nil] at hp
      have hleaf := (ptrs_plug_leaf ctx n.pageNum nx (t.actualPage next) es n.entries).mem_iff.mp hp
      exact Or.inl (by simpa using hleaf)
    have hreuse := ((hsame.trans hm₁.ext (hm₁.reuses _)).trans hm₂.ext (hm₂.reuses _)).trans hm₃.ext (hm₃.reuses _)
    simpa only [List.map_cons, List.map_nil, mapPtr_plug] using hreuse
  · intro S hS
    have hS' := hS₁ _ (hS.mono fun _ => Or.inl) (h.holds.wf.new_or_mem hr S)
    refine (hS₃ _ (hS₂ _ hS')).mono ?_
    rintro x ⟨hx | hx, hxp⟩
    · exact Or.inl hx
    · obtain rfl : x = r := hx
      simp at hxp

-- The inner nodes with no room for another child, from the innermost page of a path up
-- to the first one that has room.
def fullNodes : List PageNum → TreeM (List PageNum)
  | [] => pure []
  | page :: up => do
    let n ← readNode page
    if BTREE_ORDER ≤ n.keys.length then
      let rest ← fullNodes up
      pure (n.pageNum :: rest)
    else pure []

-- The inner nodes that `insert key` has to split.
def splitNodes (key : String) : TreeM (List PageNum) := do
  let t ← Proc.getLocal
  let fuel ← walkBound
  let root ← readNode t.getCurrentRoot
  let (target, path) ← findLeaf fuel root key [t.getCurrentRoot]
  if BTREE_ORDER < (insertEntry key 0 target.entries).length then fullNodes path.tail else pure []

theorem exec_fullNodes {path : List PageNum} {ctx : List PageFrame} {sub : PageTree}
    (h : Holds t db [plug ctx sub]) (hpath : path.map t.actualPage = ctx.map Frame.ptr) :
    Proc.exec (fullNodes path) t db = (.ok (fullPtrs ctx), t, db) := by
  induction ctx generalizing path sub with
  | nil =>
    obtain rfl : path = [] := by simpa using hpath
    rfl
  | cons fr ctx ih =>
    cases path with
    | nil => simp at hpath
    | cons page up =>
      simp only [List.map_cons, List.cons.injEq] at hpath
      have hfill : plug (fr :: ctx) sub = plug ctx (fr.fill sub) := rfl
      rw [hfill] at h
      have hcell : (fr.ptr, fr.shape sub.ptr) ∈ [plug ctx (fr.fill sub)].flatMap cells := by
        refine (flatMap_cells_focus_node ctx fr.ptr fr.keys (fr.left ++ sub :: fr.right) []).mem_iff.mpr ?_
        simp [Frame.shape]
      obtain ⟨m, hread, _, hpage, hshape⟩ := h.exec_readNode hcell hpath.1
      obtain ⟨_, hkeys, _⟩ := BTreeNode.shape_eq_node hshape
      rw [fullNodes, Proc.exec_bind_ok hread]
      by_cases hfull : BTREE_ORDER ≤ fr.keys.length
      · rw [if_pos (by rwa [hkeys]), Proc.exec_bind_ok (ih h hpath.2), hpage,
          fullPtrs_cons_of_lt (by omega)]
        rfl
      · rw [if_neg (by rwa [hkeys]), fullPtrs, List.takeWhile_cons_of_neg (by simpa using hfull)]
        rfl

theorem length_insertEntry (value value' : PageNum) (es : List LeafEntry) :
    (insertEntry key value es).length = (insertEntry key value' es).length := by
  induction es with
  | nil => rfl
  | cons e es ih =>
    unfold insertEntry
    split
    · rfl
    · split
      · rfl
      · simp [ih]

-- `insert`: the stale pointers it leaves are those to inner nodes it splits and has no
-- copy of.
theorem exec_insert_within {T : PageTree} (h : Represents t db rank T) (key : String) (value : PageNum) :
    ∃ pages t' db', Proc.exec (splitNodes key) t db = (.ok pages, t, db) ∧
      Proc.exec (insert key value) t db = (.ok (), t', db') ∧
      BecomesWithin t db T (insertEntry key value T.entries) {x | x ∈ pages ∧ x ∉ t.newPages} t' db' := by
  obtain ⟨root, n, path, ctx, p, es, nx, hread, hfind, hT, hn, hpage, hshape, hpath, hlo, hhi⟩ :=
    h.descend key
  obtain ⟨htype, hes, hnx⟩ := BTreeNode.shape_eq_leaf hshape
  obtain ⟨hb, ha⟩ := h.key_outside hT hlo hhi
  subst hT hpage hes
  have hleaf := h.leafOk
  have hentries : insertEntry key value (plug ctx (leaf n.pageNum n.entries nx)).entries =
      entriesBefore ctx ++ insertEntry key value n.entries ++ entriesAfter ctx := by
    rw [entries_plug]
    exact insertEntry_middle hb ha
  have hsorted : LeafSorted LeafEntry.key (holeRange ⊥ ⊤ ctx).1 (holeRange ⊥ ⊤ ctx).2 n.pageNum
      (insertEntry key value n.entries) nx := leafSorted_insertEntry value hleaf.1 hlo hhi
  have hinsert : Proc.exec (insert key value) t db = Proc.exec (
      if (insertEntry key value n.entries).length > BTREE_ORDER then
        splitLeaf { n with
          entries := insertEntry key value n.entries
          numKeys := (insertEntry key value n.entries).length } path
      else do
        let leaf ← repairNextLeaf (db.pager.numPages + 1) { n with
          entries := insertEntry key value n.entries
          numKeys := (insertEntry key value n.entries).length }
        let actualPage ← writeNode leaf
        if actualPage ≠ leaf.pageNum then
          ignoreErrors (updatePredecessorNextLeaf leaf.pageNum actualPage)
        updatePathAfterModification path) t db := by
    unfold insert
    rw [Proc.exec_bind_ok (Proc.exec_getLocal t db), Proc.exec_bind_ok (exec_walkBound t db),
      Proc.exec_bind_ok hread, Proc.exec_bind_ok hfind]
  have hnodes : Proc.exec (splitNodes key) t db = Proc.exec (
      if BTREE_ORDER < (insertEntry key value n.entries).length then fullNodes path.tail
      else pure []) t db := by
    unfold splitNodes
    rw [Proc.exec_bind_ok (Proc.exec_getLocal t db), Proc.exec_bind_ok (exec_walkBound t db),
      Proc.exec_bind_ok hread, Proc.exec_bind_ok hfind]
    simp only [length_insertEntry 0 value]
  by_cases hlen : BTREE_ORDER < (insertEntry key value n.entries).length
  · obtain ⟨t', db', he, hbec⟩ := Represents.exec_splitLeaf
      (n := { n with
        entries := insertEntry key value n.entries
        numKeys := (insertEntry key value n.entries).length }) h htype hnx hsorted hlen hpath
    refine ⟨fullPtrs ctx, t', db', ?_, ?_, ?_⟩
    · rw [hnodes, if_pos hlen]
      refine exec_fullNodes h.holds ?_
      obtain ⟨r, rest, rfl, _⟩ := hpath.head
      exact (List.cons.inj hpath).2
    · rw [hinsert, if_pos hlen]
      exact he
    · rw [hentries]
      exact hbec
  · obtain ⟨t', db', he, hbec⟩ := Represents.exec_insertRoom
      (n := { n with
        entries := insertEntry key value n.entries
        numKeys := (insertEntry key value n.entries).length }) h htype hnx hsorted
      (fun last hl d hd => le_getLast_insertEntry hleaf.1.1 hd hl) hpath
    refine ⟨[], t', db', ?_, ?_, ?_⟩
    · rw [hnodes, if_neg hlen]
      rfl
    · rw [hinsert, if_neg hlen]
      exact he
    · rw [hentries]
      simpa using hbec

theorem exec_insert {T : PageTree} (h : Represents t db rank T) (key : String) (value : PageNum) :
    ∃ pages t' db', Proc.exec (splitNodes key) t db = (.ok pages, t, db) ∧
      Proc.exec (insert key value) t db = (.ok (), t', db') ∧
      Becomes t db T (insertEntry key value T.entries) {x | x ∈ pages ∧ x ∉ t.newPages} t' db' := by
  obtain ⟨pages, t', db', hnodes, he, hbec⟩ := exec_insert_within h key value
  exact ⟨pages, t', db', hnodes, he, hbec.becomes⟩

end JasonDb.TxBTree
