import JasonDb.TxBTree.Entries

namespace JasonDb.TxBTree

open Lib SearchTree

variable {t : TxBTree} {db : Database} {rank : Rank}

theorem Moved.represents {t' : TxBTree} {db' : Database} {rank' : Rank} {f : PageNum → PageNum}
    {T : PageTree} (hm : Moved t db rank f t' db' rank') (h : Represents t db rank T)
    (hh : Holds t' db' [T.mapPtr f]) (hr : Ranked t' db' rank') :
    Represents t' db' rank' (T.mapPtr f) where
  holds := hh
  root := by rw [ptr_mapPtr, hm.root, h.root]
  ranked := hr
  ordered := h.ordered.mapPtr hm.leafOk

-- A leaf is written with other contents.
theorem Represents.exec_writeLeaf {ctx : List PageFrame} {es es' : List LeafEntry}
    {nx nx' : PageNum} {n : BTreeNode} (h : Represents t db rank (plug ctx (leaf n.pageNum es nx)))
    (hshape : n.shape t.actualPage = .leaf es' nx')
    (hok : LeafOk rank (holeRange ⊥ ⊤ ctx).1 (holeRange ⊥ ⊤ ctx).2 n.pageNum es' nx') :
    ∃ q t' db' rank', Proc.exec (writeNode n) t db = (.ok q, t', db') ∧
      Represents t' db' rank' ((plug ctx (leaf n.pageNum es' nx')).mapPtr (relocate n.pageNum q)) ∧
      Moved t db rank (relocate n.pageNum q) t' db' rank' ∧ Wrote t db n q t' db' ∧
      ∀ S, Settled t db [plug ctx (leaf n.pageNum es nx)] S →
        (n.pageNum ∈ t.newPages ∨ n.pageNum ∈ S) →
        Settled t' db' [(plug ctx (leaf n.pageNum es' nx')).mapPtr (relocate n.pageNum q)] S := by
  have hcell : (n.pageNum, Shape.leaf es nx) ∈ [plug ctx (leaf n.pageNum es nx)].flatMap cells :=
    (flatMap_cells_focus_leaf ctx n.pageNum es nx []).mem_iff.mpr (by simp)
  have hp0 := (h.holds.live_of_cell hcell).1.1
  obtain ⟨houter, _⟩ := (all_plug ctx _).mp h.ordered
  have hlt := (houter.bounds bot_lt_top).2.1
  obtain ⟨q, t', db', he, hw, hh⟩ := h.holds.exec_writeLeaf hshape
  have hmoved := hw.moved hp0 h.ranked
  have hranked := hw.ranked h.holds.wf hp0 h.ranked (fun l hl => by
    refine ⟨es', nx', hshape, fun hne => ?_⟩
    obtain ⟨l', hl', hle⟩ := hok.2.2 hne
    obtain rfl : (holeRange ⊥ ⊤ ctx).1 = l := Option.some.inj (hok.2.1.symm.trans hl)
    exact ⟨l', hl', lt_of_lt_of_le hlt hle⟩)
  refine ⟨q, t', db', _, he, ⟨hh, ?_, hranked, ?_⟩, hmoved, hw, ?_⟩
  · rw [ptr_mapPtr, hmoved.root, ← h.root]
    exact congrArg _ (ptr_plug_congr ctx rfl)
  · exact All.mapPtr ((all_plug ctx _).mpr ⟨houter, hok⟩) hmoved.leafOk
  · intro S hS hnew
    have hsub : ∀ y ∈ [plug ctx (leaf n.pageNum es' nx')].flatMap ptrs,
        y = n.pageNum ∨ y ∈ [plug ctx (leaf n.pageNum es nx)].flatMap ptrs := by
      intro y hy
      refine Or.inr ?_
      rw [← map_fst_flatMap_cells] at hy ⊢
      exact ((flatMap_cells_focus_leaf ctx _ es nx []).map Prod.fst).mem_iff.mpr
        (((flatMap_cells_focus_leaf ctx _ es' nx' []).map Prod.fst).mem_iff.mp hy)
    refine Settled.wrote hw hsub (fun x hx _ m hm => hS x hx m hm) ?_ hnew
    intro c hc
    simp [BTreeNode.links, (BTreeNode.shape_eq_leaf hshape).1] at hc

-- A page the handle has to copy is the one the path names.
theorem WF.new_or_mem (h : t.WF db) {r p : PageNum} (hr : t.actualPage r = p) (S : Set PageNum) :
    p ∈ t.newPages ∨ p ∈ S ∪ {r} := by
  by_cases hnew : p ∈ t.newPages
  · exact Or.inl hnew
  · exact Or.inr (Or.inr (h.eq_of_actualPage hr hnew).symm)

theorem Represents.exec_updatePath {path : List PageNum} {ctx : List PageFrame} {sub : PageTree}
    (h : Represents t db rank (plug ctx sub)) (hpath : PathTo t path ctx sub.ptr) :
    ∃ t' db' f rank', Proc.exec (updatePathAfterModification path) t db = (.ok (), t', db') ∧
      Represents t' db' rank' ((plug ctx sub).mapPtr f) ∧ Moved t db rank f t' db' rank' ∧
      ∀ S, Settled t db [plug ctx sub] S →
        Settled t' db' [(plug ctx sub).mapPtr f] (S \ {x | x ∈ path}) := by
  obtain ⟨t', db', f, rank', he, hh, hr, hm, hS⟩ := TxBTree.exec_updatePath h.holds h.ranked hpath
  exact ⟨t', db', f, rank', he, hm.represents h hh hr, hm, hS⟩

-- The outcome of an operation that succeeds: the entries are now `es`, and child
-- pointers are stale only where they were before or in `U`.
def Becomes (t : TxBTree) (db : Database) (T : PageTree) (es : List LeafEntry) (U : Set PageNum)
    (t' : TxBTree) (db' : Database) : Prop :=
  ∃ T' rank', Represents t' db' rank' T' ∧ T'.entries = es ∧ Extends t db t' db' ∧
    ∀ S, Settled t db [T] S → Settled t' db' [T'] (S ∪ U)

-- The trees `G` are in pages of the trees `F` and in pages of the handle's own.
def Reuses (t : TxBTree) (F G : List PageTree) : Prop :=
  ∀ p ∈ G.flatMap ptrs, p ∈ F.flatMap ptrs ∨ p ∈ t.newPages

theorem Reuses.trans {t' : TxBTree} {db' : Database} {F G H : List PageTree} (h : Reuses t F G)
    (hext : Extends t db t' db') (h' : Reuses t' G H) : Reuses t' F H := by
  intro p hp
  rcases h' p hp with hG | hnew
  · exact (h p hG).imp_right (hext.new p)
  · exact Or.inr hnew

theorem Moved.reuses {t' : TxBTree} {db' : Database} {rank' : Rank} {f : PageNum → PageNum}
    (hm : Moved t db rank f t' db' rank') (F : List PageTree) : Reuses t' F (F.map (mapPtr f)) := by
  intro p hp
  obtain ⟨_, hmoved, hp⟩ := List.mem_flatMap.mp hp
  obtain ⟨T, hT, rfl⟩ := List.mem_map.mp hmoved
  rw [ptrs_mapPtr] at hp
  obtain ⟨q, hq, rfl⟩ := List.mem_map.mp hp
  rcases hm.fresh q with hf | hf
  · rw [hf]
    exact Or.inl (List.mem_flatMap.mpr ⟨T, hT, hq⟩)
  · exact Or.inr hf

-- An outcome for which no pages of others are taken.
def BecomesWithin (t : TxBTree) (db : Database) (T : PageTree) (es : List LeafEntry) (U : Set PageNum)
    (t' : TxBTree) (db' : Database) : Prop :=
  ∃ T' rank', Represents t' db' rank' T' ∧ T'.entries = es ∧ Extends t db t' db' ∧
    Reuses t' [T] [T'] ∧ ∀ S, Settled t db [T] S → Settled t' db' [T'] (S ∪ U)

theorem BecomesWithin.becomes {T : PageTree} {es : List LeafEntry} {U : Set PageNum} {t' : TxBTree}
    {db' : Database} (h : BecomesWithin t db T es U t' db') : Becomes t db T es U t' db' := by
  obtain ⟨T', rank', hrep, hes, hext, -, hS⟩ := h
  exact ⟨T', rank', hrep, hes, hext, hS⟩

theorem PathTo.head {path : List PageNum} {ctx : List PageFrame} {p : PageNum}
    (h : PathTo t path ctx p) : ∃ r rest, path = r :: rest ∧ t.actualPage r = p := by
  cases path with
  | nil => simp [PathTo] at h
  | cons r rest => exact ⟨r, rest, rfl, (List.cons.inj h).1⟩

-- A leaf is replaced by a copy with other entries, as `update` and `delete` do.
theorem Represents.exec_replaceLeaf {path : List PageNum} {ctx : List PageFrame}
    {es es' : List LeafEntry} {nx : PageNum} {n : BTreeNode}
    (h : Represents t db rank (plug ctx (leaf n.pageNum es nx)))
    (hshape : n.shape t.actualPage = .leaf es' nx) (hpath : PathTo t path ctx n.pageNum)
    (hsub : (es'.map LeafEntry.key).Sublist (es.map LeafEntry.key)) :
    ∃ t' db', Proc.exec (do
        let _ ← writeNode n
        updatePathAfterModification path) t db = (.ok (), t', db') ∧
      Becomes t db (plug ctx (leaf n.pageNum es nx))
        (entriesBefore ctx ++ es' ++ entriesAfter ctx) ∅ t' db' := by
  obtain ⟨r, rest, rfl, hr⟩ := hpath.head
  have hleaf := ((all_plug ctx _).mp h.ordered).2
  obtain ⟨q, t₁, db₁, rank₁, he₁, h₁, hm₁, _, hS₁⟩ :=
    h.exec_writeLeaf hshape (LeafOk.of_keys hleaf hsub)
  rw [mapPtr_plug] at h₁
  have hpath₁ := hpath.moved hm₁.act
  obtain ⟨t₂, db₂, f, rank₂, he₂, h₂, hm₂, hS₂⟩ := h₁.exec_updatePath hpath₁
  refine ⟨t₂, db₂, (Proc.exec_bind_ok he₁).trans he₂, _, rank₂, h₂, ?_, hm₁.ext.trans hm₂.ext, ?_⟩
  · simp [entries_plug, entries]
  · intro S hS
    have hS' := hS₁ _ (hS.mono fun _ => Or.inl) (h.holds.wf.new_or_mem hr S)
    rw [mapPtr_plug] at hS'
    refine (hS₂ _ hS').mono ?_
    rintro x ⟨hx | hx, hxp⟩
    · exact Or.inl hx
    · obtain rfl : x = r := hx
      simp at hxp

theorem exec_update {T : PageTree} (h : Represents t db rank T) (key : String) (value : PageNum) :
    ((∃ e ∈ T.entries, e.key = key) → ∃ t' db', Proc.exec (update key value) t db =
        (.ok (), t', db') ∧ Becomes t db T (setEntry key value T.entries) ∅ t' db') ∧
      ((∀ e ∈ T.entries, e.key ≠ key) →
        Proc.exec (update key value) t db = (.error (notFound key), t, db)) := by
  obtain ⟨root, n, path, ctx, p, es, nx, hread, hfind, hT, hn, hpage, hshape, hpath, hlo, hhi⟩ :=
    h.descend key
  obtain ⟨htype, hes, hnx⟩ := BTreeNode.shape_eq_leaf hshape
  obtain ⟨hb, ha⟩ := h.key_outside hT hlo hhi
  subst hT hpage
  have hrun : Proc.exec (update key value) t db = Proc.exec (
      if n.entries.any (·.key = key) then do
        let _ ← writeNode { n with entries := setEntry key value n.entries }
        updatePathAfterModification path
      else Proc.fail (notFound key)) t db := by
    unfold update
    rw [Proc.exec_bind_ok (Proc.exec_getLocal t db), Proc.exec_bind_ok (exec_walkBound t db),
      Proc.exec_bind_ok hread, Proc.exec_bind_ok hfind]
  rw [hrun, hes, entries_plug]
  constructor
  · intro ⟨e, he, hkey⟩
    have hany : es.any (·.key = key) = true := by
      rw [List.any_eq_true]
      refine ⟨e, ?_, by simp [hkey]⟩
      simp only [entries, List.mem_append] at he
      rcases he with (he | he) | he
      · exact absurd hkey (hb e he).ne
      · exact he
      · exact absurd hkey (ha e he).ne'
    rw [if_pos hany]
    obtain ⟨t', db', he', hbec⟩ := Represents.exec_replaceLeaf
      (n := { n with entries := setEntry key value es }) h
      (show BTreeNode.shape _ _ = .leaf (setEntry key value es) nx by simp [BTreeNode.shape, htype, hnx]) hpath (by rw [map_key_setEntry])
    refine ⟨t', db', he', ?_⟩
    rwa [setEntry_middle (fun e he => (hb e he).ne) (fun e he => (ha e he).ne')]
  · intro hne
    have hany : ¬ es.any (·.key = key) = true := by
      rw [List.any_eq_true]
      rintro ⟨e, he, hkey⟩
      exact hne e (by simp [entries, he]) (by simpa using hkey)
    rw [if_neg hany]
    rfl

theorem exec_delete {T : PageTree} (h : Represents t db rank T) (key : String) :
    ((∃ e ∈ T.entries, e.key = key) → ∃ t' db', Proc.exec (delete key) t db = (.ok (), t', db') ∧
        Becomes t db T (T.entries.filter (·.key ≠ key)) ∅ t' db') ∧
      ((∀ e ∈ T.entries, e.key ≠ key) →
        Proc.exec (delete key) t db = (.error (notFound key), t, db)) := by
  obtain ⟨root, n, path, ctx, p, es, nx, hread, hfind, hT, hn, hpage, hshape, hpath, hlo, hhi⟩ :=
    h.descend key
  obtain ⟨htype, hes, hnx⟩ := BTreeNode.shape_eq_leaf hshape
  obtain ⟨hb, ha⟩ := h.key_outside hT hlo hhi
  subst hT hpage
  have hrun : Proc.exec (delete key) t db = Proc.exec (
      if (n.entries.filter (·.key ≠ key)).length = n.entries.length then Proc.fail (notFound key)
      else do
        let _ ← writeNode { n with
          entries := n.entries.filter (·.key ≠ key)
          numKeys := (n.entries.filter (·.key ≠ key)).length }
        updatePathAfterModification path) t db := by
    unfold delete
    rw [Proc.exec_bind_ok (Proc.exec_getLocal t db), Proc.exec_bind_ok (exec_walkBound t db),
      Proc.exec_bind_ok hread, Proc.exec_bind_ok hfind]
  rw [hrun, hes, entries_plug]
  constructor
  · intro ⟨e, he, hkey⟩
    have hmem : e ∈ es := by
      simp only [entries, List.mem_append] at he
      rcases he with (he | he) | he
      · exact absurd hkey (hb e he).ne
      · exact he
      · exact absurd hkey (ha e he).ne'
    have hlen : ¬ (es.filter (·.key ≠ key)).length = es.length := by
      rw [List.length_filter_eq_length_iff]
      intro hall
      exact absurd hkey (by simpa using hall e hmem)
    rw [if_neg hlen]
    obtain ⟨t', db', he', hbec⟩ := Represents.exec_replaceLeaf
      (n := { n with
        entries := es.filter (·.key ≠ key)
        numKeys := (es.filter (·.key ≠ key)).length })
      h (show BTreeNode.shape _ _ = .leaf (es.filter (·.key ≠ key)) nx by simp [BTreeNode.shape, htype, hnx]) hpath
      (List.filter_sublist.map _)
    refine ⟨t', db', he', ?_⟩
    have hbf : (entriesBefore ctx).filter (·.key ≠ key) = entriesBefore ctx :=
      List.filter_eq_self.mpr fun e he => by simpa using (hb e he).ne
    have haf : (entriesAfter ctx).filter (·.key ≠ key) = entriesAfter ctx :=
      List.filter_eq_self.mpr fun e he => by simpa using (ha e he).ne'
    rwa [List.filter_append, List.filter_append, hbf, haf]
  · intro hne
    have hlen : (es.filter (·.key ≠ key)).length = es.length := by
      rw [List.length_filter_eq_length_iff]
      intro e he
      simpa using hne e (by simp [entries, he])
    rw [if_pos hlen]
    rfl

end JasonDb.TxBTree
