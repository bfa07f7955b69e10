import JasonDb.TxBTree.Settled

namespace JasonDb.TxBTree

open Lib SearchTree

-- The pages on the way from the hole to the root, innermost first, by pointers that
-- may have become stale.
def PathTo (t : TxBTree) (path : List PageNum) (ctx : List PageFrame) (p : PageNum) : Prop :=
  path.map t.actualPage = p :: ctx.map Frame.ptr

theorem PathTo.moved {t t' : TxBTree} {path : List PageNum} {ctx : List PageFrame} {p : PageNum}
    {f : PageNum → PageNum} (h : PathTo t path ctx p) (hact : t'.actualPage = f ∘ t.actualPage) :
    PathTo t' path (ctx.map (Frame.mapPtr f)) (f p) := by
  unfold PathTo at h ⊢
  rw [hact, ← List.map_map, h]
  simp [Function.comp_def]

theorem WF.eq_of_actualPage {t : TxBTree} {db : Database} (h : t.WF db) {r p : PageNum}
    (hr : t.actualPage r = p) (hp : p ∉ t.newPages) : r = p := by
  cases hc : t.cowPages.get? r with
  | none => rw [← hr, actualPage_of_none hc]
  | some q =>
    obtain rfl : q = p := by simpa [actualPage, hc] using hr
    exact absurd (h.copied r q hc).1 hp

theorem map_replaceChild {f : PageNum → PageNum} {old new : PageNum} (h : f new = f old)
    (cs : List PageNum) : (replaceChild old new cs).map f = cs.map f := by
  induction cs with
  | nil => rfl
  | cons c cs ih =>
    unfold replaceChild
    split
    case isTrue hc => simp [hc, h]
    case isFalse => simp [ih]

theorem mem_replaceChild {f : PageNum → PageNum} {old new c : PageNum} {cs : List PageNum}
    (hnd : (cs.map f).Nodup) (h : c ∈ replaceChild old new cs) : c = new ∨ c ∈ cs ∧ c ≠ old := by
  induction cs with
  | nil => simp [replaceChild] at h
  | cons d ds ih =>
    rw [List.map_cons, List.nodup_cons] at hnd
    unfold replaceChild at h
    split at h
    case isTrue hd =>
      rcases List.mem_cons.mp h with rfl | h
      · exact Or.inl rfl
      · refine Or.inr ⟨List.mem_cons_of_mem _ h, ?_⟩
        rintro rfl
        exact hnd.1 (hd ▸ List.mem_map_of_mem h)
    case isFalse hd =>
      rcases List.mem_cons.mp h with rfl | h
      · exact Or.inr ⟨List.mem_cons_self .., hd⟩
      · rcases ih hnd.2 h with h | ⟨h, hne⟩
        · exact Or.inl h
        · exact Or.inr ⟨List.mem_cons_of_mem _ h, hne⟩

-- A stale child pointer of a node is replaced; the handle reads the same node.
theorem Holds.exec_redirect {t : TxBTree} {db : Database} {rank : Rank} {ctx : List PageFrame}
    {fr : PageFrame} {sub : PageTree} {n : BTreeNode} {c par new : PageNum}
    (h : Holds t db [plug ctx (fr.fill sub)]) (hr : Ranked t db rank)
    (hn : db.nodeAt fr.ptr = some n) (hshape : n.shape t.actualPage = fr.shape sub.ptr)
    (hc : t.actualPage c = sub.ptr) (hpar : t.actualPage par = fr.ptr)
    (hcow : t.cowPages.get? c = some new) :
    ∃ q t' db',
      Proc.exec (writeNode { n with children := replaceChild c new n.children }) t db =
        (.ok q, t', db') ∧
      Holds t' db' [(plug ctx (fr.fill sub)).mapPtr (relocate fr.ptr q)] ∧
      Ranked t' db' (rank.move fr.ptr q) ∧
      Moved t db rank (relocate fr.ptr q) t' db' (rank.move fr.ptr q) ∧
      ∀ S, Settled t db [plug ctx (fr.fill sub)] S →
        Settled t' db' [(plug ctx (fr.fill sub)).mapPtr (relocate fr.ptr q)] (S \ {c} ∪ {par}) := by
  obtain ⟨htype, hkeys, hchildren⟩ := BTreeNode.shape_eq_node hshape
  have hpage := Database.nodeAt_pageNum hn
  have hnew : t.actualPage new = t.actualPage c := by
    rw [show t.actualPage c = new by simp [actualPage, hcow]]
    refine actualPage_of_none ?_
    have := h.wf.get?_actualPage c
    rwa [show t.actualPage c = new by simp [actualPage, hcow]] at this
  have hcell : (fr.ptr, fr.shape sub.ptr) ∈ [plug ctx (fr.fill sub)].flatMap cells := by
    refine (flatMap_cells_focus_node ctx fr.ptr fr.keys (fr.left ++ sub :: fr.right) []).mem_iff.mpr ?_
    simp [Frame.shape]
  obtain ⟨q, t', db', he, hw, hh⟩ := Holds.exec_writeInner
    (n := { n with children := replaceChild c new n.children }) (X := [])
    (by simpa [Frame.fill, hpage] using h)
    (show BTreeNode.shape _ _ = .node fr.keys ((fr.left ++ sub :: fr.right).map ptr) by
      simp [BTreeNode.shape, htype, hkeys, map_replaceChild hnew, hchildren]) (List.Perm.refl _)
  simp only [hpage, List.map_cons, List.map_nil] at hh
  have hlive := h.live_of_cell hcell
  have hp0 : n.pageNum ≠ 0 := hpage ▸ hlive.1.1
  have hrank := hw.ranked h.wf hp0 hr (fun l hl => by
    obtain ⟨s, hs, es, nx, rfl, _⟩ := hr.link _ _ hl
    rw [show n.pageNum = fr.ptr from hpage, h.stores.stored _ hcell] at hs
    simp [Frame.shape] at hs)
  have hmoved := hw.moved hp0 hr
  simp only [hpage] at hrank hmoved
  refine ⟨q, t', db', he, hh, hrank, hmoved, ?_⟩
  intro S hS
  have := Settled.wrote (F := [plug ctx (fr.fill sub)]) (G := [plug ctx (fr.fill sub)])
    (S := S \ {c} ∪ {par}) hw (fun y hy => Or.inr hy) ?_ ?_ ?_
  · simpa [hpage] using this
  · intro x hx hxn m hm c' hc' hne
    refine Or.inl ⟨hS x hx m hm c' hc' hne, ?_⟩
    rintro rfl
    refine hxn ((h.link_unique hcell ?_ hx hm hc').trans hpage.symm)
    simp [Frame.shape, Shape.children, hc]
  · intro c' hc' hne
    have hnd : (n.children.map t.actualPage).Nodup := by
      rw [hchildren]
      exact h.stores.children_nodup hcell
    have hlinks : c' ∈ replaceChild c new n.children := by
      simpa [BTreeNode.links, htype] using hc'
    rcases mem_replaceChild hnd hlinks with rfl | ⟨hmem, hcne⟩
    · refine absurd ?_ hne
      rw [hnew]
      simp [actualPage, hcow]
    · refine Or.inl ⟨hS fr.ptr ?_ n hn c' (by simpa [BTreeNode.links, htype] using hmem) hne, hcne⟩
      rw [← map_fst_flatMap_cells]
      exact List.mem_map_of_mem hcell
  · by_cases hnp : n.pageNum ∈ t.newPages
    · exact Or.inl hnp
    · refine Or.inr (Or.inr ?_)
      exact (h.wf.eq_of_actualPage (hpar.trans hpage.symm) hnp).symm

-- `update_path_after_modification` moves nodes and leaves no stale pointer on the path.
theorem exec_updatePath {path : List PageNum} {t : TxBTree} {db : Database} {rank : Rank}
    {ctx : List PageFrame} {sub : PageTree} (h : Holds t db [plug ctx sub])
    (hr : Ranked t db rank) (hpath : PathTo t path ctx sub.ptr) :
    ∃ t' db' f rank', Proc.exec (updatePathAfterModification path) t db = (.ok (), t', db') ∧
      Holds t' db' [(plug ctx sub).mapPtr f] ∧ Ranked t' db' rank' ∧
      Moved t db rank f t' db' rank' ∧
      ∀ S, Settled t db [plug ctx sub] S →
        Settled t' db' [(plug ctx sub).mapPtr f] (S \ {x | x ∈ path}) := by
  induction path generalizing t db rank ctx sub with
  | nil => simp [PathTo] at hpath
  | cons c tail ih =>
    cases tail with
    | nil =>
      -- the root, which nothing points to
      simp only [PathTo, List.map_cons, List.map_nil, List.cons.injEq] at hpath
      obtain ⟨hc, hctx⟩ := hpath
      obtain rfl : ctx = [] := List.map_eq_nil_iff.mp hctx.symm
      refine ⟨t, db, id, rank, rfl, by simpa [mapPtr_id] using h, hr, Moved.refl _ _ _, ?_⟩
      intro S hS x hx m hm c' hc' hne
      rw [mapPtr_id] at hx
      refine ⟨hS x hx m hm c' hc' hne, ?_⟩
      intro hmem
      obtain rfl : c' = c := by simpa using hmem
      exact h.root_not_link (T := plug [] sub) (by simp) hc hx hm hc'
    | cons par rest =>
      cases ctx with
      | nil => simp [PathTo] at hpath
      | cons fr ctx =>
        obtain ⟨hc, hpar, hrest⟩ : t.actualPage c = sub.ptr ∧ t.actualPage par = fr.ptr ∧
            rest.map t.actualPage = ctx.map Frame.ptr := by
          simpa [PathTo] using hpath
        have hfill : plug (fr :: ctx) sub = plug ctx (fr.fill sub) := rfl
        rw [hfill] at h ⊢
        have hcell : (fr.ptr, fr.shape sub.ptr) ∈ [plug ctx (fr.fill sub)].flatMap cells := by
          refine (flatMap_cells_focus_node ctx fr.ptr fr.keys (fr.left ++ sub :: fr.right) []).mem_iff.mpr ?_
          simp [Frame.shape]
        obtain ⟨n, hread, hn, hpage, hshape⟩ := h.exec_readNode hcell hpar
        have hpath' : PathTo t (par :: rest) ctx (fr.fill sub).ptr := by simp [PathTo, hpar, hrest]
        -- without a write, `c` is not a stale pointer of any node
        have hskip : (t.cowPages.get? c = none ∨ c ∉ n.children) →
            ∀ S, Settled t db [plug ctx (fr.fill sub)] S →
              Settled t db [plug ctx (fr.fill sub)] (S \ {c}) := by
          intro hor S hS x hx m hm c' hc' hne
          refine ⟨hS x hx m hm c' hc' hne, ?_⟩
          rintro rfl
          rcases hor with hnone | hnot
          · exact hne (actualPage_of_none hnone)
          · have hx' : x = fr.ptr :=
              h.link_unique hcell (by simp [Frame.shape, Shape.children, hc]) hx hm hc'
            subst hx'
            obtain rfl : n = m := Option.some.inj (hn.symm.trans hm)
            obtain ⟨htype, _, _⟩ := BTreeNode.shape_eq_node hshape
            exact hnot (by simpa [BTreeNode.links, htype] using hc')
        have hstay : (t.cowPages.get? c = none ∨ c ∉ n.children) →
            Proc.exec (updatePathAfterModification (c :: par :: rest)) t db =
              Proc.exec (updatePathAfterModification (par :: rest)) t db →
            ∃ t' db' f rank',
              Proc.exec (updatePathAfterModification (c :: par :: rest)) t db = (.ok (), t', db') ∧
              Holds t' db' [(plug ctx (fr.fill sub)).mapPtr f] ∧ Ranked t' db' rank' ∧
              Moved t db rank f t' db' rank' ∧
              ∀ S, Settled t db [plug ctx (fr.fill sub)] S →
                Settled t' db' [(plug ctx (fr.fill sub)).mapPtr f]
                  (S \ {x | x ∈ c :: par :: rest}) := by
          intro hor heq
          obtain ⟨t', db', f, rank', he, hh, hrk, hmv, hset⟩ := ih h hr hpath'
          refine ⟨t', db', f, rank', heq.trans he, hh, hrk, hmv, ?_⟩
          intro S hS
          refine (hset _ (hskip hor S hS)).mono ?_
          rintro x ⟨⟨hxS, hxc⟩, hx⟩
          exact ⟨hxS, by simpa using ⟨hxc, by simpa using hx⟩⟩
        cases hcow : t.cowPages.get? c with
        | none =>
          refine hstay (Or.inl hcow) ?_
          rw [updatePathAfterModification, Proc.exec_bind_ok hread,
            Proc.exec_bind_ok (Proc.exec_getLocal t db)]
          simp only [hcow]
        | some new =>
          by_cases hmem : c ∈ n.children
          · obtain ⟨q, t₁, db₁, he, hh, hrk, hmv, hset⟩ :=
              h.exec_redirect hr hn hshape hc hpar hcow
            have hpath₁ := hpath'.moved hmv.act
            rw [mapPtr_plug] at hh
            obtain ⟨t', db', f, rank', he', hh', hrk', hmv', hset'⟩ :=
              ih hh hrk (by simpa using hpath₁)
            rw [← mapPtr_plug, mapPtr_mapPtr] at hh' hset'
            refine ⟨t', db', _, rank', ?_, hh', hrk', hmv.trans hmv', ?_⟩
            · rw [updatePathAfterModification, Proc.exec_bind_ok hread,
                Proc.exec_bind_ok (Proc.exec_getLocal t db)]
              simp only [hcow, hmem, ↓reduceIte]
              rw [Proc.exec_bind_ok he]
              exact he'
            · intro S hS
              refine (hset' _ (hset S hS)).mono ?_
              rintro x ⟨hx | hx, hxp⟩
              · exact ⟨hx.1, by simpa using ⟨hx.2, by simpa using hxp⟩⟩
              · obtain rfl : x = par := hx
                simp at hxp
          · refine hstay (Or.inr hmem) ?_
            rw [updatePathAfterModification, Proc.exec_bind_ok hread,
              Proc.exec_bind_ok (Proc.exec_getLocal t db)]
            simp only [hcow, hmem, ↓reduceIte]

end JasonDb.TxBTree
