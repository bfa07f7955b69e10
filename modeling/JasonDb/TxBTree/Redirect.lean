import JasonDb.TxBTree.Links

namespace JasonDb.TxBTree

open Lib SearchTree

variable {t : TxBTree} {db : Database} {rank : Rank} {T : PageTree}

-- `m` moves nodes of the tree at most; it may stop with an error that is dropped.
def Shifts (t : TxBTree) (db : Database) (rank : Rank) (T : PageTree) (m : TreeM Unit) : Prop :=
  ∃ r t' db' f rank', Proc.exec m t db = (r, t', db') ∧
    (∀ e, r = .error e → e.Caught) ∧
    Represents t' db' rank' (T.mapPtr f) ∧ Moved t db rank f t' db' rank' ∧
    ∀ S, Settled t db [T] S → Settled t' db' [T.mapPtr f] S

theorem Shifts.of_pure (h : Represents t db rank T) {m : TreeM Unit} {r : Except Error Unit}
    (he : Proc.exec m t db = (r, t, db)) (hr : ∀ e, r = .error e → e.Caught) :
    Shifts t db rank T m :=
  ⟨r, t, db, id, rank, he, hr, by rwa [mapPtr_id], Moved.refl _ _ _, by simp [mapPtr_id]⟩

-- The pages a walk along the links can still come to.
open Classical in
noncomputable def ahead (db : Database) (rank : Rank) (l : Bound String) : Nat :=
  ((Finset.range db.pager.numPages).filter fun x => ∃ l', rank x = some l' ∧ l < l').card

theorem Ranked.ahead_lt (h : Ranked t db rank) {p : PageNum} {l l' : Bound String}
    (hp : rank p = some l') (hlt : l < l') : ahead db rank l' < ahead db rank l := by
  classical
  refine Finset.card_lt_card ⟨?_, ?_⟩
  · intro x hx
    simp only [Finset.mem_filter] at hx ⊢
    obtain ⟨hr, l'', hl, hll⟩ := hx
    exact ⟨hr, l'', hl, hlt.trans hll⟩
  · intro hsub
    have hmem := hsub (Finset.mem_filter.mpr
      ⟨Finset.mem_range.mpr (h.alloc p l' hp).2.1, l', hp, hlt⟩)
    obtain ⟨_, l'', hl, hll⟩ := Finset.mem_filter.mp hmem
    obtain rfl : l' = l'' := Option.some.inj (hp.symm.trans hl)
    exact lt_irrefl _ hll

theorem ahead_le (db : Database) (rank : Rank) (l : Bound String) :
    ahead db rank l ≤ db.pager.numPages := by
  classical
  exact (Finset.card_filter_le _ _).trans (by simp)

theorem WF.actualPage_ne_zero (h : t.WF db) {p : PageNum} (hp : p ≠ 0) : t.actualPage p ≠ 0 := by
  cases hc : t.cowPages.get? p with
  | none => rwa [actualPage_of_none hc]
  | some q =>
    rw [show t.actualPage p = q by simp [actualPage, hc]]
    exact (h.created q (h.copied p q hc).1).1

-- The predecessor gets a link that means the same to this handle.
theorem Represents.exec_relink {path : List PageNum} {ctx : List PageFrame} {es : List LeafEntry}
    {nx newPage : PageNum} {n : BTreeNode}
    (h : Represents t db rank (plug ctx (leaf n.pageNum es nx)))
    (hn : n.shape t.actualPage = .leaf es nx) (hpath : PathTo t path ctx n.pageNum)
    (hlink : t.actualPage newPage = t.actualPage n.nextLeaf) :
    Shifts t db rank (plug ctx (leaf n.pageNum es nx)) (do
      let newPredPage ← writeNode { n with nextLeaf := newPage }
      if newPredPage ≠ n.pageNum then
        updatePathAfterModification path) := by
  obtain ⟨r, rest, rfl, hr⟩ := hpath.head
  obtain ⟨htype, hes, hnx⟩ := BTreeNode.shape_eq_leaf hn
  have hleaf := ((all_plug ctx _).mp h.ordered).2
  obtain ⟨q, t₁, db₁, rank₁, he₁, h₁, hm₁, hw, hS₁⟩ :=
    h.exec_writeLeaf (n := { n with nextLeaf := newPage })
      (by simp [BTreeNode.shape, htype, hes, hlink, hnx]) hleaf
  by_cases hq : q = n.pageNum
  · refine ⟨.ok (), t₁, db₁, _, rank₁, ?_, by simp, h₁, hm₁, ?_⟩
    · rw [Proc.exec_bind_ok he₁]
      simp only [hq, ne_eq, not_true_eq_false, ↓reduceIte]
      rfl
    · intro S hS
      refine hS₁ S hS (Or.inl ?_)
      rw [← hq]
      rcases hw.target with ht | ⟨_, hu⟩
      · rw [hq]
        exact ht.1
      · rw [hq] at hu
        exact absurd (h.ranked.alloc _ _ hleaf.2.1) hu
  · rw [mapPtr_plug] at h₁
    obtain ⟨t₂, db₂, f, rank₂, he₂, h₂, hm₂, hS₂⟩ := h₁.exec_updatePath (hpath.moved hm₁.act)
    rw [← mapPtr_plug, mapPtr_mapPtr] at h₂
    refine ⟨.ok (), t₂, db₂, _, rank₂, ?_, by simp, h₂, hm₁.trans hm₂, ?_⟩
    · rw [Proc.exec_bind_ok he₁]
      simp only [hq, ne_eq, not_false_eq_true, ↓reduceIte]
      exact he₂
    · intro S hS
      have hS' := hS₁ _ (hS.mono fun _ => Or.inl) (h.holds.wf.new_or_mem hr S)
      rw [mapPtr_plug] at hS'
      have := hS₂ _ hS'
      rw [← mapPtr_plug, mapPtr_mapPtr] at this
      refine this.mono ?_
      rintro x ⟨hx | hx, hxp⟩
      · exact hx
      · obtain rfl : x = r := hx
        simp at hxp

theorem Represents.exec_redirectLink {fuel : Nat} {root : BTreeNode} {oldPage newPage p : PageNum}
    {l : Bound String} (h : Represents t db rank T) (hroot : db.nodeAt T.ptr = some root)
    (hlink : t.actualPage newPage = t.actualPage oldPage) (hp : rank (t.actualPage p) = some l)
    (hfuel : ahead db rank l < fuel) :
    Shifts t db rank T (redirectLink root t.getCurrentRoot oldPage newPage fuel p) := by
  induction fuel generalizing p l with
  | zero => omega
  | succ fuel ih =>
    obtain ⟨s, hs, es, nx, rfl, habove⟩ := h.ranked.link _ _ hp
    simp only [TxBTree.store, Option.map_eq_some_iff] at hs
    obtain ⟨n, hn, hshape⟩ := hs
    obtain ⟨_, _, hnx⟩ := BTreeNode.shape_eq_leaf hshape
    have hread := TxBTree.exec_readNode h.holds.wf hn
    have hpage := Database.nodeAt_pageNum hn
    by_cases hold : n.nextLeaf = oldPage
    · have hpath : PathTo t [t.getCurrentRoot] [] T.ptr := by
        simp [PathTo, actualPage_of_none h.holds.wf.root, h.root]
      obtain ⟨found, hfound, hres⟩ := h.plug_nil.reads_findAnyLeafPath hroot hpath
        (Nat.le_succ_of_le h.holds.height_le) n.pageNum
      cases found with
      | none =>
        refine Shifts.of_pure h (r := .error (.corruption "BTree" n.pageNum
          "Could not find predecessor path before COW")) ?_ ?_
        · rw [redirectLink, Proc.exec_bind_ok hread]
          simp only [hold, ↓reduceIte]
          rw [Proc.exec_bind_ok (exec_walkBound t db), Proc.exec_bind_ok hfound]
          rfl
        · rintro e he
          obtain rfl := Except.error.inj he
          exact ⟨by simp, by simp⟩
      | some path =>
        obtain ⟨ctx, es', nx', hT, hpath'⟩ := hres path rfl
        obtain rfl : T = plug ctx (leaf n.pageNum es' nx') := hT
        have hshape' : n.shape t.actualPage = .leaf es' nx' := by
          obtain ⟨m, hm, _, hms⟩ := h.subtree
          obtain rfl : n = m := Option.some.inj ((hpage ▸ hn).symm.trans hm)
          exact hms
        obtain ⟨r, t', db', f, rank', he, hrest⟩ :=
          h.exec_relink hshape' hpath' (hlink.trans (by rw [hold]))
        refine ⟨r, t', db', f, rank', ?_, hrest⟩
        rw [redirectLink, Proc.exec_bind_ok hread]
        simp only [hold, ↓reduceIte]
        rw [Proc.exec_bind_ok (exec_walkBound t db), Proc.exec_bind_ok hfound]
        exact he
    · by_cases hz : n.nextLeaf = 0
      · refine Shifts.of_pure h (r := .ok ()) ?_ (by simp)
        rw [redirectLink, Proc.exec_bind_ok hread]
        rw [if_neg hold, if_pos hz]
        rfl
      · obtain ⟨l', hl', hlt⟩ := habove (hnx ▸ h.holds.wf.actualPage_ne_zero hz)
        rw [← hnx] at hl'
        obtain ⟨r, t', db', f, rank', he, hrest⟩ :=
          ih hl' (by have := h.ranked.ahead_lt hl' hlt; omega)
        refine ⟨r, t', db', f, rank', ?_, hrest⟩
        rw [redirectLink, Proc.exec_bind_ok hread]
        rw [if_neg hold, if_neg hz]
        exact he

-- `let _ = self.update_predecessor_next_leaf(..)` after a leaf was copied.
theorem Represents.exec_updatePredecessor {oldPage newPage : PageNum} (h : Represents t db rank T)
    (hlink : t.actualPage newPage = t.actualPage oldPage) :
    ∃ t' db' f rank',
      Proc.exec (ignoreErrors (updatePredecessorNextLeaf oldPage newPage)) t db =
        (.ok (), t', db') ∧
      Represents t' db' rank' (T.mapPtr f) ∧ Moved t db rank f t' db' rank' ∧
      ∀ S, Settled t db [T] S → Settled t' db' [T.mapPtr f] S := by
  have hshifts : Shifts t db rank T (updatePredecessorNextLeaf oldPage newPage) := by
    obtain ⟨root, hroot, hpage, hshape⟩ := h.plug_nil.subtree
    have hact : t.actualPage t.getCurrentRoot = T.ptr := by
      rw [actualPage_of_none h.holds.wf.root, h.root]
    have hread := TxBTree.exec_readNode h.holds.wf (hact ▸ hroot)
    obtain ⟨m, hm, l, hl, hmact⟩ := h.plug_nil.reads_leftmostLeaf hroot
      (Nat.le_succ_of_le h.holds.height_le)
    have hwalk : ∀ p, rank (t.actualPage p) = some l → Shifts t db rank T
        (redirectLink root t.getCurrentRoot oldPage newPage (db.pager.numPages + 1) p) := by
      intro p hp
      exact h.exec_redirectLink hroot hlink hp (by have := ahead_le db rank l; omega)
    unfold Shifts updatePredecessorNextLeaf
    rw [Proc.exec_bind_ok (Proc.exec_getLocal t db), Proc.exec_bind_ok hread,
      Proc.exec_bind_ok (exec_walkBound t db)]
    cases htype : root.nodeType with
    | leafNode =>
      obtain rfl : root = m := by
        simpa [leftmostLeaf, htype, Proc.exec_pure] using hm
      exact hwalk t.getCurrentRoot (by rw [hact, ← hpage]; exact hl)
    | internalNode =>
      simp only
      rw [Proc.exec_bind_ok hm]
      exact hwalk m.pageNum (by rw [hmact, hl])
  obtain ⟨r, t', db', f, rank', he, hr, hrest⟩ := hshifts
  refine ⟨t', db', f, rank', ?_, hrest⟩
  unfold ignoreErrors
  rw [Proc.exec_bind_ok (exec_catching he hr)]
  rfl

end JasonDb.TxBTree
