import JasonDb.TxBTree.Write

namespace JasonDb.TxBTree

open Lib SearchTree

-- A lower bound for the keys of a leaf page. Links go to pages with larger bounds,
-- also from pages the tree has left behind, so following them comes to an end.
abbrev Rank := PageNum → Option (Bound String)

def LeafOk (rank : Rank) : LeafPred PageNum String LeafEntry := fun lo hi p es nx =>
  LeafSorted LeafEntry.key lo hi p es nx ∧ rank p = some lo ∧
    (nx ≠ 0 → ∃ l, rank nx = some l ∧ hi ≤ l)

-- A leaf whose link, if it has one, goes to a larger bound than `l`.
def LinkAbove (rank : Rank) (l : Bound String) (s : PageShape) : Prop :=
  ∃ es nx, s = .leaf es nx ∧ (nx ≠ 0 → ∃ l', rank nx = some l' ∧ l < l')

-- A page and its copy have the same bound.
structure Ranked (t : TxBTree) (db : Database) (rank : Rank) : Prop where
  link : ∀ p l, rank p = some l → ∃ s, t.store db p = some s ∧ LinkAbove rank l s
  alloc : ∀ p l, rank p = some l → db.pager.Allocated p
  act : ∀ p l, rank (t.actualPage p) = some l → rank p = some l

-- The handle reads the trees of `F`, each page of them in use and current.
structure Holds (t : TxBTree) (db : Database) (F : List PageTree) : Prop where
  wf : t.WF db
  stores : Stores (t.store db) F
  live : ∀ p ∈ F.flatMap ptrs, db.pager.Allocated p ∧ t.cowPages.get? p = none

-- The handle's tree is `T`, with all keys in order.
structure Represents (t : TxBTree) (db : Database) (rank : Rank) (T : PageTree) : Prop where
  holds : Holds t db [T]
  root : T.ptr = t.getCurrentRoot
  ranked : Ranked t db rank
  ordered : All (LeafOk rank) ⊥ ⊤ T

-- The handle after steps that moved the nodes of its tree by `f` and did no more.
structure Moved (t : TxBTree) (db : Database) (rank : Rank) (f : PageNum → PageNum)
    (t' : TxBTree) (db' : Database) (rank' : Rank) : Prop where
  act : t'.actualPage = f ∘ t.actualPage
  root : t'.getCurrentRoot = f t.getCurrentRoot
  zero : f 0 = 0
  rank : ∀ p l, rank p = some l → rank' (f p) = some l
  fresh : ∀ p, f p = p ∨ f p ∈ t'.newPages
  ext : Extends t db t' db'

theorem Moved.refl (t : TxBTree) (db : Database) (rank : Rank) : Moved t db rank id t db rank :=
  ⟨rfl, rfl, rfl, fun _ _ h => h, fun _ => Or.inl rfl, Extends.refl _ _⟩

theorem Moved.trans {t t' t'' : TxBTree} {db db' db'' : Database} {rank rank' rank'' : Rank}
    {f g : PageNum → PageNum} (h : Moved t db rank f t' db' rank')
    (h' : Moved t' db' rank' g t'' db'' rank'') : Moved t db rank (g ∘ f) t'' db'' rank'' where
  act := by rw [h'.act, h.act, Function.comp_assoc]
  root := by rw [h'.root, h.root, Function.comp_apply]
  zero := by rw [Function.comp_apply, h.zero, h'.zero]
  rank p l hp := h'.rank _ _ (h.rank p l hp)
  fresh p := by
    rcases h'.fresh (f p) with hg | hg
    · rcases h.fresh p with hf | hf
      · exact Or.inl (by rw [Function.comp_apply, hg, hf])
      · exact Or.inr (by rw [Function.comp_apply, hg]; exact h'.ext.new _ hf)
    · exact Or.inr hg
  ext := h.ext.trans h'.ext

theorem Moved.leafOk {t t' : TxBTree} {db db' : Database} {rank rank' : Rank}
    {f : PageNum → PageNum} (h : Moved t db rank f t' db' rank') :
    ∀ lo hi p es nx, LeafOk rank lo hi p es nx → LeafOk rank' lo hi (f p) es (f nx) := by
  intro lo hi p es nx ⟨hs, hr, hn⟩
  refine ⟨hs, h.rank p lo hr, fun hne => ?_⟩
  obtain ⟨l, hl, hle⟩ := hn fun e => hne (by rw [e, h.zero])
  exact ⟨l, h.rank nx l hl, hle⟩

section Read

variable {t : TxBTree} {db : Database} {F : List PageTree} {p : PageNum} {s : PageShape}

theorem Holds.nodeAt (h : Holds t db F) (hp : (p, s) ∈ F.flatMap cells) :
    ∃ n, db.nodeAt p = some n ∧ n.pageNum = p ∧ n.shape t.actualPage = s := by
  have hs := h.stores.stored _ hp
  simp only [TxBTree.store, Option.map_eq_some_iff] at hs
  obtain ⟨n, hn, hshape⟩ := hs
  exact ⟨n, hn, Database.nodeAt_pageNum hn, hshape⟩

theorem Holds.live_of_cell (h : Holds t db F) (hp : (p, s) ∈ F.flatMap cells) :
    db.pager.Allocated p ∧ t.cowPages.get? p = none := by
  apply h.live
  rw [← map_fst_flatMap_cells]
  exact List.mem_map_of_mem hp

-- Reading a node of the tree through any pointer to it.
theorem Holds.exec_readNode (h : Holds t db F) (hp : (p, s) ∈ F.flatMap cells) {r : PageNum}
    (hr : t.actualPage r = p) :
    ∃ n, Proc.exec (readNode r) t db = (.ok n, t, db) ∧ db.nodeAt p = some n ∧ n.pageNum = p ∧
      n.shape t.actualPage = s := by
  obtain ⟨n, hn, hpage, hshape⟩ := h.nodeAt hp
  exact ⟨n, TxBTree.exec_readNode h.wf (hr ▸ hn), hn, hpage, hshape⟩

end Read

section Written

variable {t t' : TxBTree} {db db' : Database} {n : BTreeNode} {q : PageNum} {rank : Rank}

-- The bounds of leaf pages after a write: a copy has that of its original.
def Rank.move (rank : Rank) (p q : PageNum) : Rank := Function.update rank q (rank p)

theorem Wrote.rank_relocate (hw : Wrote t db n q t' db') (hr : Ranked t db rank) {p : PageNum}
    {l : Bound String} (hp : rank p = some l) :
    rank.move n.pageNum q (relocate n.pageNum q p) = some l := by
  unfold Rank.move
  by_cases h : p = n.pageNum
  · subst h
    rw [relocate_self, Function.update_self, hp]
  · rw [relocate_of_ne h, Function.update_of_ne, hp]
    rintro rfl
    rcases hw.target with ⟨_, ht⟩ | ⟨_, ht⟩
    · exact h ht
    · exact ht (hr.alloc p l hp)

theorem Wrote.moved (hw : Wrote t db n q t' db') (hp : n.pageNum ≠ 0) (hr : Ranked t db rank) :
    Moved t db rank (relocate n.pageNum q) t' db' (rank.move n.pageNum q) where
  act := hw.act
  root := hw.root
  zero := relocate_of_ne hp.symm
  rank p l h := hw.rank_relocate hr h
  fresh p := by
    by_cases h : p = n.pageNum
    · subst h
      exact Or.inr (by rw [relocate_self]; exact (hw.new q).mpr (Or.inl rfl))
    · exact Or.inl (relocate_of_ne h)
  ext := hw.ext

theorem Moved.linkAbove {rank' : Rank} {f : PageNum → PageNum}
    (h : Moved t db rank f t' db' rank') {l : Bound String} {s : PageShape}
    (hs : LinkAbove rank l s) : LinkAbove rank' l (s.mapPtr f) := by
  obtain ⟨es, nx, rfl, hl⟩ := hs
  refine ⟨es, f nx, rfl, fun hne => ?_⟩
  obtain ⟨l', hl', hlt⟩ := hl fun e => hne (by rw [e, h.zero])
  exact ⟨l', h.rank nx l' hl', hlt⟩

theorem WF.eq_of_unused (h : t.WF db) {x p : PageNum} (hx : t.actualPage x = p)
    (hp : ¬ db.pager.Allocated p) : x = p := by
  cases hc : t.cowPages.get? x with
  | none => rwa [actualPage_of_none hc] at hx
  | some y =>
    obtain rfl : y = p := by simpa [actualPage, hc] using hx
    exact absurd (h.created y (h.copied x y hc).1) hp

theorem Wrote.rank_act (hw : Wrote t db n q t' db') (h : t.WF db) (hr : Ranked t db rank)
    {x : PageNum} {l : Bound String}
    (hx : rank.move n.pageNum q (relocate n.pageNum q (t.actualPage x)) = some l) :
    rank.move n.pageNum q x = some l := by
  unfold Rank.move at hx ⊢
  by_cases hxq : x = q
  · subst hxq
    rcases hw.target with ⟨hnew, ht⟩ | ⟨_, hu⟩
    · have hact : t.actualPage x = x := by
        refine actualPage_of_none ?_
        by_contra hc
        obtain ⟨y, hy⟩ := Option.ne_none_iff_exists'.mp hc
        exact (h.copied x y hy).2.1 (ht ▸ hnew)
      rw [hact, ht, relocate_self] at hx
      rwa [ht]
    · have hact : t.actualPage x = x := by
        refine actualPage_of_none ?_
        by_contra hc
        obtain ⟨y, hy⟩ := Option.ne_none_iff_exists'.mp hc
        exact hu (h.copied x y hy).2.2
      by_cases hxn : x = n.pageNum
      · rw [hact, hxn, relocate_self] at hx
        rwa [hxn]
      · rwa [hact, relocate_of_ne hxn] at hx
  · rw [Function.update_of_ne hxq]
    apply hr.act
    by_cases hxn : t.actualPage x = n.pageNum
    · rw [hxn, relocate_self, Function.update_self] at hx
      rwa [hxn]
    · rw [relocate_of_ne hxn] at hx
      rwa [Function.update_of_ne] at hx
      intro he
      rcases hw.target with ⟨_, ht⟩ | ⟨_, hu⟩
      · exact hxn (he.trans ht)
      · exact hxq (h.eq_of_unused he hu)

-- Links stay in order when the written node, if it is a leaf, has its link in order.
theorem Wrote.ranked (hw : Wrote t db n q t' db') (h : t.WF db) (hp : n.pageNum ≠ 0)
    (hr : Ranked t db rank)
    (hn : ∀ l, rank n.pageNum = some l → LinkAbove rank l (n.shape t.actualPage)) :
    Ranked t' db' (rank.move n.pageNum q) := by
  have hmoved := hw.moved hp hr
  constructor
  · intro x l hx
    rw [hw.store]
    by_cases hxq : x = q
    · subst hxq
      have hl := hn l (by simpa [Rank.move] using hx)
      exact ⟨_, by simp [writeAt], hmoved.linkAbove hl⟩
    · rw [Rank.move, Function.update_of_ne hxq] at hx
      obtain ⟨s, hs, hl⟩ := hr.link x l hx
      exact ⟨_, by simp only [writeAt, hs, hxq, ↓reduceIte, Option.map_some], hmoved.linkAbove hl⟩
  · intro p l hp
    by_cases h : p = q
    · rw [h]
      exact hw.used
    · rw [Rank.move, Function.update_of_ne h] at hp
      exact hw.ext.alloc p (hr.alloc p l hp)
  · intro x l hx
    rw [hw.act] at hx
    exact hw.rank_act h hr hx

theorem Wrote.live (hw : Wrote t db n q t' db') {p : PageNum}
    (hp : db.pager.Allocated p ∧ t.cowPages.get? p = none) :
    db'.pager.Allocated (relocate n.pageNum q p) ∧
      t'.cowPages.get? (relocate n.pageNum q p) = none := by
  constructor
  · by_cases h : p = n.pageNum
    · rw [h, relocate_self]
      exact hw.used
    · rw [relocate_of_ne h]
      exact hw.ext.alloc p hp.1
  · have := hw.wf.get?_actualPage p
    rwa [hw.act, Function.comp_apply, actualPage_of_none hp.2] at this

end Written

section Steps

variable {t : TxBTree} {db : Database} {F F' : List PageTree} {n : BTreeNode}

-- `write_node` turns the forest `F` into `F'` when they differ in that node only.
theorem Holds.exec_write {rest : List (PageNum × PageShape)} (h : Holds t db F)
    (hold : (F.flatMap cells).Perm rest ∨ ∃ s, (F.flatMap cells).Perm ((n.pageNum, s) :: rest))
    (hnew : (F'.flatMap cells).Perm ((n.pageNum, n.shape t.actualPage) :: rest))
    (hp : n.pageNum ∉ rest.map Prod.fst)
    (hlive : db.pager.Allocated n.pageNum ∧ t.cowPages.get? n.pageNum = none) :
    ∃ q t' db', Proc.exec (writeNode n) t db = (.ok q, t', db') ∧ Wrote t db n q t' db' ∧
      Holds t' db' (F'.map (mapPtr (relocate n.pageNum q))) := by
  obtain ⟨q, t', db', he, hw⟩ := TxBTree.exec_writeNode h.wf n hlive.1 hlive.2
  have hrest : ∀ x ∈ rest.map Prod.fst, x ∈ F.flatMap ptrs := by
    intro x hx
    rw [← map_fst_flatMap_cells]
    rcases hold with hold | ⟨s, hold⟩
    · exact (hold.map Prod.fst).mem_iff.mpr hx
    · exact (hold.map Prod.fst).mem_iff.mpr (List.mem_cons_of_mem _ hx)
  have hq : q ∉ rest.map Prod.fst := by
    rcases hw.target with ⟨_, ht⟩ | ⟨_, ht⟩
    · rwa [ht]
    · exact fun hm => ht (h.live q (hrest q hm)).1
  have hstores := h.stores.write hold hnew hp hq
  rw [← hw.store] at hstores
  refine ⟨q, t', db', he, hw, hw.wf, hstores, ?_⟩
  intro x hx
  rw [List.flatMap_map] at hx
  simp only [ptrs_mapPtr, ← List.map_flatMap, List.mem_map] at hx
  obtain ⟨y, hy, rfl⟩ := hx
  refine hw.live ?_
  rw [← map_fst_flatMap_cells] at hy
  rcases List.mem_cons.mp ((hnew.map Prod.fst).mem_iff.mp hy) with rfl | hy
  · exact hlive
  · exact h.live y (hrest y hy)

-- `write_node` for an inner node of the tree.
theorem Holds.exec_writeInner {ctx : List PageFrame} {keys keys' : List String}
    {children children' X X' : List PageTree}
    (h : Holds t db (plug ctx (node n.pageNum keys children) :: X))
    (hshape : n.shape t.actualPage = .node keys' (children'.map ptr))
    (hperm : (children' ++ X').Perm (children ++ X)) :
    ∃ q t' db', Proc.exec (writeNode n) t db = (.ok q, t', db') ∧ Wrote t db n q t' db' ∧
      Holds t' db'
        ((plug ctx (node n.pageNum keys' children') :: X').map (mapPtr (relocate n.pageNum q))) := by
  have hold := flatMap_cells_focus_node ctx n.pageNum keys children X
  refine h.exec_write (Or.inr ⟨_, hold⟩) ?_ (h.stores.not_mem_rest hold)
    (h.live_of_cell (hold.mem_iff.mpr (List.mem_cons_self ..)))
  rw [hshape]
  refine (flatMap_cells_focus_node ctx n.pageNum keys' children' X').trans (List.Perm.cons _ ?_)
  exact List.Perm.append_right _ (hperm.flatMap_right _)

-- `write_node` for a leaf of the tree.
theorem Holds.exec_writeLeaf {ctx : List PageFrame} {es es' : List LeafEntry} {nx nx' : PageNum}
    {X : List PageTree} (h : Holds t db (plug ctx (leaf n.pageNum es nx) :: X))
    (hshape : n.shape t.actualPage = .leaf es' nx') :
    ∃ q t' db', Proc.exec (writeNode n) t db = (.ok q, t', db') ∧ Wrote t db n q t' db' ∧
      Holds t' db'
        ((plug ctx (leaf n.pageNum es' nx') :: X).map (mapPtr (relocate n.pageNum q))) := by
  have hold := flatMap_cells_focus_leaf ctx n.pageNum es nx X
  refine h.exec_write (Or.inr ⟨_, hold⟩) ?_ (h.stores.not_mem_rest hold)
    (h.live_of_cell (hold.mem_iff.mpr (List.mem_cons_self ..)))
  rw [hshape]
  exact flatMap_cells_focus_leaf ctx n.pageNum es' nx' X

-- `write_node` for a node at a page of its own, not yet in a tree of `F`.
theorem Holds.exec_writeNew (h : Holds t db F)
    (hnew : (F'.flatMap cells).Perm ((n.pageNum, n.shape t.actualPage) :: F.flatMap cells))
    (hp : n.pageNum ∉ F.flatMap ptrs) (hn : n.pageNum ∈ t.newPages) :
    ∃ t' db', Proc.exec (writeNode n) t db = (.ok n.pageNum, t', db') ∧
      Wrote t db n n.pageNum t' db' ∧ Holds t' db' F' := by
  have hcow : t.cowPages.get? n.pageNum = none := by
    by_contra hc
    obtain ⟨q, hq⟩ := Option.ne_none_iff_exists'.mp hc
    exact (h.wf.copied _ q hq).2.1 hn
  rw [← map_fst_flatMap_cells] at hp
  obtain ⟨q, t', db', he, hw, hh⟩ := h.exec_write (Or.inl (List.Perm.refl _)) hnew hp
    ⟨h.wf.created _ hn, hcow⟩
  obtain rfl : q = n.pageNum := by
    rcases hw.target with ⟨_, ht⟩ | ⟨ht, _⟩
    · exact ht
    · exact absurd hn ht
  rw [relocate_refl, List.map_congr_left fun u _ => mapPtr_id u, List.map_id'] at hh
  exact ⟨t', db', he, hw, hh⟩

theorem Created.holds {t' : TxBTree} {db' : Database} {q : PageNum} (hc : Created t db q t' db')
    (h : Holds t db F) : Holds t' db' F ∧ q ∉ F.flatMap ptrs := by
  refine ⟨⟨hc.wf, ?_, ?_⟩, fun hq => hc.unused (h.live q hq).1⟩
  · rw [hc.store]
    exact h.stores
  · intro p hp
    rw [hc.cow]
    exact ⟨hc.ext.alloc p (h.live p hp).1, (h.live p hp).2⟩

theorem Created.ranked {t' : TxBTree} {db' : Database} {q : PageNum} {rank : Rank}
    (hc : Created t db q t' db') (h : Ranked t db rank) : Ranked t' db' rank ∧ rank q = none := by
  refine ⟨⟨?_, fun p l hp => hc.ext.alloc p (h.alloc p l hp), ?_⟩, ?_⟩
  · rw [hc.store]
    exact h.link
  · rw [hc.act]
    exact h.act
  · by_contra hq
    obtain ⟨l, hl⟩ := Option.ne_none_iff_exists'.mp hq
    exact hc.unused (h.alloc q l hl)

theorem Created.moved {t' : TxBTree} {db' : Database} {q : PageNum} {rank : Rank}
    (hc : Created t db q t' db') : Moved t db rank id t' db' rank :=
  ⟨hc.act, hc.root, rfl, fun _ _ h => h, fun _ => Or.inl rfl, hc.ext⟩

end Steps

end JasonDb.TxBTree
