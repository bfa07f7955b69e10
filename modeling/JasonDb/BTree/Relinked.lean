import JasonDb.BTree.Lockstep

namespace JasonDb.BTree

open Lib SearchTree

section Exact

variable {W : World} {r : PageNum} {t t' : BTree} {db db₁ db' db₁' : Database} {c d q x y : PageNum}
  {n m : BTreeNode} {qs cs : List PageNum} {B S : Set PageNum}

def World.withStale (W : World) (S : Set PageNum) : World := { W with stale := S }

theorem Points.withStale (h : Points W t q c) (hx : c ∉ S → q = W.place c) :
    Points (W.withStale S) t q c := ⟨h.used, h.actual, hx⟩

theorem Mirror.links (h : Mirror W r db t db') (hc : c ∈ W.stored) (hn : db.nodeAt c = some n)
    (hm : db'.nodeAt (W.place c) = some m) : List.Forall₂ (Points W t) m.links n.links := by
  obtain ⟨_, n', m', hn', hm', _, hs⟩ := h.nodes c hc
  obtain rfl := Option.some.inj (hn.symm.trans hn')
  obtain rfl := Option.some.inj (hm.symm.trans hm')
  exact hs.links

-- Pointers that lead to their page at once are not stale.
theorem Mirror.withStale (h : Mirror W r db t db')
    (hexact : ∀ p ∈ W.stored, ∀ n m, db.nodeAt p = some n → db'.nodeAt (W.place p) = some m →
      List.Forall₂ (fun q c => c ∈ W.stale → c ∉ S → q = W.place c) m.links n.links)
    (hup : ∀ p ∈ W.stored, ∀ n, db.nodeAt p = some n → ∀ c ∈ n.links, c ∈ W.stale → c ∉ S →
      W.place c ∈ t.newPages → W.place p ∈ t.newPages) :
    Mirror (W.withStale S) r db t db' := by
  refine { h with nodes := fun p hp => ?_, upward := fun p hp n hn c hc hnew => ?_ }
  · obtain ⟨hu, n, m, hn, hm, hk, hs⟩ := h.nodes p hp
    refine ⟨hu, n, m, hn, hm, hk, hs.type, hs.entries, hs.keys, ?_⟩
    refine (hexact p hp n m hn hm).mp (fun q c hqc hq => ?_) hs.links
    refine hq.withStale fun hcS => ?_
    by_cases hstale : c ∈ W.stale
    · exact hqc hstale hcS
    · exact hq.exact hstale
  · by_cases hcS : c ∈ S
    · exact .inr hcS
    · rcases h.upward p hp n hn c hc hnew with hown | hstale
      · exact .inl hown
      · exact .inl (hup p hp n hn c hc hstale hcS hnew)

-- Pointers that no node has are not stale.
theorem Mirror.settled (h : Mirror W r db t db')
    (hnone : ∀ p ∈ W.stored, ∀ n, db.nodeAt p = some n → ∀ c ∈ n.links, c ∉ W.stale) :
    Mirror (W.withStale ∅) r db t db' := by
  refine h.withStale (fun p hp n m hn hm => ?_) fun p hp n hn c hc hstale => ?_
  · refine forall₂_imp_mem (h.links hp hn hm) fun q c hc _ hstale => ?_
    exact absurd hstale (hnone p hp n hn c hc)
  · exact absurd hstale (hnone p hp n hn c hc)

-- Of all pointers only those to `c` may be stale, and these are all `q`. The rest of the path to
-- `c` is `cs`, in the transaction `qs`.
structure Pending (W : World) (r : PageNum) (db : Database) (t : BTree) (db' : Database)
    (q c : PageNum) (qs cs : List PageNum) : Prop where
  mirror : Mirror W r db t db'
  full : W.used ⊆ W.stored
  points : Points W t q c
  paths : Paths W t qs cs
  stale : ∀ d ∈ W.stale, d = c
  copied : c ∈ W.stale → ∃ x, t.cowPages.get? q = some x
  leads : ∀ p ∈ W.stored, p ≠ c → ∀ n m, db.nodeAt p = some n → db'.nodeAt (W.place p) = some m →
    List.Forall₂ (fun q' c' => c' = c → q' = q) m.links n.links

-- The node of the page `d` is written with exact pointers to the pages of `B`, the only ones that
-- pointers were stale to.
theorem Mirror.write_pending (h : Mirror W r db t db') (hfull : W.used ⊆ W.stored)
    (hw : Wrote t db' m x t' db₁') (he : Edited db d n db₁) (hy : Points W t y d)
    (hm : m.pageNum = W.place d) (hkind : n.nodeType = W.kind d) (hsame : Same W t n m)
    (hpaths : Paths W t qs cs) (hB : W.stale ⊆ B) (hdB : d ∉ B)
    (hothers : ∀ p ∈ W.stored, p ≠ d → ∀ n, db.nodeAt p = some n → ∀ b ∈ B, b ∉ n.links)
    (hexact : List.Forall₂ (fun q c => c ∈ B → q = W.place c) m.links n.links)
    (hcs : ∀ e ∈ cs, e ∉ B ∧ e ≠ d) :
    Pending ((W.wrote t d x).withStale {e | e = d ∧ W.place d ∉ t.newPages}) r db₁ t' db₁' y d
      qs cs := by
  obtain ⟨h₁, hf₁⟩ := h.write hw he hy.used hm hkind hsame
  have hdstale : d ∉ W.stale := fun hd => hdB (hB hd)
  have hyd : y = W.place d := hy.exact hdstale
  have hpoints := hf₁.points y d hy
  refine ⟨h₁.withStale ?_ ?_, fun c hc => .inl (hfull hc), ?_, ⟨?_, (hpaths.follows hf₁).inner⟩,
    fun c hc => hc.1, ?_, ?_⟩
  · intro p hp n₁ m₁ hn₁ hm₁
    by_cases hpd : p = d
    · subst hpd
      rw [World.place_wrote_self, hw.node] at hm₁
      obtain rfl := Option.some.inj hm₁
      obtain rfl := Option.some.inj (he.node.symm.trans hn₁)
      refine hexact.imp fun q c hq hc hcS => ?_
      have hcW : c ∈ W.stale := hc.resolve_right hcS
      have hcp : c ≠ p := fun he => hdstale (he ▸ hcW)
      rw [World.place_wrote_of_ne hcp]
      exact hq (hB hcW)
    · have hp : p ∈ W.stored := hp.resolve_right hpd
      obtain ⟨hA, hB'⟩ := h.nodeAt_wrote hw he hm hy.used hp hpd
      rw [hA] at hn₁
      rw [hB'] at hm₁
      refine forall₂_imp_mem (h.links hp hn₁ hm₁) fun q c hc _ hstale hcS => ?_
      exact absurd hc (hothers p hp hpd n₁ hn₁ c (hB (hstale.resolve_right hcS)))
  · intro p hp n₁ hn₁ c hc hstale hcS _
    by_cases hpd : p = d
    · rw [hpd, World.place_wrote_self]
      exact hw.mem_new
    · have hp : p ∈ W.stored := hp.resolve_right hpd
      rw [he.others p hpd] at hn₁
      exact absurd hc (hothers p hp hpd n₁ hn₁ c (hB (hstale.resolve_right hcS)))
  · refine hpoints.withStale fun hdS => ?_
    exact hpoints.exact fun hd => hd.elim hdstale hdS
  · refine forall₂_imp_mem (hpaths.follows hf₁).points fun q z hz hq => ?_
    refine hq.withStale fun _ => hq.exact ?_
    rintro (hstale | ⟨hzd, _⟩)
    · exact (hcs z hz).1 (hB hstale)
    · exact (hcs z hz).2 hzd
  · rintro ⟨_, hown⟩
    cases hcow : t'.cowPages.get? y with
    | some z => exact ⟨z, rfl⟩
    | none =>
      -- the page was copied, so the old pointer cannot lead to it by itself
      have hact : t'.actualPage y = (t'.cowPages.get? y).getD y := if_pos hw.copies.active
      rw [hcow, hpoints.actual, World.place_wrote_self, Option.getD_none, hyd] at hact
      rcases hw.target with ⟨hmem, _⟩ | ⟨_, hfresh⟩
      · exact absurd (hm ▸ hmem) hown
      · exact absurd (hact ▸ (h.live d hy.used).2) hfresh
  · intro p hp hpd n₁ m₁ hn₁ hm₁
    have hp : p ∈ W.stored := hp.resolve_right hpd
    obtain ⟨hA, hB'⟩ := h.nodeAt_wrote hw he hm hy.used hp hpd
    refine (h.links hp (hA ▸ hn₁) (hB' ▸ hm₁)).imp fun q c hq hcd => ?_
    subst hcd
    exact (hq.exact hdstale).trans hyd.symm

end Exact

section Holds

variable {db : Database} {F : List PageTree} {p p' c : PageNum} {n n' : BTreeNode}

theorem Holds.exists_nodeAt (h : Holds db F) (hp : p ∈ F.flatMap ptrs) : ∃ n, db.nodeAt p = some n := by
  rw [← map_fst_flatMap_cells] at hp
  obtain ⟨⟨_, s⟩, hc, rfl⟩ := List.mem_map.mp hp
  obtain ⟨n, hn, _⟩ := h.nodeAt hc
  exact ⟨n, hn⟩

theorem Holds.cell_of_nodeAt (h : Holds db F) (hp : p ∈ F.flatMap ptrs) (hn : db.nodeAt p = some n) :
    (p, n.shape id) ∈ F.flatMap cells := by
  rw [← map_fst_flatMap_cells] at hp
  obtain ⟨⟨_, s⟩, hc, rfl⟩ := List.mem_map.mp hp
  obtain ⟨n', hn', _, rfl⟩ := h.nodeAt hc
  obtain rfl := Option.some.inj (hn.symm.trans hn')
  exact hc

theorem children_shape_id (n : BTreeNode) : (n.shape id).children = n.links := by
  rw [BTreeNode.children_shape, List.map_id]

theorem Holds.links_nodup (h : Holds db F) (hp : p ∈ F.flatMap ptrs) (hn : db.nodeAt p = some n) :
    n.links.Nodup := by
  rw [← children_shape_id]
  exact h.stores.children_nodup (h.cell_of_nodeAt hp hn)

theorem Holds.link_mem (h : Holds db F) (hp : p ∈ F.flatMap ptrs) (hn : db.nodeAt p = some n)
    (hc : c ∈ n.links) : c ∈ F.flatMap ptrs := by
  rw [← children_shape_id] at hc
  refine (flatMap_ptrs_perm F).mem_iff.mpr (List.mem_append_right _ ?_)
  exact List.mem_flatMap.mpr ⟨_, h.cell_of_nodeAt hp hn, hc⟩

theorem Holds.link_unique (h : Holds db F) (hp : p ∈ F.flatMap ptrs) (hp' : p' ∈ F.flatMap ptrs)
    (hn : db.nodeAt p = some n) (hn' : db.nodeAt p' = some n') (hc : c ∈ n.links)
    (hc' : c ∈ n'.links) : p = p' := by
  rw [← children_shape_id] at hc hc'
  exact h.stores.parent_unique (h.cell_of_nodeAt hp hn) (h.cell_of_nodeAt hp' hn') hc hc'

theorem Holds.root_not_link {T : PageTree} (h : Holds db F) (hT : T ∈ F) (hp : p ∈ F.flatMap ptrs)
    (hn : db.nodeAt p = some n) : T.ptr ∉ n.links := by
  rw [← children_shape_id]
  exact h.stores.root_not_child hT (h.cell_of_nodeAt hp hn)

-- The node above a subtree has a pointer to it.
theorem Holds.frame_link {fr : PageFrame} {ctx : List PageFrame} {sub : PageTree}
    (h : Holds db [plug (fr :: ctx) sub]) :
    fr.ptr ∈ (plug (fr :: ctx) sub).ptrs ∧ ∀ n, db.nodeAt fr.ptr = some n → sub.ptr ∈ n.links := by
  have hcell : (fr.ptr, fr.shape sub.ptr) ∈ [plug (fr :: ctx) sub].flatMap cells := by
    refine (flatMap_cells_focus_node ctx fr.ptr fr.keys (fr.left ++ sub :: fr.right) []).mem_iff.mpr ?_
    simp [Frame.shape]
  refine ⟨List.mem_map_of_mem (by simpa using hcell), fun n hn => ?_⟩
  obtain ⟨n', hn', _, hshape⟩ := h.nodeAt hcell
  obtain rfl := Option.some.inj (hn.symm.trans hn')
  rw [← children_shape_id, hshape]
  simp [Frame.shape, Shape.children]

end Holds

section Round

variable {W : World} {r : PageNum} {t : BTree} {db db' : Database} {c d q x y : PageNum}
  {n m : BTreeNode} {qs cs : List PageNum}

-- The pointer `q` to `c` is replaced, and no other.
theorem forall₂_replaceChild_exact {qs cs : List PageNum} (hnodup : cs.Nodup)
    (h : List.Forall₂ (fun q' c' => c' = c ↔ q' = q) qs cs) :
    List.Forall₂ (fun q' c' => c' = c → q' = x) (TxBTree.replaceChild q x qs) cs := by
  induction h with
  | nil => exact .nil
  | @cons q' c' _ _ hiff hrest ih =>
    obtain ⟨hnot, hnodup⟩ := List.nodup_cons.mp hnodup
    unfold TxBTree.replaceChild
    by_cases hq : q' = q
    · rw [if_pos hq]
      obtain rfl := hiff.mpr hq
      exact .cons (fun _ => rfl) (forall₂_imp_mem hrest fun _ e he _ hec => absurd (hec ▸ he) hnot)
    · rw [if_neg hq]
      exact .cons (fun hc => absurd (hiff.mp hc) hq) (ih hnodup)

-- Without stale pointers the next page of the path can be the one pointers may be stale to.
theorem Pending.of_settled (h : Mirror W r db t db') (hfull : W.used ⊆ W.stored)
    (hq : Points W t q c) (hpaths : Paths W t qs cs) (hstale : W.stale = ∅) :
    Pending W r db t db' q c qs cs := by
  refine ⟨h, hfull, hq, hpaths, by simp [hstale], by simp [hstale], fun p hp _ n m hn hm => ?_⟩
  refine (h.links hp hn hm).imp fun q' c' hq' hc => ?_
  subst hc
  rw [hq'.exact (by simp [hstale]), hq.exact (by simp [hstale])]

-- A round of `update_path_after_modification` makes the pointers to `c` exact. After it only those
-- to the parent `d` may be stale.
theorem Pending.exec_relink (h : Pending W r db t db' q c (y :: qs) (d :: cs))
    (hat : At W t db db' n m y d qs cs) (hkind : W.kind d = .internalNode) (hlink : c ∈ n.links)
    (hnodup : n.links.Nodup) (hpath : (c :: d :: cs).Nodup)
    (hparent : ∀ p ∈ W.stored, p ≠ d → ∀ n, db.nodeAt p = some n → c ∉ n.links) :
    ∃ W₁ t₁ db₁', Proc.exec (relink m q) t db' = (.ok (), t₁, db₁') ∧
      Pending W₁ r db t₁ db₁' y d qs cs ∧ W₁.stored ⊆ W.stored := by
  have htype : n.nodeType = .internalNode := hat.kind.trans hkind
  have hlinks : n.links = n.children := by rw [BTreeNode.links, htype]
  have hlinks' : m.links = m.children := by rw [BTreeNode.links, hat.same.type, htype]
  obtain ⟨hcpath, hdpath⟩ := List.nodup_cons.mp hpath
  have hdc : d ≠ c := fun he => hcpath (he ▸ List.mem_cons_self ..)
  have hpaths : Paths W t qs cs :=
    ⟨(List.forall₂_cons.mp h.paths.points).2, fun e he => h.paths.inner e (List.mem_cons_of_mem _ he)⟩
  unfold relink
  rw [Proc.exec_bind_ok (Proc.exec_getLocal t db')]
  cases hx : t.cowPages.get? q with
  | none =>
    have hstale : W.stale = ∅ := by
      refine Set.eq_empty_of_forall_notMem fun e he => ?_
      obtain ⟨x, hcow⟩ := h.copied (h.stale e he ▸ he)
      rw [hx] at hcow
      cases hcow
    exact ⟨W, t, db', Proc.exec_pure .., .of_settled h.mirror h.full hat.points hpaths hstale,
      subset_rfl⟩
  | some x =>
    obtain rfl := h.mirror.cow_place h.points hx
    have hleads := h.leads d hat.stored hdc n m hat.node hat.node'
    have hmem : q ∈ m.children := by
      obtain ⟨q', hq', heq⟩ := forall₂_mem_right hleads hlink
      rw [← hlinks', ← heq rfl]
      exact hq'
    have hsame := hat.same.replaceChild htype fun e he =>
      h.mirror.points_of_actual h.points (h.mirror.points_place h.points.used) he
    have hexact : List.Forall₂ (fun q' c' => c' = c → q' = W.place c)
        (TxBTree.replaceChild q (W.place c) m.children) n.children := by
      rw [hlinks] at hnodup
      refine forall₂_replaceChild_exact hnodup ?_
      rw [hlinks, hlinks'] at hleads
      refine hleads.mp (fun q' c' hlead hq' => ⟨hlead, ?_⟩) (hat.same.children htype)
      rintro rfl
      exact h.mirror.inj c' hq'.used c h.points.used (hq'.actual.symm.trans h.points.actual)
    obtain ⟨z, t₁, db₁', hwrite, hw⟩ := h.mirror.exec_write
      (m := { m with children := TxBTree.replaceChild q (W.place c) m.children })
      hat.points.used hat.page
    refine ⟨_, t₁, db₁', by simpa only [if_pos hmem] using hwrite,
      h.mirror.write_pending (B := {c}) h.full hw (edited_self h.mirror.pager hat.node) hat.points
        hat.page hat.kind hsame hpaths h.stale hdc ?_ ?_ ?_, ?_⟩
    · rintro p hp hpd n' hn' b rfl
      exact hparent p hp hpd n' hn'
    · rw [hlinks, BTreeNode.links]
      simp only [hat.same.type, htype]
      refine hexact.imp fun q' c' hq hc => ?_
      obtain rfl : c' = c := hc
      exact hq rfl
    · intro e he
      refine ⟨fun hec => hcpath ?_, fun hed => (List.nodup_cons.mp hdpath).1 (hed ▸ he)⟩
      obtain rfl : e = c := hec
      exact List.mem_cons_of_mem _ he
    · rintro p (hp | rfl)
      · exact hp
      · exact hat.stored

-- After `update_path_after_modification` no pointer is stale, from the first round to that of the
-- root, to which there is no pointer.
theorem Pending.exec_updatePath {ctx : List PageFrame} {sub : PageTree}
    (hholds : Holds db [plug ctx sub])
    (h : Pending W (plug ctx sub).ptr db t db' q sub.ptr qs (ctx.map Frame.ptr))
    (hstored : ∀ p ∈ W.stored, p ∈ (plug ctx sub).ptrs) :
    ∃ W₁ t₁ db₁', Proc.exec (updatePathAfterModification (q :: qs)) t db' = (.ok (), t₁, db₁') ∧
      Mirror W₁ (plug ctx sub).ptr db t₁ db₁' ∧ W₁.used ⊆ W₁.stored ∧ W₁.stale = ∅ := by
  induction ctx generalizing W t db' q qs sub with
  | nil =>
    obtain rfl := List.forall₂_nil_right_iff.mp h.paths.points
    have hnone : ∀ p ∈ W.stored, ∀ n, db.nodeAt p = some n → ∀ c ∈ n.links, c ∉ W.stale := by
      intro p hp n hn c hc hstale
      rw [h.stale c hstale] at hc
      have hp : p ∈ [plug [] sub].flatMap ptrs := by simpa using hstored p hp
      exact hholds.root_not_link (T := sub) (List.mem_singleton.mpr rfl) hp hn hc
    exact ⟨W.withStale ∅, t, db', Proc.exec_pure .., h.mirror.settled hnone, h.full, rfl⟩
  | cons fr ctx ih =>
    obtain ⟨y, ys, hy, hys, rfl⟩ := List.forall₂_cons_right_iff.mp h.paths.points
    obtain ⟨hfr, hkind⟩ := h.paths.inner fr.ptr (List.mem_cons_self ..)
    have hpaths : Paths W t ys (ctx.map Frame.ptr) :=
      ⟨hys, fun e he => h.paths.inner e (List.mem_cons_of_mem _ he)⟩
    obtain ⟨n, m, _, hread, hat⟩ := h.mirror.at_read hy hfr hpaths
    obtain ⟨hmem, hlink⟩ := hholds.frame_link
    have hptrs : ∀ p ∈ W.stored, p ∈ [plug (fr :: ctx) sub].flatMap ptrs := fun p hp => by
      simpa using hstored p hp
    have hnodup : (plug (fr :: ctx) sub).ptrs.Nodup := by simpa using hholds.stores.nodup_ptrs
    obtain ⟨W₁, t₁, db₁', hround, h₁, hsub⟩ := h.exec_relink hat hkind (hlink n hat.node)
      (hholds.links_nodup (hptrs _ hfr) hat.node) (nodup_path hnodup)
      fun p hp hne n' hn' hc => hne (hholds.link_unique (hptrs p hp) (hptrs _ hfr) hn' hat.node hc
        (hlink n hat.node))
    have hholds' : Holds db [plug ctx (fr.fill sub)] := hholds
    obtain ⟨W₂, t₂, db₂', hrest, h₂, hfull₂, hstale₂⟩ := ih hholds' h₁
      fun p hp => hstored p (hsub hp)
    exact ⟨W₂, t₂, db₂', (exec_updatePath_cons hread hround).trans hrest, h₂, hfull₂, hstale₂⟩

end Round

end JasonDb.BTree
