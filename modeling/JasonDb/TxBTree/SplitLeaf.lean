import JasonDb.TxBTree.Parent

namespace JasonDb.TxBTree

open Lib SearchTree

variable {t : TxBTree} {db : Database} {rank : Rank}

def leftLeaf (n : BTreeNode) (mid : Nat) (r : PageNum) : BTreeNode :=
  { n with entries := n.entries.take mid, numKeys := mid, nextLeaf := r }

def rightLeaf (n : BTreeNode) (mid : Nat) (r next : PageNum) : BTreeNode :=
  { BTreeNode.newLeaf r with
    entries := n.entries.drop mid
    numKeys := (n.entries.drop mid).length
    nextLeaf := next }

-- Bounds of leaf pages after a leaf at `p` moved to `q` and gave its keys from `k` on to
-- the page `r`.
def Rank.split (rank : Rank) (p q r : PageNum) (k : String) : Rank :=
  Function.update (rank.move p q) r (some (.key k))

section Bounds

variable {a b : BTreeNode} {q : PageNum} {t₁ t₂ : TxBTree} {db₁ db₂ : Database} {k : String}

-- A leaf is written to `q`, and its upper half to a page of its own.
theorem Moved.split (hm : Moved t db rank (relocate a.pageNum q) t₁ db₁ (rank.move a.pageNum q))
    (hw : Wrote t₁ db₁ b b.pageNum t₂ db₂) (hq : q ≠ b.pageNum) (hnone : rank b.pageNum = none) :
    Moved t db rank (relocate a.pageNum q) t₂ db₂ (rank.split a.pageNum q b.pageNum k) := by
  refine ⟨?_, ?_, hm.zero, ?_, ?_, hm.ext.trans hw.ext⟩
  · rw [hw.act, relocate_refl, Function.id_comp]
    exact hm.act
  · rw [hw.root, relocate_refl, id_eq]
    exact hm.root
  · intro x l hx
    rw [Rank.split, Function.update_of_ne]
    · exact hm.rank x l hx
    · intro he
      by_cases hxa : x = a.pageNum
      · rw [hxa, relocate_self] at he
        exact hq he
      · rw [relocate_of_ne hxa] at he
        rw [he, hnone] at hx
        simp at hx
  · intro x
    rcases hm.fresh x with hx | hx
    · exact Or.inl hx
    · exact Or.inr (hw.ext.new _ hx)

theorem Rank.split_new (p q r : PageNum) : rank.split p q r k r = some (.key k) := by simp [Rank.split]

-- Both halves link above themselves, and so does every other leaf.
theorem Ranked.split {es es' : List LeafEntry} {nx : PageNum} (h : Ranked t db rank) (hwf : t.WF db)
    (hw₁ : Wrote t db a q t₁ db₁) (hw₂ : Wrote t₁ db₁ b b.pageNum t₂ db₂)
    (hm : Moved t db rank (relocate a.pageNum q) t₂ db₂ (rank.split a.pageNum q b.pageNum k))
    (ha : a.shape t.actualPage = .leaf es b.pageNum) (hb : b.shape t.actualPage = .leaf es' nx)
    (hne : a.pageNum ≠ b.pageNum) (hq : q ≠ b.pageNum) (hself : t.actualPage b.pageNum = b.pageNum)
    (hact : ∀ x, t.actualPage x = b.pageNum → x = b.pageNum)
    (hlow : ∀ l, rank.split a.pageNum q b.pageNum k q = some l → l < .key k)
    (hlink : relocate a.pageNum q nx ≠ 0 → ∃ l,
      rank.split a.pageNum q b.pageNum k (relocate a.pageNum q nx) = some l ∧ .key k < l) :
    Ranked t₂ db₂ (rank.split a.pageNum q b.pageNum k) := by
  have hstore : t₂.store db₂ = writeAt (writeAt (t.store db) a.pageNum q (.leaf es b.pageNum))
      b.pageNum b.pageNum (.leaf es' (relocate a.pageNum q nx)) := by
    rw [hw₂.store, hw₁.store, hw₁.act, BTreeNode.shape_comp, hb, ha]
    rfl
  constructor
  · intro x l hx
    rw [hstore]
    by_cases hxr : x = b.pageNum
    · subst hxr
      obtain rfl : l = .key k := by
        rw [Rank.split_new] at hx
        exact (Option.some.inj hx).symm
      exact ⟨.leaf es' (relocate a.pageNum q nx), by simp [writeAt], _, _, rfl, hlink⟩
    · have hxq : rank.move a.pageNum q x = some l := by
        rwa [Rank.split, Function.update_of_ne hxr] at hx
      by_cases hxq' : x = q
      · subst hxq'
        refine ⟨.leaf es b.pageNum, ?_, _, _, rfl, fun _ => ⟨_, Rank.split_new .., hlow l hx⟩⟩
        simp [writeAt, hxr, Shape.mapPtr, relocate_of_ne hne.symm]
      · rw [Rank.move, Function.update_of_ne hxq'] at hxq
        obtain ⟨s, hs, hl⟩ := h.link x l hxq
        refine ⟨s.mapPtr (relocate a.pageNum q), ?_, hm.linkAbove hl⟩
        simp [writeAt, hxr, hxq', hs]
  · intro x l hx
    by_cases hxr : x = b.pageNum
    · rw [hxr]
      exact hw₂.used
    · rw [Rank.split, Function.update_of_ne hxr] at hx
      by_cases hxq : x = q
      · rw [hxq]
        exact hw₂.ext.alloc q hw₁.used
      · rw [Rank.move, Function.update_of_ne hxq] at hx
        exact hw₂.ext.alloc x (hw₁.ext.alloc x (h.alloc x l hx))
  · intro x l hx
    rw [hm.act, Function.comp_apply] at hx
    by_cases hxr : x = b.pageNum
    · rw [hxr, hself, relocate_of_ne hne.symm] at hx
      rwa [hxr]
    · have hne' : relocate a.pageNum q (t.actualPage x) ≠ b.pageNum := by
        by_cases hxa : t.actualPage x = a.pageNum
        · rwa [hxa, relocate_self]
        · rw [relocate_of_ne hxa]
          exact fun he => hxr (hact x he)
      rw [Rank.split, Function.update_of_ne hne'] at hx
      rw [Rank.split, Function.update_of_ne hxr]
      exact hw₁.rank_act hwf h hx

end Bounds

section Halves

variable {ctx : List PageFrame} {n : BTreeNode} {es : List LeafEntry} {nx r : PageNum} {mid : Nat}

-- The two halves of an overfull leaf are written.
theorem Represents.exec_leafHalves (h : Represents t db rank (plug ctx (leaf n.pageNum es nx)))
    (htype : n.nodeType = .leafNode) (hnx : t.actualPage n.nextLeaf = nx)
    (hsorted : LeafSorted LeafEntry.key (holeRange ⊥ ⊤ ctx).1 (holeRange ⊥ ⊤ ctx).2 n.pageNum
      n.entries nx)
    {first : LeafEntry} {restEntries : List LeafEntry} (hmid : 0 < mid)
    (hdrop : n.entries.drop mid = first :: restEntries)
    (hnew : r ∈ t.newPages) (hfresh : r ∉ (plug ctx (leaf n.pageNum es nx)).ptrs)
    (hnone : rank r = none) (hact : ∀ x, t.actualPage x = r → x = r) :
    ∃ q t₁ db₁ t₂ db₂ rank₂,
      Proc.exec (writeNode (leftLeaf n mid r)) t db = (.ok q, t₁, db₁) ∧
      Proc.exec (writeNode (rightLeaf n mid r nx)) t₁ db₁ = (.ok r, t₂, db₂) ∧
      SplitParent t₂ db₂ rank₂ (ctx.map (Frame.mapPtr (relocate n.pageNum q)))
        (leaf q (n.entries.take mid) r) (leaf r (n.entries.drop mid) (relocate n.pageNum q nx))
        first.key ∧
      Moved t db rank (relocate n.pageNum q) t₂ db₂ rank₂ ∧ q ∈ t₂.newPages ∧
      ∀ S old, Settled t db [plug ctx (leaf n.pageNum es nx)] S → t.actualPage old = n.pageNum →
        Settled t₂ db₂ [plug (ctx.map (Frame.mapPtr (relocate n.pageNum q)))
          (leaf q (n.entries.take mid) r),
          leaf r (n.entries.drop mid) (relocate n.pageNum q nx)] (S ∪ {old}) := by
  have hold := flatMap_cells_focus_leaf ctx n.pageNum es nx []
  have hcell := hold.mem_iff.mpr (List.mem_cons_self ..)
  have hlive := h.holds.live_of_cell hcell
  obtain ⟨houter, hleaf⟩ := (all_plug ctx _).mp h.ordered
  obtain ⟨_, hrankp, hlinkp⟩ := hleaf
  have hrnew : t.actualPage r = r := h.holds.wf.of_new hnew
  have hnxnx : t.actualPage nx = nx := by
    rw [← hnx]
    exact actualPage_of_none (h.holds.wf.get?_actualPage _)
  have hr0 : r ≠ 0 := (h.holds.wf.created r hnew).1
  have hs₁ : (leftLeaf n mid r).shape t.actualPage = .leaf (n.entries.take mid) r := by
    simp [BTreeNode.shape, leftLeaf, htype, hrnew]
  have hs₂ : (rightLeaf n mid r nx).shape t.actualPage = .leaf (n.entries.drop mid) nx := by
    simp [BTreeNode.shape, rightLeaf, BTreeNode.newLeaf, hnxnx]
  obtain ⟨q, t₁, db₁, t₂, db₂, he₁, hw₁, he₂, hw₂, hqr, h₂, hS₂⟩ :=
    h.holds.exec_writeTwo (a := leftLeaf n mid r) (b := rightLeaf n mid r nx)
      (G := [plug ctx (leaf n.pageNum (n.entries.take mid) r)])
      (H := [plug ctx (leaf n.pageNum (n.entries.take mid) r), leaf r (n.entries.drop mid) nx])
      hold (by rw [hs₁]; exact flatMap_cells_focus_leaf ctx n.pageNum _ _ [])
      (by
        rw [hs₂]
        simp only [List.flatMap_cons, List.flatMap_nil, List.append_nil, cells]
        exact List.perm_append_singleton _ _)
      (by simpa [rightLeaf, BTreeNode.newLeaf] using hfresh) hnew
  have hp0 : (leftLeaf n mid r).pageNum ≠ 0 := hlive.1.1
  have hm₁ := hw₁.moved hp0 h.ranked
  have hpn : (leftLeaf n mid r).pageNum = n.pageNum := rfl
  have hrn : (rightLeaf n mid r nx).pageNum = r := rfl
  rw [hpn] at hm₁
  have hqr' : q ≠ r := hqr
  have hpr : n.pageNum ≠ r := by
    intro he
    refine hfresh (he ▸ ?_)
    have := (hold.map Prod.fst).mem_iff.mpr (List.mem_cons_self ..)
    rw [map_fst_flatMap_cells] at this
    simpa using this
  have hm : Moved t db rank (relocate n.pageNum q) t₂ db₂ (rank.split n.pageNum q r first.key) :=
    hm₁.split hw₂ hqr' hnone
  have hrankr : rank.split n.pageNum q r first.key r = some (.key first.key) := Rank.split_new ..
  have hrankq : rank.split n.pageNum q r first.key q = some (holeRange ⊥ ⊤ ctx).1 := by
    have := hm.rank n.pageNum _ hrankp
    rwa [relocate_self] at this
  -- the split key lies strictly inside the range of the leaf
  have hne : n.entries.take mid ≠ [] := by
    intro hnil
    have hlen := congrArg List.length hnil
    have hdl := congrArg List.length hdrop
    simp only [List.length_take, List.length_nil, List.length_drop, List.length_cons] at hlen hdl
    omega
  have hcut := hsorted
  rw [← List.take_append_drop mid n.entries, hdrop] at hcut
  obtain ⟨hflo, hfhi, hsl, hsr⟩ := hcut.cut hne q r r (relocate n.pageNum q nx)
  have hlinknx : relocate n.pageNum q nx ≠ 0 → ∃ l,
      rank.split n.pageNum q r first.key (relocate n.pageNum q nx) = some l ∧
        (holeRange ⊥ ⊤ ctx).2 ≤ l := by
    intro hne
    obtain ⟨l, hl, hle⟩ := hlinkp fun e => hne (by rw [e]; exact hm₁.zero)
    exact ⟨l, hm.rank nx l hl, hle⟩
  have hranked : Ranked t₂ db₂ (rank.split n.pageNum q r first.key) := by
    refine h.ranked.split h.holds.wf hw₁ hw₂ hm hs₁ hs₂ hpr hqr' hrnew hact ?_ ?_
    · intro l hl
      obtain rfl := Option.some.inj (hrankq.symm.trans hl)
      exact hflo
    · intro hne
      obtain ⟨l, hl, hle⟩ := hlinknx hne
      exact ⟨l, hl, lt_of_lt_of_le hfhi hle⟩
  have hforest : [plug ctx (leaf n.pageNum (n.entries.take mid) r), leaf r (n.entries.drop mid) nx].map
      (mapPtr (relocate (leftLeaf n mid r).pageNum q)) =
      [plug (ctx.map (Frame.mapPtr (relocate n.pageNum q))) (leaf q (n.entries.take mid) r),
        leaf r (n.entries.drop mid) (relocate n.pageNum q nx)] := by
    simp [hpn, mapPtr_plug, relocate_of_ne hpr.symm]
  rw [hforest] at h₂ hS₂
  have hall := h.ordered.mapPtr hm.leafOk
  rw [mapPtr_plug] at hall
  have hrange := holeRange_mapPtr (relocate n.pageNum q) ⊥ ⊤ ctx
  refine ⟨q, t₁, db₁, t₂, db₂, _, he₁, he₂,
    ⟨h₂, hranked, ?_, ((all_plug _ _).mp hall).1, ?_, ?_, ?_, ?_⟩, hm,
    hw₂.ext.new q ((hw₁.new q).mpr (Or.inl rfl)), ?_⟩
  · rw [hm.root, ← h.root]
    have := congrArg ptr (mapPtr_plug (relocate n.pageNum q) ctx (leaf n.pageNum (n.entries.take mid) r))
    rw [ptr_mapPtr, mapPtr_leaf, relocate_self, relocate_of_ne hpr.symm] at this
    rw [← this]
    exact congrArg _ (ptr_plug_congr ctx rfl)
  · rw [hrange]
    exact hflo
  · rw [hrange]
    exact hfhi
  · rw [hrange]
    exact ⟨hsl, hrankq, fun _ => ⟨_, hrankr, le_refl _⟩⟩
  · rw [hrange]
    rw [hdrop]
    exact ⟨hsr, hrankr, hlinknx⟩
  · intro S old hS hold'
    refine hS₂ _ ?_ ?_ ?_ ?_
    · intro x hx _ m hm'
      exact (hS x hx m hm').mono fun _ => Or.inl
    · intro c hc
      simp [BTreeNode.links, leftLeaf, htype] at hc
    · intro c hc
      simp [BTreeNode.links, rightLeaf, BTreeNode.newLeaf] at hc
    · exact h.holds.wf.new_or_mem hold' S

-- The state between the writes of the two halves and the update of the parent.
theorem Represents.exec_splitLeaf_halves
    (h : Represents t db rank (plug ctx (leaf n.pageNum es nx))) (htype : n.nodeType = .leafNode)
    (hnx : t.actualPage n.nextLeaf = nx)
    (hsorted : LeafSorted LeafEntry.key (holeRange ⊥ ⊤ ctx).1 (holeRange ⊥ ⊤ ctx).2 n.pageNum
      n.entries nx)
    (hlen : BTREE_ORDER < n.entries.length) (path : List PageNum) :
    ∃ f k t' db' rank' L R,
      Proc.exec (splitLeaf n path) t db = Proc.exec (match path with
        | oldLeafPage :: parentPage :: up => do
          let parent ← readNode parentPage
          insertIntoParent (parentPage :: up) (repoint oldLeafPage L.ptr parent) k R.ptr
        | _ => createNewRoot L.ptr R.ptr k) t' db' ∧
      SplitParent t' db' rank' (ctx.map (Frame.mapPtr f)) L R k ∧
      Moved t db rank f t' db' rank' ∧ f n.pageNum = L.ptr ∧ L.ptr ∈ t'.newPages ∧
      L.entries ++ R.entries = n.entries ∧ L.ptrs = [L.ptr] ∧ R.ptrs = [R.ptr] ∧
      (∀ x ∈ [L, R].flatMap ptrs, ∀ m, db'.nodeAt x = some m → m.links = []) ∧
      Reuses t' [plug ctx (leaf n.pageNum es nx)] [plug (ctx.map (Frame.mapPtr f)) L, R] ∧
      ∀ S old, Settled t db [plug ctx (leaf n.pageNum es nx)] S → t.actualPage old = n.pageNum →
        Settled t' db' [plug (ctx.map (Frame.mapPtr f)) L, R] (S ∪ {old}) := by
  obtain ⟨r, t₀, db₀, halloc, hmark, hc⟩ := exec_allocNew h.holds.wf 0
  obtain ⟨h₀, hfresh⟩ := hc.holds h.holds
  obtain ⟨hr₀, hnone⟩ := hc.ranked h.ranked
  have hnew : r ∈ t₀.newPages := (hc.new r).mpr (Or.inl rfl)
  have hm₀ : Moved t db rank id t₀ db₀ rank := hc.moved
  have hrep₀ : Represents t₀ db₀ rank (plug ctx (leaf n.pageNum es nx)) :=
    ⟨h₀, h.root.trans hc.root.symm, hr₀, h.ordered⟩
  have hmid : 0 < n.entries.length / 2 := by
    simp only [BTREE_ORDER] at hlen
    omega
  have hdrop : ∃ first rest, n.entries.drop (n.entries.length / 2) = first :: rest := by
    refine List.exists_cons_of_ne_nil fun hnil => ?_
    rw [List.drop_eq_nil_iff] at hnil
    omega
  obtain ⟨first, rest, hdrop⟩ := hdrop
  obtain ⟨q, t₁, db₁, t₂, db₂, rank₂, he₁, he₂, hsp, hm₂, hq, hS₂⟩ :=
    hrep₀.exec_leafHalves htype (by rw [hc.act]; exact hnx) hsorted hmid hdrop hnew
      (by simpa using hfresh) hnone
      (fun x hx => h.holds.wf.eq_of_unused (by rwa [← hc.act]) hc.unused)
  have hm := hm₀.trans hm₂
  rw [Function.comp_id] at hm
  refine ⟨relocate n.pageNum q, first.key, t₂, db₂, rank₂, _, _, ?_, hsp, hm, relocate_self _ _, hq,
    ?_, ptrs_leaf _ _ _, ptrs_leaf _ _ _, ?_, ?_, ?_⟩
  · have hnext : (if n.nextLeaf ≠ 0 then t₀.actualPage n.nextLeaf else 0) = nx := by
      by_cases h0 : n.nextLeaf = 0
      · rw [if_neg (by simpa using h0), ← hnx, h0, h.holds.wf.actualPage_zero]
      · rw [if_pos h0, hc.act, hnx]
    unfold splitLeaf
    simp only [allocPage]
    rw [Proc.exec_bind_ok halloc, Proc.exec_bind_ok hmark, Proc.exec_bind_ok (Proc.exec_getLocal _ _)]
    simp only [hdrop, hnext]
    unfold leftLeaf at he₁
    unfold rightLeaf at he₂
    rw [hdrop] at he₂
    rw [Proc.exec_bind_ok he₁, Proc.exec_bind_ok he₂]
    rfl
  · simp [entries]
  · intro x hx m hm'
    have hcell := hsp.holds.stores.stored
    have hmem : ∃ es' nx', (x, (Shape.leaf es' nx' : PageShape)) ∈
        [plug (ctx.map (Frame.mapPtr (relocate n.pageNum q)))
          (leaf q (n.entries.take (n.entries.length / 2)) r),
          leaf r (n.entries.drop (n.entries.length / 2)) (relocate n.pageNum q nx)].flatMap cells := by
      simp only [List.flatMap_cons, List.flatMap_nil, ptrs_leaf, List.append_nil, List.mem_append,
        List.mem_singleton] at hx
      rcases hx with rfl | rfl
      · refine ⟨n.entries.take (n.entries.length / 2), r, ?_⟩
        simp only [List.flatMap_cons, List.mem_append]
        exact Or.inl (mem_cells_plug (by simp [cells]))
      · exact ⟨n.entries.drop (n.entries.length / 2), relocate n.pageNum q nx, by simp [cells]⟩
    obtain ⟨es', nx', hmem⟩ := hmem
    obtain ⟨m', hm'', _, hs⟩ := hsp.holds.nodeAt hmem
    obtain rfl : m = m' := Option.some.inj (hm'.symm.trans hm'')
    simp [BTreeNode.links, (BTreeNode.shape_eq_leaf hs).1]
  · have hmoved := hm₂.reuses [plug ctx (leaf n.pageNum es nx)]
    rw [List.map_cons, List.map_nil, mapPtr_plug, mapPtr_leaf, relocate_self] at hmoved
    intro p hp
    rw [List.flatMap_cons, List.flatMap_cons, List.flatMap_nil, List.append_nil, ptrs_leaf, List.mem_append,
      List.mem_singleton] at hp
    rcases hp with hp | rfl
    · have hleaf := (ptrs_plug_leaf _ q (relocate n.pageNum q nx) r es _).mem_iff.mp hp
      exact hmoved p (by simpa using hleaf)
    · exact Or.inr (hm₂.ext.new _ hnew)
  · intro S old hS hold
    refine hS₂ S old ?_ (by rw [hc.act]; exact hold)
    intro x hx m hm'
    rw [hc.nodeAt] at hm'
    exact hc.staleIn (hS x hx m hm')

-- `split_leaf`, with all that it leads to further up.
theorem Represents.exec_splitLeaf (h : Represents t db rank (plug ctx (leaf n.pageNum es nx)))
    (htype : n.nodeType = .leafNode) (hnx : t.actualPage n.nextLeaf = nx)
    (hsorted : LeafSorted LeafEntry.key (holeRange ⊥ ⊤ ctx).1 (holeRange ⊥ ⊤ ctx).2 n.pageNum
      n.entries nx)
    (hlen : BTREE_ORDER < n.entries.length) {path : List PageNum}
    (hpath : PathTo t path ctx n.pageNum) :
    ∃ t' db', Proc.exec (splitLeaf n path) t db = (.ok (), t', db') ∧
      BecomesWithin t db (plug ctx (leaf n.pageNum es nx))
        (entriesBefore ctx ++ n.entries ++ entriesAfter ctx) (uncopied t ctx) t' db' := by
  obtain ⟨f, k, t₁, db₁, rank₁, L, R, he₁, hsp, hm₁, hfp, hLnew, hentries, hLp, hRp, hlinks, hreuse, hS₁⟩ :=
    h.exec_splitLeaf_halves htype hnx hsorted hlen path
  have hL : t₁.actualPage L.ptr = L.ptr := hsp.holds.wf.of_new hLnew
  have hR : t₁.actualPage R.ptr = R.ptr :=
    actualPage_of_none (hsp.holds.live R.ptr (by simp [ptr_mem_ptrs])).2
  obtain ⟨page, up, rfl, hpage⟩ := hpath.head
  have hup := (List.cons.inj hpath).2
  rw [he₁]
  cases ctx with
  | nil =>
    obtain rfl : up = [] := List.map_eq_nil_iff.mp hup
    obtain ⟨r, t₂, db₂, he₂, h₂, hroot, hr₂, hext, hreuse₂, hS₂⟩ :=
      exec_createNewRoot hsp.holds hsp.ranked hL hR k
    refine ⟨t₂, db₂, he₂, _, rank₁, ⟨h₂, hroot.symm, hr₂, ?_⟩, ?_, hm₁.ext.trans hext, hreuse.trans hext hreuse₂,
      ?_⟩
    · exact ⟨hsp.left, hsp.lo, hsp.hi, hsp.right⟩
    · simp only [entries_node, List.flatMap_cons, List.flatMap_nil, List.append_nil]
      change L.entries ++ R.entries = _
      simp [hentries, entriesBefore, entriesAfter]
    · intro S _
      refine (hS₂ S ?_ ?_).mono fun _ => Or.inl
      · intro x hx m hm c hc
        rw [hlinks x hx m hm] at hc
        simp at hc
      · intro c hc hne
        rcases List.mem_cons.mp hc with rfl | hc
        · exact absurd hL hne
        · obtain rfl : c = R.ptr := by simpa using hc
          exact absurd hR hne
  | cons fr ctx =>
    obtain ⟨parentPage, up, rfl⟩ : ∃ a b, up = a :: b := by
      cases up with
      | nil => simp at hup
      | cons a b => exact ⟨a, b, rfl⟩
    simp only [List.map_cons] at hup
    obtain ⟨hparent, hup⟩ := List.cons.inj hup
    have hcell : ((fr.mapPtr f).ptr, (fr.mapPtr f).shape L.ptr) ∈
        [plug ((fr :: ctx).map (Frame.mapPtr f)) L, R].flatMap cells := by
      refine (flatMap_cells_focus_node (ctx.map (Frame.mapPtr f)) (fr.mapPtr f).ptr
        (fr.mapPtr f).keys ((fr.mapPtr f).left ++ L :: (fr.mapPtr f).right) [R]).mem_iff.mpr ?_
      simp [Frame.shape]
    obtain ⟨m, hread, hm, _, _⟩ := hsp.holds.exec_readNode hcell
      (r := parentPage) (by rw [hm₁.act, Function.comp_apply, hparent]; rfl)
    have hpage₁ : t₁.actualPage page = L.ptr := by
      rw [hm₁.act, Function.comp_apply, hpage, hfp]
    obtain ⟨hchild, hSchild⟩ := hsp.child hm hpage₁ hL
    obtain ⟨t₂, db₂, T', rank₂, he₂, h₂, hentries₂, hext, hreuse₂, hS₂⟩ :=
      exec_insertIntoParent hchild (show PathTo t₁ (parentPage :: up) _ _ by
        simp only [PathTo, List.map_cons, hm₁.act, Function.comp_apply, hparent, Frame.ptr_mapPtr,
          List.map_map]
        refine congrArg _ ?_
        have := congrArg (List.map f) hup
        simpa [Function.comp_def] using this)
    refine ⟨t₂, db₂, (Proc.exec_bind_ok hread).trans he₂, T', rank₂, h₂, ?_, hm₁.ext.trans hext,
      hreuse.trans hext hreuse₂, ?_⟩
    · have hb : entriesBefore (fr.mapPtr f :: ctx.map (Frame.mapPtr f)) = entriesBefore (fr :: ctx) :=
        entriesBefore_mapPtr f (fr :: ctx)
      have ha : entriesAfter (fr.mapPtr f :: ctx.map (Frame.mapPtr f)) = entriesAfter (fr :: ctx) :=
        entriesAfter_mapPtr f (fr :: ctx)
      rw [hentries₂, hentries, hb, ha]
    · intro S hS
      have hstale : StaleIn t₁ S [L.ptr] := by
        intro c hc hne
        obtain rfl : c = L.ptr := by simpa using hc
        exact absurd hL hne
      refine (hS₂ S (hSchild S (hS₁ S page hS hpage) hstale)).mono ?_
      rintro x (hx | hx)
      · exact Or.inl hx
      · exact Or.inr (uncopied_moved hm₁ (fr :: ctx) hx)

end Halves

end JasonDb.TxBTree
