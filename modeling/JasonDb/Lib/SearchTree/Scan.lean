import JasonDb.Lib.SearchTree.Balance
import Mathlib.Data.Set.Card

namespace JasonDb.Lib.SearchTree

variable {P K E B : Type}

-- The entries found at the pointers, in order, if they are found at each.
def collect (f : P → Option (List E)) : List P → Option (List E)
  | [] => some []
  | p :: rest => (f p).bind fun es => (collect f rest).map (es ++ ·)

theorem collect_cons {f : P → Option (List E)} {p : P} {rest : List P} {es : List E}
    (h : collect f (p :: rest) = some es) :
    ∃ front back, f p = some front ∧ collect f rest = some back ∧ es = front ++ back := by
  obtain ⟨front, hfront, h⟩ := Option.bind_eq_some_iff.mp h
  obtain ⟨back, hback, rfl⟩ := Option.map_eq_some_iff.mp h
  exact ⟨front, back, hfront, hback, rfl⟩

theorem collect_mono {f g : P → Option (List E)} (h : ∀ p es, f p = some es → g p = some es)
    {children : List P} {es : List E} (hes : collect f children = some es) :
    collect g children = some es := by
  induction children generalizing es with
  | nil => exact hes
  | cons p rest ih =>
    obtain ⟨front, back, hfront, hback, rfl⟩ := collect_cons hes
    rw [collect, h p front hfront, Option.bind_some, ih hback, Option.map_some]

theorem exists_collect {f : P → Option (List E)} {children : List (SearchTree P K E)}
    (h : ∀ c ∈ children, ∃ es, f c.ptr = some es ∧ c.entries ⊆ es) :
    ∃ es, collect f (children.map ptr) = some es ∧ children.flatMap entries ⊆ es := by
  induction children with
  | nil => exact ⟨[], rfl, List.nil_subset _⟩
  | cons c rest ih =>
    obtain ⟨front, hfront, hc⟩ := h c List.mem_cons_self
    obtain ⟨back, hback, hrest⟩ := ih fun d hd => h d (List.mem_cons_of_mem c hd)
    refine ⟨front ++ back, by simp [collect, hfront, hback], ?_⟩
    rw [List.flatMap_cons]
    exact List.append_subset.mpr ⟨List.subset_append_of_subset_left _ hc,
      List.subset_append_of_subset_right _ hrest⟩

section Scan

variable [DecidableEq P]

-- The entries that a scan of the store comes to from a pointer on. It goes on from a leaf to the
-- one it links to, also when it came to the leaf from a parent. The fuel bounds its depth.
def scan (σ : P → Option (Shape P K E)) (stop : P) : Nat → P → Option (List E)
  | 0, _ => none
  | fuel + 1, p =>
    if p = stop then some []
    else match σ p with
      | none => none
      | some (.leaf es nx) => if nx = stop then some es else (scan σ stop fuel nx).map (es ++ ·)
      | some (.node _ children) => collect (scan σ stop fuel) children

variable {σ : P → Option (Shape P K E)} {stop : P} {rank : P → Option B}

theorem scan_mono {fuel fuel' : Nat} (h : fuel ≤ fuel') {p : P} {es : List E}
    (hes : scan σ stop fuel p = some es) : scan σ stop fuel' p = some es := by
  induction fuel generalizing fuel' p es with
  | zero => simp [scan] at hes
  | succ fuel ih =>
    obtain ⟨more, rfl⟩ : ∃ more, fuel' = more + 1 := ⟨fuel' - 1, by omega⟩
    have hle : fuel ≤ more := by omega
    unfold scan at hes ⊢
    split
    · rwa [if_pos ‹_›] at hes
    · rw [if_neg ‹_›] at hes
      cases hσ : σ p with
      | none => simp [hσ] at hes
      | some s =>
        cases s with
        | leaf entries nx =>
          simp only [hσ] at hes ⊢
          split
          · rwa [if_pos ‹_›] at hes
          · rw [if_neg ‹_›] at hes
            obtain ⟨rest, hrest, rfl⟩ := Option.map_eq_some_iff.mp hes
            rw [ih hle hrest, Option.map_some]
        | node keys children =>
          simp only [hσ] at hes ⊢
          exact collect_mono (fun q es hq => ih hle hq) hes

-- Each page with a rank is a leaf, and links to a leaf with a larger one, if to any.
def Rising [LT B] (σ : P → Option (Shape P K E)) (stop : P) (rank : P → Option B) : Prop :=
  ∀ p l, rank p = some l →
    ∃ es nx, σ p = some (.leaf es nx) ∧ (nx ≠ stop → ∃ l', rank nx = some l' ∧ l < l')

-- The pages from a rank on.
def above [LE B] (rank : P → Option B) (l : B) : Set P := {p | ∃ l', rank p = some l' ∧ l ≤ l'}

def ranked (rank : P → Option B) : Set P := {p | (rank p).isSome}

omit [DecidableEq P] in
theorem above_subset [LE B] (rank : P → Option B) (l : B) : above rank l ⊆ ranked rank := by
  rintro q ⟨m, hm, _⟩
  exact Option.isSome_iff_exists.mpr ⟨m, hm⟩

omit [DecidableEq P] in
theorem ncard_above_lt [Preorder B] (hfinite : (ranked rank).Finite) {p : P} {l l' : B}
    (hp : rank p = some l) (h : l < l') : (above rank l').ncard < (above rank l).ncard := by
  refine Set.ncard_lt_ncard ⟨?_, fun hback => ?_⟩ (hfinite.subset (above_subset rank l))
  · rintro q ⟨m, hm, hle⟩
    exact ⟨m, hm, h.le.trans hle⟩
  · obtain ⟨m, hm, hle⟩ := hback ⟨l, hp, le_refl l⟩
    obtain rfl := Option.some.inj (hp.symm.trans hm)
    exact absurd hle (not_le_of_gt h)

-- Along links the ranks rise, so that there is an end to them.
theorem exists_scan_leaf [Preorder B] (h : Rising σ stop rank) (hfinite : (ranked rank).Finite)
    (hstop : rank stop = none) {fuel : Nat} {p : P} {l : B} (hp : rank p = some l)
    (hfuel : (above rank l).ncard ≤ fuel) :
    ∃ es nx more, σ p = some (.leaf es nx) ∧ scan σ stop fuel p = some (es ++ more) := by
  induction fuel generalizing p l with
  | zero =>
    have hpos := (Set.ncard_pos (hfinite.subset (above_subset rank l))).mpr ⟨p, l, hp, le_refl l⟩
    omega
  | succ fuel ih =>
    obtain ⟨es, nx, hσ, hlink⟩ := h p l hp
    have hne : p ≠ stop := by
      rintro rfl
      simp [hstop] at hp
    unfold scan
    rw [if_neg hne, hσ]
    simp only
    by_cases hnx : nx = stop
    · exact ⟨es, nx, [], rfl, by rw [if_pos hnx, List.append_nil]⟩
    · obtain ⟨l', hl', hlt⟩ := hlink hnx
      have hless := ncard_above_lt hfinite hp hlt
      obtain ⟨es', _, more, _, hscan⟩ := ih hl' (by omega)
      exact ⟨es, nx, es' ++ more, rfl, by rw [if_neg hnx, hscan]; rfl⟩

-- A scan of a tree whose leaves have ranks comes to an end, and to all entries of the tree.
theorem exists_scan [Preorder B] (h : Rising σ stop rank) (hfinite : (ranked rank).Finite)
    (hstop : rank stop = none) {t : SearchTree P K E} (hstored : ∀ c ∈ t.cells, σ c.1 = some c.2)
    (hnodup : t.ptrs.Nodup) (hne : stop ∉ t.ptrs)
    (hleaf : ∀ p es nx, (p, .leaf es nx) ∈ t.cells → ∃ l, rank p = some l) {fuel : Nat}
    (hfuel : ({p | p ∈ t.ptrs} ∪ ranked rank).ncard ≤ fuel) :
    ∃ es, scan σ stop fuel t.ptr = some es ∧ t.entries ⊆ es := by
  induction t using induct generalizing fuel with
  | leaf p es nx =>
    obtain ⟨l, hl⟩ := hleaf p es nx (by simp [cells])
    have hsub : above rank l ⊆ {q | q ∈ (leaf p es nx : SearchTree P K E).ptrs} ∪ ranked rank :=
      (above_subset rank l).trans Set.subset_union_right
    have hle := Set.ncard_le_ncard hsub ((List.finite_toSet _).union hfinite)
    obtain ⟨es', nx', more, hσ, hscan⟩ := exists_scan_leaf h hfinite hstop hl (hle.trans hfuel)
    have hcell := hstored (p, .leaf es nx) (by simp [cells])
    obtain ⟨rfl, rfl⟩ : es' = es ∧ nx' = nx := by simpa using hσ.symm.trans hcell
    exact ⟨es' ++ more, hscan, by simp [entries]⟩
  | node p keys children ih =>
    have hcell := hstored (p, .node keys (children.map ptr)) (by simp [cells_node])
    have hp : rank p = none := by
      cases hr : rank p with
      | none => rfl
      | some l =>
        obtain ⟨es, nx, hσ, _⟩ := h p l hr
        simp [hcell] at hσ
    rw [ptrs_node, List.nodup_cons] at hnodup
    have hfin : ({q | q ∈ (node p keys children).ptrs} ∪ ranked rank).Finite :=
      (List.finite_toSet _).union hfinite
    cases fuel with
    | zero =>
      have hpos := Set.ncard_pos hfin |>.mpr ⟨p, Or.inl (by simp [ptrs_node])⟩
      omega
    | succ fuel =>
      have hchild : ∀ c ∈ children, ∃ es, scan σ stop fuel c.ptr = some es ∧ c.entries ⊆ es := by
        intro c hc
        have hmem : ∀ q ∈ c.ptrs, q ∈ children.flatMap ptrs := fun q hq =>
          List.mem_flatMap.mpr ⟨c, hc, hq⟩
        have hcells : ∀ d ∈ c.cells, d ∈ (node p keys children).cells := by
          intro d hd
          rw [cells_node]
          exact List.mem_cons_of_mem _ (List.mem_flatMap.mpr ⟨c, hc, hd⟩)
        have hless : ({q | q ∈ c.ptrs} ∪ ranked rank).ncard <
            ({q | q ∈ (node p keys children).ptrs} ∪ ranked rank).ncard := by
          refine Set.ncard_lt_ncard ⟨?_, fun hback => ?_⟩ hfin
          · refine Set.union_subset_union_left _ fun q hq => ?_
            rw [Set.mem_ofPred_eq, ptrs_node]
            exact List.mem_cons_of_mem _ (hmem q hq)
          · rcases hback (Or.inl (by simp [ptrs_node]) : p ∈ _) with hq | hq
            · exact hnodup.1 (hmem p hq)
            · simp [ranked, hp] at hq
        refine ih c hc (fun d hd => hstored d (hcells d hd)) ?_ ?_ ?_ (by omega)
        · exact (List.nodup_flatMap.mp hnodup.2).1 c hc
        · exact fun hq => hne (by rw [ptrs_node]; exact List.mem_cons_of_mem _ (hmem _ hq))
        · exact fun q es nx hd => hleaf q es nx (hcells _ hd)
      have hp' : p ≠ stop := by
        rintro rfl
        exact hne (by simp [ptrs_node])
      obtain ⟨es, hes, hsub⟩ := exists_collect hchild
      refine ⟨es, ?_, by rwa [entries_node]⟩
      change scan σ stop (fuel + 1) p = _
      unfold scan
      rw [if_neg hp', hcell]
      exact hes

section InOrder

variable {ls : List (P × List E × P)}

-- The entries from each leaf on, for one leaf after the other, where `more` are leaves that follow.
def suffixes (more : List (P × List E × P)) : List (P × List E × P) → List E
  | [] => []
  | l :: ls => (l :: ls ++ more).flatMap (·.2.1) ++ suffixes more ls

omit [DecidableEq P] in
theorem suffixes_append (more ls ls' : List (P × List E × P)) :
    suffixes more (ls ++ ls') = suffixes (ls' ++ more) ls ++ suffixes more ls' := by
  induction ls with
  | nil => rfl
  | cons l ls ih => simp [suffixes, ih]

omit [DecidableEq P] in
theorem suffixes_subset (ls : List (P × List E × P)) : suffixes [] ls ⊆ ls.flatMap (·.2.1) := by
  induction ls with
  | nil => exact List.nil_subset _
  | cons l ls ih =>
    rw [suffixes, List.append_nil]
    refine List.append_subset.mpr ⟨List.Subset.refl _, ?_⟩
    rw [List.flatMap_cons]
    exact List.subset_append_of_subset_right _ ih

omit [DecidableEq P] in
theorem subset_suffixes (ls : List (P × List E × P)) : ls.flatMap (·.2.1) ⊆ suffixes [] ls := by
  cases ls with
  | nil => exact List.nil_subset _
  | cons l ls =>
    rw [suffixes, List.append_nil]
    exact List.subset_append_left _ _

-- From a leaf on a scan goes through all the leaves that follow.
theorem scan_linked (h : ∀ l ∈ ls, σ l.1 = some (.leaf l.2.1 l.2.2) ∧ l.1 ≠ stop)
    (hlinked : Linked stop ls) {fuel : Nat} (hfuel : ls.length < fuel) :
    scan σ stop fuel (headPtr stop ls) = some (ls.flatMap (·.2.1)) := by
  induction ls generalizing fuel with
  | nil =>
    obtain ⟨more, rfl⟩ : ∃ more, fuel = more + 1 := ⟨fuel - 1, by simp at hfuel; omega⟩
    simp [scan, headPtr]
  | cons l ls ih =>
    obtain ⟨more, rfl⟩ : ∃ more, fuel = more + 1 := ⟨fuel - 1, by simp at hfuel; omega⟩
    obtain ⟨hσ, hne⟩ := h l List.mem_cons_self
    obtain ⟨hnext, hrest⟩ := hlinked
    have hshort : ls.length < more := by simpa using hfuel
    have hscan := ih (fun l' hl' => h l' (List.mem_cons_of_mem l hl')) hrest hshort
    unfold scan
    rw [headPtr, if_neg hne, hσ]
    simp only [List.flatMap_cons]
    by_cases hstop : l.2.2 = stop
    · have hnil : ls = [] := by
        cases ls with
        | nil => rfl
        | cons l' ls =>
          rw [hnext] at hstop
          exact absurd hstop (h l' (by simp)).2
      rw [if_pos hstop, hnil, List.flatMap_nil, List.append_nil]
    · rw [if_neg hstop, hnext, hscan, Option.map_some]

omit [DecidableEq P] in
theorem collect_linked {f : P → Option (List E)} {children : List (SearchTree P K E)}
    (more : List (P × List E × P))
    (h : ∀ front c back, children = front ++ c :: back →
      f c.ptr = some (suffixes (back.flatMap leaves ++ more) c.leaves)) :
    collect f (children.map ptr) = some (suffixes more (children.flatMap leaves)) := by
  induction children with
  | nil => rfl
  | cons c rest ih =>
    have hrest := ih fun front d back heq => h (c :: front) d back (by rw [heq, List.cons_append])
    rw [List.map_cons, collect, h [] c rest rfl, Option.bind_some, hrest, Option.map_some,
      List.flatMap_cons, suffixes_append]

-- A scan of a tree whose leaves are linked in their order.
theorem scan_tree_linked (more : List (P × List E × P)) {t : SearchTree P K E}
    (hstored : ∀ c ∈ t.cells, σ c.1 = some c.2)
    (hne : ∀ p ∈ t.ptrs, p ≠ stop)
    (hmore : ∀ l ∈ more, σ l.1 = some (.leaf l.2.1 l.2.2) ∧ l.1 ≠ stop)
    (hlinked : Linked stop (t.leaves ++ more)) {fuel : Nat}
    (hfuel : t.height + (t.leaves ++ more).length ≤ fuel) :
    scan σ stop fuel t.ptr = some (suffixes more t.leaves) := by
  induction t using induct generalizing fuel more with
  | leaf p es nx =>
    have hall : ∀ l ∈ (p, es, nx) :: more, σ l.1 = some (.leaf l.2.1 l.2.2) ∧ l.1 ≠ stop := by
      intro l hl
      rcases List.mem_cons.mp hl with rfl | hl
      · exact ⟨hstored (p, .leaf es nx) (by simp [cells]), hne p (by simp [ptrs_leaf])⟩
      · exact hmore l hl
    have hlong : ((p, es, nx) :: more).length < fuel := by
      simp only [leaves, height, List.singleton_append, List.length_cons] at hfuel ⊢
      omega
    have hscan := scan_linked hall hlinked hlong
    simpa [leaves, suffixes, ptr, headPtr] using hscan
  | node p keys children ih =>
    obtain ⟨fuel, rfl⟩ : ∃ rest, fuel = rest + 1 := ⟨fuel - 1, by simp [height] at hfuel; omega⟩
    have hcell := hstored (p, .node keys (children.map ptr)) (by simp [cells_node])
    have hp : p ≠ stop := hne p (by simp [ptrs_node])
    have hcollect : collect (scan σ stop fuel) (children.map ptr) =
        some (suffixes more (children.flatMap leaves)) := by
      refine collect_linked more fun front c back heq => ?_
      have hc : c ∈ children := by simp [heq]
      have hcells : ∀ d ∈ children, ∀ e ∈ d.cells, σ e.1 = some e.2 ∧ e.1 ≠ stop := by
        intro d hd e he
        have hmem : e ∈ (node p keys children).cells := by
          rw [cells_node]
          exact List.mem_cons_of_mem _ (List.mem_flatMap.mpr ⟨d, hd, he⟩)
        exact ⟨hstored e hmem, hne e.1 (List.mem_map_of_mem hmem)⟩
      have hsplit : children.flatMap leaves ++ more =
          front.flatMap leaves ++ (c.leaves ++ (back.flatMap leaves ++ more)) := by
        simp [heq]
      rw [leaves_node, hsplit] at hlinked hfuel
      refine ih c hc _ (fun e he => (hcells c hc e he).1) ?_ ?_ (linked_append.mp hlinked).2 ?_
      · intro q hq
        obtain ⟨e, he, rfl⟩ := List.mem_map.mp hq
        exact (hcells c hc e he).2
      · intro l hl
        rcases List.mem_append.mp hl with hl | hl
        · obtain ⟨d, hd, hl⟩ := List.mem_flatMap.mp hl
          exact hcells d (by simp [heq, hd]) _ (mem_cells_of_mem_leaves hl)
        · exact hmore l hl
      · have hheight := height_le_heightAll hc
        simp only [height, List.length_append] at hfuel ⊢
        omega
    change scan σ stop (fuel + 1) p = _
    unfold scan
    rw [if_neg hp, hcell, leaves_node]
    exact hcollect

end InOrder

end Scan

end JasonDb.Lib.SearchTree
