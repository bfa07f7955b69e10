import JasonDb.Lib.SearchTree.Ordered

namespace JasonDb.Lib.SearchTree

variable {P P' K E : Type}

mutual

-- The leaves from left to right: address, entries and link.
def leaves : SearchTree P K E → List (P × List E × P)
  | .leaf p entries next => [(p, entries, next)]
  | .node _ _ children => leavesAll children

def leavesAll : List (SearchTree P K E) → List (P × List E × P)
  | [] => []
  | c :: cs => leaves c ++ leavesAll cs

end

theorem leavesAll_eq (cs : List (SearchTree P K E)) : leavesAll cs = cs.flatMap leaves := by
  induction cs with
  | nil => rfl
  | cons c cs ih => simp [leavesAll, ih]

theorem leaves_node (p : P) (keys : List K) (children : List (SearchTree P K E)) :
    (node p keys children).leaves = children.flatMap leaves := by
  simp [leaves, leavesAll_eq]

theorem entries_eq_leaves (t : SearchTree P K E) : t.entries = t.leaves.flatMap (·.2.1) := by
  induction t using induct with
  | leaf p es nx => simp [entries, leaves]
  | node p keys children ih =>
    rw [entries_node, leaves_node, List.flatMap_assoc]
    exact List.flatMap_congr ih

theorem mem_cells_of_mem_leaves {t : SearchTree P K E} {p nx : P} {es : List E}
    (h : (p, es, nx) ∈ t.leaves) : (p, Shape.leaf es nx) ∈ t.cells := by
  induction t using induct with
  | leaf q es' nx' =>
    obtain ⟨rfl, rfl, rfl⟩ : p = q ∧ es = es' ∧ nx = nx' := by simpa [leaves] using h
    simp [cells]
  | node q keys children ih =>
    rw [leaves_node] at h
    obtain ⟨c, hc, hmem⟩ := List.mem_flatMap.mp h
    rw [cells_node]
    exact List.mem_cons_of_mem _ (List.mem_flatMap.mpr ⟨c, hc, ih c hc hmem⟩)

theorem mem_ptrs_of_mem_leaves {t : SearchTree P K E} {l : P × List E × P} (h : l ∈ t.leaves) :
    l.1 ∈ t.ptrs :=
  List.mem_map.mpr ⟨_, mem_cells_of_mem_leaves h, rfl⟩

theorem map_fst_leaves_sublist (t : SearchTree P K E) : (t.leaves.map Prod.fst).Sublist t.ptrs := by
  induction t using induct with
  | leaf p es nx => simp [leaves, ptrs, cells]
  | node p keys children ih =>
    have hforest : ((children.flatMap leaves).map Prod.fst).Sublist (children.flatMap ptrs) := by
      induction children with
      | nil => simp
      | cons c cs ihs =>
        rw [List.flatMap_cons, List.map_append, List.flatMap_cons]
        exact (ih c (by simp)).append (ihs fun d hd => ih d (by simp [hd]))
    rw [leaves_node, ptrs_node]
    exact hforest.cons p

-- The leaves left of the hole, and those right of it.
def leavesBefore : List (Frame P K E) → List (P × List E × P)
  | [] => []
  | fr :: ctx => leavesBefore ctx ++ fr.left.flatMap leaves

def leavesAfter : List (Frame P K E) → List (P × List E × P)
  | [] => []
  | fr :: ctx => fr.right.flatMap leaves ++ leavesAfter ctx

theorem leaves_plug (ctx : List (Frame P K E)) (t : SearchTree P K E) :
    (plug ctx t).leaves = leavesBefore ctx ++ t.leaves ++ leavesAfter ctx := by
  induction ctx generalizing t with
  | nil => simp [plug, leavesBefore, leavesAfter]
  | cons fr ctx ih => simp [plug, ih, leavesBefore, leavesAfter, Frame.fill, leaves_node]

section Above

variable [LinearOrder K] {Q : LeafPred P K E} {key : E → K} {α : Type}
  (hQ : ∀ lo hi p es nx, Q lo hi p es nx → LeafSorted key lo hi p es nx)

include hQ

-- A search from left to right that finds nothing where all keys are at most `x` may start at
-- the child that `x` belongs to, which is the last one if `x` is above all separators.
theorem AllForest.findSome_above {lo hi : Bound K} {keys : List K}
    {children : List (SearchTree P K E)} {x : K} {g : SearchTree P K E → Option α}
    (h : AllForest Q lo hi keys children)
    (hg : ∀ d ∈ children, (∀ e ∈ d.entries, key e ≤ x) → g d = none) :
    (∀ i, keys.findIdx? (fun k => decide (x < k)) = some i →
      children.findSome? g = (children.drop i).findSome? g) ∧
    (keys.findIdx? (fun k => decide (x < k)) = none → ∀ last, children.getLast? = some last →
      children.findSome? g = g last) := by
  induction keys generalizing lo children with
  | nil =>
    match children, h with
    | [c], _ =>
      refine ⟨by simp, fun _ last hlast => ?_⟩
      obtain rfl : c = last := by simpa using hlast
      cases hc : g c <;> simp [List.findSome?, hc]
  | cons k ks ih =>
    match children, h with
    | c :: cs, h =>
      obtain ⟨h1, h2, h3, h4⟩ := h
      obtain ⟨ihSome, ihNone⟩ := ih h4 fun d hd => hg d (by simp [hd])
      by_cases hx : x < k
      · refine ⟨fun i hi => ?_, fun hnone => ?_⟩
        · obtain rfl : i = 0 := by simpa [List.findIdx?_cons, hx, eq_comm] using hi
          rfl
        · simp [List.findIdx?_cons, hx] at hnone
      · have hc : g c = none := by
          refine hg c (by simp) fun e he => ?_
          have hlt := (h1.entries_range hQ h2 e he).2
          exact (Bound.key_lt_key.mp hlt).le.trans (not_lt.mp hx)
        have hcons : (c :: cs).findSome? g = cs.findSome? g := by simp [List.findSome?, hc]
        rw [hcons]
        refine ⟨fun i hi => ?_, fun hnone last hlast => ?_⟩
        · simp only [List.findIdx?_cons, hx, decide_false, Bool.false_eq_true, ↓reduceIte,
            Option.map_eq_some_iff] at hi
          obtain ⟨j, hj, rfl⟩ := hi
          exact ihSome j hj
        · simp only [List.findIdx?_cons, hx, decide_false, Bool.false_eq_true, ↓reduceIte,
            Option.map_eq_none_iff] at hnone
          refine ihNone hnone last ?_
          have hlen := h4.length
          cases cs with
          | nil => simp at hlen
          | cons d ds => simpa using hlast

end Above

end JasonDb.Lib.SearchTree
