import JasonDb.Lib.SearchTree.Ordered

namespace JasonDb.Lib

variable {P K E : Type}

-- The same contents with another link.
def Shape.relink (next : P) : Shape P K E → Shape P K E
  | .leaf entries _ => .leaf entries next
  | .node keys children => .node keys children

namespace SearchTree

variable (g : P → P)

mutual

-- The same tree with other links between its leaves.
def relink (g : P → P) : SearchTree P K E → SearchTree P K E
  | .leaf p entries _ => .leaf p entries (g p)
  | .node p keys children => .node p keys (relinkAll g children)

def relinkAll (g : P → P) : List (SearchTree P K E) → List (SearchTree P K E)
  | [] => []
  | c :: cs => relink g c :: relinkAll g cs

end

theorem relinkAll_eq (cs : List (SearchTree P K E)) : relinkAll g cs = cs.map (relink g) := by
  induction cs with
  | nil => rfl
  | cons c cs ih => simp [relinkAll, ih]

theorem relink_node (p : P) (keys : List K) (children : List (SearchTree P K E)) :
    relink g (node p keys children) = node p keys (children.map (relink g)) := by
  simp [relink, relinkAll_eq]

@[simp] theorem ptr_relink (t : SearchTree P K E) : (t.relink g).ptr = t.ptr := by
  cases t <;> rfl

@[simp] theorem entries_relink (t : SearchTree P K E) : (t.relink g).entries = t.entries := by
  induction t using induct with
  | leaf p es nx => rfl
  | node p keys children ih =>
    simp only [relink_node, entries_node, List.flatMap_map]
    exact List.flatMap_congr ih

theorem cells_relink (t : SearchTree P K E) :
    (t.relink g).cells = t.cells.map fun c => (c.1, c.2.relink (g c.1)) := by
  induction t using induct with
  | leaf p es nx => rfl
  | node p keys children ih =>
    simp only [relink_node, cells_node, List.flatMap_map, List.map_cons, List.map_flatMap,
      Shape.relink, List.map_map, Function.comp_def, ptr_relink]
    exact congrArg _ (List.flatMap_congr ih)

@[simp] theorem ptrs_relink (t : SearchTree P K E) : (t.relink g).ptrs = t.ptrs := by
  simp [ptrs, cells_relink, Function.comp_def]

variable [LinearOrder K] {Q Q' : LeafPred P K E} {g}

-- Leaf conditions carry over to the new links, leaf by leaf.
theorem All.relink {t : SearchTree P K E} {lo hi : Bound K} (h : All Q lo hi t)
    (hQ : ∀ lo hi p es nx, (p, Shape.leaf es nx) ∈ t.cells → Q lo hi p es nx → Q' lo hi p es (g p)) :
    All Q' lo hi (t.relink g) := by
  induction t using SearchTree.induct generalizing lo hi with
  | leaf p es nx => exact hQ _ _ _ _ _ (by simp [cells]) h
  | node p keys children ih =>
    rw [relink_node]
    simp only [All] at h ⊢
    have ih' : ∀ c ∈ children, ∀ {lo hi}, All Q lo hi c → All Q' lo hi (c.relink g) := by
      intro c hc lo hi hall
      refine ih c hc hall fun lo hi p es nx hcell => hQ lo hi p es nx ?_
      rw [cells_node]
      exact List.mem_cons_of_mem _ (List.mem_flatMap.mpr ⟨c, hc, hcell⟩)
    clear ih hQ
    induction children generalizing keys lo with
    | nil => cases keys <;> simp [AllForest] at h
    | cons c cs ihc =>
      have hc : ∀ {lo hi}, All Q lo hi c → All Q' lo hi (c.relink g) := ih' c (by simp)
      have hcs : ∀ d ∈ cs, ∀ {lo hi}, All Q lo hi d → All Q' lo hi (d.relink g) :=
        fun d hd => ih' d (by simp [hd])
      cases keys with
      | nil =>
        cases cs with
        | nil => exact hc h
        | cons d ds => simp [AllForest] at h
      | cons k ks => exact ⟨hc h.1, h.2.1, h.2.2.1, ihc ks h.2.2.2 hcs⟩

end SearchTree

end JasonDb.Lib
