import Mathlib.Order.WithBot
import Mathlib.Data.List.Basic
import Mathlib.Data.List.InsertIdx
import Mathlib.Data.List.Perm.Basic

namespace JasonDb.Lib

-- A search tree whose nodes are addressed by pointers of type `P`. Entries of
-- type `E` are in the leaves; a leaf also has a link to another leaf.
inductive SearchTree (P K E : Type) where
  | leaf (ptr : P) (entries : List E) (next : P)
  | node (ptr : P) (keys : List K) (children : List (SearchTree P K E))

-- The contents of one node, with pointers in place of subtrees.
inductive Shape (P K E : Type) where
  | leaf (entries : List E) (next : P)
  | node (keys : List K) (children : List P)

def Shape.children {P K E : Type} : Shape P K E → List P
  | .leaf _ _ => []
  | .node _ children => children

def Shape.mapPtr {P P' K E : Type} (f : P → P') : Shape P K E → Shape P' K E
  | .leaf entries next => .leaf entries (f next)
  | .node keys children => .node keys (children.map f)

@[simp] theorem Shape.mapPtr_id {P K E : Type} (s : Shape P K E) : s.mapPtr id = s := by
  cases s <;> simp [mapPtr]

namespace SearchTree

variable {P K E : Type}

def ptr : SearchTree P K E → P
  | .leaf p _ _ => p
  | .node p _ _ => p

-- Induction with a hypothesis for every child.
theorem induct {motive : SearchTree P K E → Prop}
    (leaf : ∀ p entries next, motive (.leaf p entries next))
    (node : ∀ p keys children, (∀ c ∈ children, motive c) → motive (.node p keys children)) :
    ∀ t, motive t
  | .leaf p entries next => leaf p entries next
  | .node p keys children => node p keys children fun c _ => induct leaf node c

mutual

-- All entries, from left to right.
def entries : SearchTree P K E → List E
  | .leaf _ entries _ => entries
  | .node _ _ children => entriesAll children

def entriesAll : List (SearchTree P K E) → List E
  | [] => []
  | c :: cs => entries c ++ entriesAll cs

end

mutual

-- Every node with its pointer.
def cells : SearchTree P K E → List (P × Shape P K E)
  | .leaf p entries next => [(p, .leaf entries next)]
  | .node p keys children => (p, .node keys (children.map ptr)) :: cellsAll children

def cellsAll : List (SearchTree P K E) → List (P × Shape P K E)
  | [] => []
  | c :: cs => cells c ++ cellsAll cs

end

mutual

def height : SearchTree P K E → Nat
  | .leaf _ _ _ => 1
  | .node _ _ children => heightAll children + 1

def heightAll : List (SearchTree P K E) → Nat
  | [] => 0
  | c :: cs => max (height c) (heightAll cs)

end

def ptrs (t : SearchTree P K E) : List P := t.cells.map Prod.fst

theorem entriesAll_eq (cs : List (SearchTree P K E)) : entriesAll cs = cs.flatMap entries := by
  induction cs with
  | nil => rfl
  | cons c cs ih => simp [entriesAll, ih]

theorem cellsAll_eq (cs : List (SearchTree P K E)) : cellsAll cs = cs.flatMap cells := by
  induction cs with
  | nil => rfl
  | cons c cs ih => simp [cellsAll, ih]

theorem entries_node (p : P) (keys : List K) (children : List (SearchTree P K E)) :
    (node p keys children).entries = children.flatMap entries := by
  simp [entries, entriesAll_eq]

theorem cells_node (p : P) (keys : List K) (children : List (SearchTree P K E)) :
    (node p keys children).cells =
      (p, .node keys (children.map ptr)) :: children.flatMap cells := by
  simp [cells, cellsAll_eq]

theorem ptrs_node (p : P) (keys : List K) (children : List (SearchTree P K E)) :
    (node p keys children).ptrs = p :: children.flatMap ptrs := by
  simp only [ptrs, cells_node, List.map_cons, List.map_flatMap]
  rfl

theorem ptrs_leaf (p : P) (entries : List E) (next : P) :
    (leaf (K := K) p entries next).ptrs = [p] := by
  simp [ptrs, cells]

theorem ptr_mem_ptrs (t : SearchTree P K E) : t.ptr ∈ t.ptrs := by
  cases t with
  | leaf => simp [ptrs_leaf, ptr]
  | node => simp [ptrs_node, ptr]

-- The contents of the root.
def shape : SearchTree P K E → Shape P K E
  | .leaf _ entries next => .leaf entries next
  | .node _ keys children => .node keys (children.map ptr)

theorem root_mem_cells (t : SearchTree P K E) : (t.ptr, t.shape) ∈ t.cells := by
  cases t with
  | leaf p es nx => simp [ptr, shape, cells]
  | node p keys children => simp [ptr, shape, cells_node]

theorem height_pos (t : SearchTree P K E) : 0 < t.height := by
  cases t <;> simp [height]

theorem height_le_heightAll {c : SearchTree P K E} {cs : List (SearchTree P K E)} (h : c ∈ cs) :
    c.height ≤ heightAll cs := by
  induction cs with
  | nil => simp at h
  | cons d ds ih =>
    simp only [heightAll]
    rcases List.mem_cons.mp h with rfl | h
    · exact le_max_left _ _
    · exact (ih h).trans (le_max_right _ _)

theorem heightAll_le {n : Nat} {cs : List (SearchTree P K E)} (h : ∀ c ∈ cs, c.height ≤ n) :
    heightAll cs ≤ n := by
  induction cs with
  | nil => simp [heightAll]
  | cons c cs ih =>
    simp only [heightAll]
    exact max_le (h c (by simp)) (ih fun d hd => h d (by simp [hd]))

theorem length_ptrs_le_flatMap {c : SearchTree P K E} {cs : List (SearchTree P K E)} (h : c ∈ cs) :
    c.ptrs.length ≤ (cs.flatMap ptrs).length := by
  induction cs with
  | nil => simp at h
  | cons d ds ih =>
    simp only [List.flatMap_cons, List.length_append]
    rcases List.mem_cons.mp h with rfl | h
    · omega
    · have := ih h
      omega

-- A path visits distinct nodes, so a tree is no higher than its number of nodes.
theorem height_le_length_ptrs (t : SearchTree P K E) : t.height ≤ t.ptrs.length := by
  induction t using induct with
  | leaf p es nx => simp [height, ptrs_leaf]
  | node p keys children ih =>
    simp only [height, ptrs_node, List.length_cons]
    have := heightAll_le fun c hc => (ih c hc).trans (length_ptrs_le_flatMap hc)
    omega

section Rename

variable {P' : Type} (f : P → P')

mutual

-- The same tree at other addresses.
def mapPtr (f : P → P') : SearchTree P K E → SearchTree P' K E
  | .leaf p entries next => .leaf (f p) entries (f next)
  | .node p keys children => .node (f p) keys (mapPtrAll f children)

def mapPtrAll (f : P → P') : List (SearchTree P K E) → List (SearchTree P' K E)
  | [] => []
  | c :: cs => mapPtr f c :: mapPtrAll f cs

end

theorem mapPtrAll_eq (cs : List (SearchTree P K E)) : mapPtrAll f cs = cs.map (mapPtr f) := by
  induction cs with
  | nil => rfl
  | cons c cs ih => simp [mapPtrAll, ih]

@[simp] theorem mapPtr_leaf (p : P) (es : List E) (nx : P) :
    mapPtr f (leaf p es nx : SearchTree P K E) = leaf (f p) es (f nx) := rfl

@[simp] theorem mapPtr_node (p : P) (keys : List K) (children : List (SearchTree P K E)) :
    mapPtr f (node p keys children) = node (f p) keys (children.map (mapPtr f)) := by
  simp [mapPtr, mapPtrAll_eq]

@[simp] theorem ptr_mapPtr (t : SearchTree P K E) : (t.mapPtr f).ptr = f t.ptr := by
  cases t <;> rfl

@[simp] theorem entries_mapPtr (t : SearchTree P K E) : (t.mapPtr f).entries = t.entries := by
  induction t using induct with
  | leaf p es nx => rfl
  | node p keys children ih =>
    simp only [mapPtr_node, entries_node, List.flatMap_map]
    exact List.flatMap_congr ih

theorem cells_mapPtr (t : SearchTree P K E) :
    (t.mapPtr f).cells = t.cells.map (Prod.map f (Shape.mapPtr f)) := by
  induction t using induct with
  | leaf p es nx => rfl
  | node p keys children ih =>
    simp only [mapPtr_node, cells_node, List.flatMap_map, List.map_cons, List.map_flatMap,
      Prod.map, Shape.mapPtr, List.map_map]
    refine congrArg₂ _ ?_ (List.flatMap_congr ih)
    simp [Function.comp_def]

theorem ptrs_mapPtr (t : SearchTree P K E) : (t.mapPtr f).ptrs = t.ptrs.map f := by
  simp [ptrs, cells_mapPtr, Function.comp_def]

theorem mapPtr_id (t : SearchTree P K E) : t.mapPtr id = t := by
  induction t using induct with
  | leaf p es nx => rfl
  | node p keys children ih =>
    rw [mapPtr_node, id_eq]
    exact congrArg _ ((List.map_congr_left ih).trans (List.map_id _))

theorem mapPtr_mapPtr {P'' : Type} (g : P' → P'') (t : SearchTree P K E) :
    (t.mapPtr f).mapPtr g = t.mapPtr (g ∘ f) := by
  induction t using induct with
  | leaf p es nx => rfl
  | node p keys children ih =>
    simp only [mapPtr_node, List.map_map, Function.comp_apply]
    exact congrArg _ (List.map_congr_left ih)

end Rename

end SearchTree

end JasonDb.Lib
