import JasonDb.Lib.SearchTree

namespace JasonDb.Lib.SearchTree

variable {P P' K E : Type}

-- An inner node with one child taken out: the keys and children before the hole
-- and those after it.
structure Frame (P K E : Type) where
  ptr : P
  lkeys : List K
  left : List (SearchTree P K E)
  rkeys : List K
  right : List (SearchTree P K E)
  balanced : lkeys.length = left.length

namespace Frame

def keys (fr : Frame P K E) : List K := fr.lkeys ++ fr.rkeys

def fill (fr : Frame P K E) (t : SearchTree P K E) : SearchTree P K E :=
  .node fr.ptr fr.keys (fr.left ++ t :: fr.right)

def mapPtr (f : P → P') (fr : Frame P K E) : Frame P' K E where
  ptr := f fr.ptr
  lkeys := fr.lkeys
  left := fr.left.map (SearchTree.mapPtr f)
  rkeys := fr.rkeys
  right := fr.right.map (SearchTree.mapPtr f)
  balanced := by simp [fr.balanced]

@[simp] theorem ptr_mapPtr (f : P → P') (fr : Frame P K E) : (fr.mapPtr f).ptr = f fr.ptr := rfl

@[simp] theorem keys_mapPtr (f : P → P') (fr : Frame P K E) : (fr.mapPtr f).keys = fr.keys := rfl

@[simp] theorem ptr_fill (fr : Frame P K E) (t : SearchTree P K E) : (fr.fill t).ptr = fr.ptr := rfl

theorem mapPtr_fill (f : P → P') (fr : Frame P K E) (t : SearchTree P K E) :
    (fr.fill t).mapPtr f = (fr.mapPtr f).fill (t.mapPtr f) := by
  simp [fill, mapPtr, keys]

-- A new separator and child right of the hole.
def insertRight (fr : Frame P K E) (k : K) (t : SearchTree P K E) : Frame P K E :=
  { fr with rkeys := k :: fr.rkeys, right := t :: fr.right }

-- The contents of the node, for a child at `p`.
def shape (fr : Frame P K E) (p : P) : Shape P K E :=
  .node fr.keys (fr.left.map SearchTree.ptr ++ p :: fr.right.map SearchTree.ptr)

theorem cells_fill (fr : Frame P K E) (t : SearchTree P K E) :
    ((fr.fill t).cells).Perm
      (t.cells ++ (fr.ptr, fr.shape t.ptr) :: (fr.left ++ fr.right).flatMap cells) := by
  simp only [fill, cells_node, shape, List.map_append, List.map_cons, List.flatMap_append,
    List.flatMap_cons]
  refine List.Perm.trans ?_ List.perm_middle.symm
  refine List.Perm.cons _ ?_
  rw [← List.append_assoc, ← List.append_assoc]
  exact List.Perm.append_right _ List.perm_append_comm

end Frame

-- The tree around a hole, innermost frame first, with `t` in the hole.
def plug : List (Frame P K E) → SearchTree P K E → SearchTree P K E
  | [], t => t
  | fr :: ctx, t => plug ctx (fr.fill t)

-- The entries left of the hole.
def entriesBefore : List (Frame P K E) → List E
  | [] => []
  | fr :: ctx => entriesBefore ctx ++ fr.left.flatMap entries

-- The entries right of the hole.
def entriesAfter : List (Frame P K E) → List E
  | [] => []
  | fr :: ctx => fr.right.flatMap entries ++ entriesAfter ctx

-- The nodes around the hole, for a tree at `p` in it.
def outerCells : List (Frame P K E) → P → List (P × Shape P K E)
  | [], _ => []
  | fr :: ctx, p =>
      (fr.ptr, fr.shape p) :: (fr.left ++ fr.right).flatMap cells ++ outerCells ctx fr.ptr

theorem entries_plug (ctx : List (Frame P K E)) (t : SearchTree P K E) :
    (plug ctx t).entries = entriesBefore ctx ++ t.entries ++ entriesAfter ctx := by
  induction ctx generalizing t with
  | nil => simp [plug, entriesBefore, entriesAfter]
  | cons fr ctx ih => simp [plug, ih, entriesBefore, entriesAfter, Frame.fill, entries_node]

theorem cells_plug (ctx : List (Frame P K E)) (t : SearchTree P K E) :
    ((plug ctx t).cells).Perm (t.cells ++ outerCells ctx t.ptr) := by
  induction ctx generalizing t with
  | nil => simp [plug, outerCells]
  | cons fr ctx ih =>
    simp only [plug, outerCells]
    refine (ih (fr.fill t)).trans ?_
    rw [Frame.ptr_fill, ← List.append_assoc]
    exact List.Perm.append_right _ (fr.cells_fill t)

theorem mapPtr_plug (f : P → P') (ctx : List (Frame P K E)) (t : SearchTree P K E) :
    (plug ctx t).mapPtr f = plug (ctx.map (Frame.mapPtr f)) (t.mapPtr f) := by
  induction ctx generalizing t with
  | nil => rfl
  | cons fr ctx ih => simp [plug, ih, Frame.mapPtr_fill]

@[simp] theorem entriesBefore_mapPtr (f : P → P') (ctx : List (Frame P K E)) :
    entriesBefore (ctx.map (Frame.mapPtr f)) = entriesBefore ctx := by
  induction ctx with
  | nil => rfl
  | cons fr ctx ih => simp [entriesBefore, ih, Frame.mapPtr, List.flatMap_map]

@[simp] theorem entriesAfter_mapPtr (f : P → P') (ctx : List (Frame P K E)) :
    entriesAfter (ctx.map (Frame.mapPtr f)) = entriesAfter ctx := by
  induction ctx with
  | nil => rfl
  | cons fr ctx ih => simp [entriesAfter, ih, Frame.mapPtr, List.flatMap_map]

-- The address of the whole tree depends only on the address in the hole.
theorem ptr_plug_congr (ctx : List (Frame P K E)) {t u : SearchTree P K E} (h : t.ptr = u.ptr) :
    (plug ctx t).ptr = (plug ctx u).ptr := by
  induction ctx generalizing t u with
  | nil => exact h
  | cons fr ctx ih => exact ih rfl

-- Every child of a node is in the hole of a frame.
theorem exists_frame {p : P} {keys : List K} {children : List (SearchTree P K E)}
    (hlen : children.length = keys.length + 1) {d : SearchTree P K E} (hd : d ∈ children) :
    ∃ fr : Frame P K E, node p keys children = fr.fill d ∧ fr.ptr = p := by
  obtain ⟨l, r, rfl⟩ := List.append_of_mem hd
  have hle : l.length ≤ keys.length := by
    simp only [List.length_append, List.length_cons] at hlen
    omega
  refine ⟨⟨p, keys.take l.length, l, keys.drop l.length, r, by simp [hle]⟩, ?_, rfl⟩
  simp [Frame.fill, Frame.keys]

-- The addresses do not depend on what is in a leaf.
theorem ptrs_plug_leaf (ctx : List (Frame P K E)) (p nx nx' : P) (es es' : List E) :
    ((plug ctx (leaf p es' nx')).ptrs).Perm (plug ctx (leaf p es nx)).ptrs := by
  refine ((cells_plug ctx _).map Prod.fst).trans ?_
  refine List.Perm.trans ?_ ((cells_plug ctx _).map Prod.fst).symm
  simp [cells, ptr]

theorem mem_cells_plug {ctx : List (Frame P K E)} {t : SearchTree P K E} {c : P × Shape P K E}
    (h : c ∈ t.cells) : c ∈ (plug ctx t).cells :=
  (cells_plug ctx t).mem_iff.mpr (List.mem_append_left _ h)

end JasonDb.Lib.SearchTree
