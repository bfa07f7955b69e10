import JasonDb.Lib.SearchTree.Ordered
import Mathlib.Data.List.Nodup

namespace JasonDb.Lib.SearchTree

variable {P K E : Type}

-- The trees of `F` are in the store, on pairwise different nodes.
structure Stores (σ : P → Option (Shape P K E)) (F : List (SearchTree P K E)) : Prop where
  stored : ∀ c ∈ F.flatMap cells, σ c.1 = some c.2
  nodup : ((F.flatMap cells).map Prod.fst).Nodup

theorem map_fst_flatMap_cells (F : List (SearchTree P K E)) :
    (F.flatMap cells).map Prod.fst = F.flatMap ptrs := by
  simp only [List.map_flatMap]
  rfl

theorem flatMap_cells_mapPtr {P' : Type} (f : P → P') (F : List (SearchTree P K E)) :
    (F.map (mapPtr f)).flatMap cells = (F.flatMap cells).map (Prod.map f (Shape.mapPtr f)) := by
  simp only [List.flatMap_map, cells_mapPtr, List.map_flatMap]

-- Every node but the root is a child of exactly one node.
theorem ptrs_perm (t : SearchTree P K E) :
    t.ptrs.Perm (t.ptr :: t.cells.flatMap fun c => Shape.children c.2) := by
  induction t using induct with
  | leaf p es nx => simp [ptrs_leaf, ptr, cells, Shape.children]
  | node p keys children ih =>
    rw [ptrs_node, cells_node, List.flatMap_cons]
    simp only [ptr, Shape.children]
    refine List.Perm.cons _ ?_
    clear p keys
    induction children with
    | nil => simp
    | cons c cs ihc =>
      have hc := ih c (by simp)
      have hcs := ihc fun d hd => ih d (by simp [hd])
      simp only [List.flatMap_cons, List.map_cons, List.flatMap_append, List.cons_append]
      refine (hc.append hcs).trans ?_
      simp only [List.cons_append]
      refine List.Perm.cons _ ?_
      rw [← List.append_assoc, ← List.append_assoc]
      exact List.Perm.append_right _ List.perm_append_comm

-- A set with the root and the children of its nodes has the whole tree.
theorem ptrs_closed {S : Set P} {t : SearchTree P K E} (hroot : t.ptr ∈ S)
    (h : ∀ c ∈ t.cells, c.1 ∈ S → ∀ d ∈ c.2.children, d ∈ S) : ∀ p ∈ t.ptrs, p ∈ S := by
  induction t using induct with
  | leaf p es nx =>
    intro q hq
    rw [ptrs_leaf, List.mem_singleton] at hq
    exact hq ▸ hroot
  | node p keys children ih =>
    have hchildren := h (p, .node keys (children.map ptr)) (by simp [cells_node]) hroot
    intro q hq
    rw [ptrs_node, List.mem_cons, List.mem_flatMap] at hq
    rcases hq with rfl | ⟨c, hc, hq⟩
    · exact hroot
    · refine ih c hc (hchildren c.ptr (List.mem_map_of_mem hc)) (fun d hd => ?_) q hq
      refine h d ?_
      rw [cells_node]
      exact List.mem_cons_of_mem _ (List.mem_flatMap_of_mem hc hd)

theorem flatMap_ptrs_perm (F : List (SearchTree P K E)) :
    (F.flatMap ptrs).Perm
      (F.map ptr ++ (F.flatMap cells).flatMap fun c => Shape.children c.2) := by
  induction F with
  | nil => simp
  | cons t F ih =>
    simp only [List.flatMap_cons, List.map_cons, List.flatMap_append, List.cons_append]
    refine ((ptrs_perm t).append ih).trans ?_
    simp only [List.cons_append]
    refine List.Perm.cons _ ?_
    rw [← List.append_assoc, ← List.append_assoc]
    exact List.Perm.append_right _ List.perm_append_comm

theorem flatMap_cells_focus_node (ctx : List (Frame P K E)) (p : P) (keys : List K)
    (children X : List (SearchTree P K E)) :
    ((plug ctx (node p keys children) :: X).flatMap cells).Perm
      ((p, .node keys (children.map ptr)) ::
        ((children ++ X).flatMap cells ++ outerCells ctx p)) := by
  rw [List.flatMap_cons]
  refine ((cells_plug ctx _).append_right _).trans ?_
  rw [cells_node, List.cons_append, List.cons_append]
  refine List.Perm.cons _ ?_
  simp only [ptr, List.flatMap_append, List.append_assoc]
  exact List.Perm.append_left _ List.perm_append_comm

-- The addresses do not depend on how children are spread over a node and loose trees.
theorem flatMap_ptrs_focus_node {ctx : List (Frame P K E)} {p : P} {keys keys' : List K}
    {children children' X X' : List (SearchTree P K E)}
    (hperm : (children' ++ X').Perm (children ++ X)) :
    ((plug ctx (node p keys' children') :: X').flatMap ptrs).Perm
      ((plug ctx (node p keys children) :: X).flatMap ptrs) := by
  rw [← map_fst_flatMap_cells, ← map_fst_flatMap_cells]
  refine ((flatMap_cells_focus_node ctx p keys' children' X').map Prod.fst).trans ?_
  refine List.Perm.trans ?_ ((flatMap_cells_focus_node ctx p keys children X).map Prod.fst).symm
  simp only [List.map_cons, List.map_append]
  exact List.Perm.cons _ (List.Perm.append_right _ ((hperm.flatMap_right _).map _))

theorem perm_children (fr : Frame P K E) (L R : SearchTree P K E) :
    (fr.left ++ L :: R :: fr.right).Perm ((fr.left ++ L :: fr.right) ++ [R]) := by
  simp only [List.append_assoc, List.cons_append]
  exact List.Perm.append_left _ (List.Perm.cons _ (List.perm_append_singleton _ _).symm)

-- A node with a child more, cut in two, has no pointer but the new node's that was not there.
theorem mem_ptrs_halves {fr : Frame P K E} {ctx : List (Frame P K E)} {L R : SearchTree P K E}
    {keys keys' : List K} {cut : Nat} {r x : P}
    (h : x ∈ [plug ctx (node fr.ptr keys ((fr.left ++ L :: R :: fr.right).take cut)),
      node r keys' ((fr.left ++ L :: R :: fr.right).drop cut)].flatMap ptrs) :
    x = r ∨ x ∈ [plug (fr :: ctx) L, R].flatMap ptrs := by
  have hperm : ((fr.left ++ L :: R :: fr.right).take cut ++ (fr.left ++ L :: R :: fr.right).drop cut).Perm
      ((fr.left ++ L :: fr.right) ++ [R]) := by
    rw [List.take_append_drop]
    exact perm_children fr L R
  have hsame : ((plug ctx (node fr.ptr keys ((fr.left ++ L :: R :: fr.right).take cut)) ::
      (fr.left ++ L :: R :: fr.right).drop cut).flatMap ptrs).Perm ([plug (fr :: ctx) L, R].flatMap ptrs) :=
    flatMap_ptrs_focus_node hperm
  rw [List.flatMap_cons] at hsame
  rw [List.flatMap_cons, List.flatMap_singleton, ptrs_node, List.mem_append, List.mem_cons] at h
  rcases h with h | h | h
  · exact Or.inr (hsame.mem_iff.mp (List.mem_append_left _ h))
  · exact Or.inl h
  · exact Or.inr (hsame.mem_iff.mp (List.mem_append_right _ h))

theorem map_ptr_sublist_outerCells (ctx : List (Frame P K E)) (p : P) :
    (ctx.map Frame.ptr).Sublist ((outerCells ctx p).map Prod.fst) := by
  induction ctx generalizing p with
  | nil => exact List.Sublist.slnil
  | cons fr ctx ih =>
    simp only [outerCells, List.map_cons, List.cons_append, List.map_append]
    exact ((ih fr.ptr).trans (List.sublist_append_right _ _)).cons_cons fr.ptr

-- The way from a subtree up to the root does not come to a node twice.
theorem nodup_path {ctx : List (Frame P K E)} {t : SearchTree P K E}
    (h : (plug ctx t).ptrs.Nodup) : (t.ptr :: ctx.map Frame.ptr).Nodup := by
  have hnodup := ((cells_plug ctx t).map Prod.fst).nodup_iff.mp h
  rw [List.map_append] at hnodup
  refine hnodup.sublist ?_
  exact (List.singleton_sublist.mpr t.ptr_mem_ptrs).append (map_ptr_sublist_outerCells ctx t.ptr)

theorem flatMap_cells_focus_leaf (ctx : List (Frame P K E)) (p : P) (es : List E) (nx : P)
    (X : List (SearchTree P K E)) :
    ((plug ctx (leaf p es nx) :: X).flatMap cells).Perm
      ((p, .leaf es nx) :: (X.flatMap cells ++ outerCells ctx p)) := by
  rw [List.flatMap_cons]
  refine ((cells_plug ctx _).append_right _).trans ?_
  simp only [cells, ptr, List.cons_append, List.nil_append]
  exact List.Perm.cons _ List.perm_append_comm

namespace Stores

variable {σ : P → Option (Shape P K E)} {F F' : List (SearchTree P K E)}

theorem nodup_ptrs (h : Stores σ F) : (F.flatMap ptrs).Nodup := by
  rw [← map_fst_flatMap_cells]
  exact h.nodup

theorem perm (h : Stores σ F) (hp : (F.flatMap cells).Perm (F'.flatMap cells)) : Stores σ F' where
  stored c hc := h.stored c (hp.mem_iff.mpr hc)
  nodup := (hp.map Prod.fst).nodup_iff.mp h.nodup

theorem tail {t : SearchTree P K E} (h : Stores σ (t :: F)) : Stores σ F where
  stored c hc := h.stored c (by simp only [List.flatMap_cons, List.mem_append]; exact Or.inr hc)
  nodup := by
    have := h.nodup
    rw [List.flatMap_cons, List.map_append] at this
    exact (List.nodup_append.mp this).2.1

-- A node has one parent.
theorem parent_unique (h : Stores σ F) {x y c : P} {s r : Shape P K E}
    (hx : (x, s) ∈ F.flatMap cells) (hy : (y, r) ∈ F.flatMap cells)
    (hs : c ∈ s.children) (hr : c ∈ r.children) : x = y := by
  have hnd := (flatMap_ptrs_perm F).nodup_iff.mp h.nodup_ptrs
  have hpw := (List.nodup_flatMap.mp (List.nodup_append.mp hnd).2.1).2
  by_contra hne
  have : Std.Symm (Function.onFun List.Disjoint fun c : P × Shape P K E => Shape.children c.2) :=
    ⟨fun _ _ hd _ h₁ h₂ => hd h₂ h₁⟩
  have hdis := hpw.forall hx hy fun e => hne (congrArg Prod.fst e)
  exact hdis hs hr

theorem children_nodup (h : Stores σ F) {x : P} {s : Shape P K E}
    (hx : (x, s) ∈ F.flatMap cells) : s.children.Nodup := by
  have hnd := (flatMap_ptrs_perm F).nodup_iff.mp h.nodup_ptrs
  exact (List.nodup_flatMap.mp (List.nodup_append.mp hnd).2.1).1 _ hx

-- A root is no child.
theorem root_not_child (h : Stores σ F) {t : SearchTree P K E} {x : P} {s : Shape P K E}
    (ht : t ∈ F) (hx : (x, s) ∈ F.flatMap cells) : t.ptr ∉ s.children := by
  intro hs
  have hnd := (flatMap_ptrs_perm F).nodup_iff.mp h.nodup_ptrs
  have hdis := (List.nodup_append.mp hnd).2.2
  exact hdis _ (List.mem_map_of_mem ht) _ (List.mem_flatMap.mpr ⟨_, hx, hs⟩) rfl

theorem not_mem_rest {p : P} {s₀ : Shape P K E} {rest : List (P × Shape P K E)} (h : Stores σ F)
    (hold : (F.flatMap cells).Perm ((p, s₀) :: rest)) : p ∉ rest.map Prod.fst := by
  have := (hold.map Prod.fst).nodup_iff.mp h.nodup
  exact (List.nodup_cons.mp this).1

end Stores

section Relocate

variable [DecidableEq P]

-- The address change when the node at `p` moves to `q`.
def relocate (p q : P) : P → P := fun x => if x = p then q else x

@[simp] theorem relocate_self (p q : P) : relocate p q p = q := by simp [relocate]

theorem relocate_of_ne {p q x : P} (h : x ≠ p) : relocate p q x = x := by simp [relocate, h]

@[simp] theorem relocate_refl (p : P) : relocate p p = id := by
  funext x
  by_cases h : x = p <;> simp [relocate, h]

-- The store after `s` is written for the node at `p`, which thereby moves to `q`:
-- all pointers to `p` now stand for `q`.
def writeAt (σ : P → Option (Shape P K E)) (p q : P) (s : Shape P K E) :
    P → Option (Shape P K E) := fun x =>
  if x = q then some (s.mapPtr (relocate p q)) else (σ x).map (Shape.mapPtr (relocate p q))

variable {σ : P → Option (Shape P K E)} {F F' : List (SearchTree P K E)} {p q : P}

-- Writing one node turns the forest `F` into `F'` when they differ in that node only.
theorem Stores.write {s : Shape P K E} {rest : List (P × Shape P K E)} (h : Stores σ F)
    (hold : (F.flatMap cells).Perm rest ∨ ∃ s₀, (F.flatMap cells).Perm ((p, s₀) :: rest))
    (hnew : (F'.flatMap cells).Perm ((p, s) :: rest)) (hp : p ∉ rest.map Prod.fst)
    (hq : q ∉ rest.map Prod.fst) :
    Stores (writeAt σ p q s) (F'.map (mapPtr (relocate p q))) := by
  have hrest : ∀ c ∈ rest, σ c.1 = some c.2 := by
    intro c hc
    apply h.stored
    rcases hold with hold | ⟨s₀, hold⟩
    · exact hold.mem_iff.mpr hc
    · exact hold.mem_iff.mpr (List.mem_cons_of_mem _ hc)
  have hnodup : (rest.map Prod.fst).Nodup := by
    rcases hold with hold | ⟨s₀, hold⟩
    · exact (hold.map Prod.fst).nodup_iff.mp h.nodup
    · have := (hold.map Prod.fst).nodup_iff.mp h.nodup
      exact (List.nodup_cons.mp this).2
  have hstay : ∀ c ∈ rest, relocate p q c.1 = c.1 := by
    intro c hc
    exact relocate_of_ne fun e => hp (e ▸ List.mem_map_of_mem hc)
  have hcells : ((F'.map (mapPtr (relocate p q))).flatMap cells).Perm
      ((q, s.mapPtr (relocate p q)) ::
        rest.map (Prod.map (relocate p q) (Shape.mapPtr (relocate p q)))) := by
    rw [flatMap_cells_mapPtr]
    simpa using hnew.map (Prod.map (relocate p q) (Shape.mapPtr (relocate p q)))
  constructor
  · intro c hc
    rcases List.mem_cons.mp (hcells.mem_iff.mp hc) with rfl | hc
    · simp [writeAt]
    · obtain ⟨d, hd, rfl⟩ := List.mem_map.mp hc
      have hne : d.1 ≠ q := fun e => hq (e ▸ List.mem_map_of_mem hd)
      simp [writeAt, hstay d hd, hne, hrest d hd]
  · refine (hcells.map Prod.fst).nodup_iff.mpr ?_
    have hfst : (rest.map (Prod.map (relocate p q) (Shape.mapPtr (relocate p q)))).map Prod.fst =
        rest.map Prod.fst := by
      rw [List.map_map]
      exact List.map_congr_left hstay
    rw [List.map_cons, hfst]
    exact List.nodup_cons.mpr ⟨hq, hnodup⟩

end Relocate

end JasonDb.Lib.SearchTree
