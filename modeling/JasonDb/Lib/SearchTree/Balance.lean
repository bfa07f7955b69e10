import JasonDb.Lib.SearchTree.Leaves
import JasonDb.Lib.SearchTree.Store

namespace JasonDb.Lib

variable {P K E : Type}

-- How many keys a node has.
def Shape.size : Shape P K E → Nat
  | .leaf entries _ => entries.length
  | .node keys _ => keys.length

namespace SearchTree

section Level

-- All leaves are `n` steps below the root.
def Level : Nat → SearchTree P K E → Prop
  | 0, .leaf _ _ _ => True
  | n + 1, .node _ _ children => ∀ c ∈ children, Level n c
  | _, _ => False

-- The trees around a hole are such that a tree of level `n` fits in.
def LevelOuter : Nat → List (Frame P K E) → Prop
  | _, [] => True
  | n, fr :: ctx => (∀ c ∈ fr.left ++ fr.right, Level n c) ∧ LevelOuter (n + 1) ctx

variable {n : Nat} {p nx : P} {es : List E} {keys : List K} {children : List (SearchTree P K E)}

theorem level_leaf : Level n (leaf p es nx : SearchTree P K E) ↔ n = 0 := by
  cases n <;> simp [Level]

theorem level_node : Level n (node p keys children) ↔ ∃ m, n = m + 1 ∧ ∀ c ∈ children, Level m c := by
  cases n with
  | zero => simp [Level]
  | succ n => simp [Level]

theorem level_fill (fr : Frame P K E) (t : SearchTree P K E) :
    Level (n + 1) (fr.fill t) ↔ (∀ c ∈ fr.left ++ fr.right, Level n c) ∧ Level n t := by
  simp only [Frame.fill, Level, List.mem_append, List.mem_cons]
  constructor
  · intro h
    exact ⟨fun c hc => h c (hc.imp id Or.inr), h t (Or.inr (Or.inl rfl))⟩
  · rintro ⟨h, ht⟩ c (hc | rfl | hc)
    · exact h c (Or.inl hc)
    · exact ht
    · exact h c (Or.inr hc)

theorem level_plug (ctx : List (Frame P K E)) (t : SearchTree P K E) :
    Level (n + ctx.length) (plug ctx t) ↔ LevelOuter n ctx ∧ Level n t := by
  induction ctx generalizing n t with
  | nil => simp [plug, LevelOuter]
  | cons fr ctx ih =>
    have hlen : n + (fr :: ctx).length = n + 1 + ctx.length := by
      simp only [List.length_cons]
      omega
    rw [plug, hlen, ih, level_fill, LevelOuter]
    tauto

-- A frame is one level above its hole.
theorem le_of_level_plug {ctx : List (Frame P K E)} {t : SearchTree P K E}
    (h : Level n (plug ctx t)) : ctx.length ≤ n := by
  induction ctx generalizing t with
  | nil => exact Nat.zero_le _
  | cons fr ctx ih =>
    have hle := ih h
    obtain ⟨m, rfl⟩ := Nat.exists_eq_add_of_le' hle
    have hfill := ((level_plug ctx _).mp h).2
    simp only [Frame.fill, level_node] at hfill
    obtain ⟨m', rfl, _⟩ := hfill
    simp only [List.length_cons]
    omega

theorem exists_level_plug {ctx : List (Frame P K E)} {t : SearchTree P K E} :
    (∃ n, Level n (plug ctx t)) ↔ ∃ n, LevelOuter n ctx ∧ Level n t := by
  constructor
  · rintro ⟨n, hn⟩
    obtain ⟨m, rfl⟩ := Nat.exists_eq_add_of_le' (le_of_level_plug hn)
    exact ⟨m, (level_plug ctx t).mp hn⟩
  · rintro ⟨n, hn⟩
    exact ⟨_, (level_plug ctx t).mpr hn⟩

end Level

section Linked

-- The address of the first leaf, or of what follows when there is none.
def headPtr (stop : P) : List (P × List E × P) → P
  | [] => stop
  | l :: _ => l.1

-- Each leaf has its link to the next one, and the last one to `stop`.
def Linked (stop : P) : List (P × List E × P) → Prop
  | [] => True
  | l :: ls => l.2.2 = headPtr stop ls ∧ Linked stop ls

variable {stop : P} {ls ls' : List (P × List E × P)}

theorem headPtr_append : headPtr stop (ls ++ ls') = headPtr (headPtr stop ls') ls := by
  cases ls <;> rfl

theorem linked_append : Linked stop (ls ++ ls') ↔ Linked (headPtr stop ls') ls ∧ Linked stop ls' := by
  induction ls with
  | nil => simp [Linked]
  | cons l ls ih =>
    simp only [List.cons_append, Linked, headPtr_append, ih]
    tauto

-- A leaf with other entries.
theorem Linked.set {before after : List (P × List E × P)} {p nx : P} {es es' : List E}
    (h : Linked stop (before ++ [(p, es, nx)] ++ after)) :
    Linked stop (before ++ [(p, es', nx)] ++ after) := by
  simp only [linked_append] at h ⊢
  exact h

-- A leaf cut in two, the new one right of the old one.
theorem Linked.split {before after : List (P × List E × P)} {p q nx : P} {es es₁ es₂ : List E}
    (h : Linked stop (before ++ [(p, es, nx)] ++ after)) :
    Linked stop (before ++ [(p, es₁, q), (q, es₂, nx)] ++ after) := by
  simp only [linked_append, Linked, headPtr] at h ⊢
  tauto

end Linked

end SearchTree

end JasonDb.Lib
