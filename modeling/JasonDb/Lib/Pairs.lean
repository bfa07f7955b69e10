import Mathlib.Data.List.Forall2

namespace JasonDb.Lib

open List

-- Lists whose elements go together one by one.
variable {α β : Type*} {R : α → β → Prop} {xs : List α} {ys : List β} {x : α} {y : β}

theorem forall₂_mem_right (h : Forall₂ R xs ys) (hy : y ∈ ys) : ∃ x ∈ xs, R x y := by
  induction h with
  | nil => cases hy
  | cons hxy _ ih =>
    rcases mem_cons.mp hy with rfl | hy
    · exact ⟨_, mem_cons_self .., hxy⟩
    · obtain ⟨x, hx, hR⟩ := ih hy
      exact ⟨x, mem_cons_of_mem _ hx, hR⟩

theorem forall₂_mem_left (h : Forall₂ R xs ys) (hx : x ∈ xs) : ∃ y ∈ ys, R x y :=
  forall₂_mem_right (R := flip R) h.flip hx

theorem forall₂_imp_mem {S : α → β → Prop} (h : Forall₂ R xs ys)
    (himp : ∀ x, ∀ y ∈ ys, R x y → S x y) : Forall₂ S xs ys := by
  induction h with
  | nil => exact .nil
  | cons hxy _ ih =>
    exact .cons (himp _ _ (mem_cons_self ..) hxy)
      (ih fun x y hy => himp x y (mem_cons_of_mem _ hy))

theorem forall₂_getElem?_right (h : Forall₂ R xs ys) {i : Nat} (hy : ys[i]? = some y) :
    ∃ x, xs[i]? = some x ∧ R x y := by
  induction h generalizing i with
  | nil => cases hy
  | cons hxy _ ih =>
    cases i with
    | zero =>
      obtain rfl := Option.some.inj hy
      exact ⟨_, rfl, hxy⟩
    | succ i => exact ih hy

theorem forall₂_insertIdx (h : Forall₂ R xs ys) (hxy : R x y) (i : Nat) :
    Forall₂ R (xs.insertIdx i x) (ys.insertIdx i y) := by
  induction h generalizing i with
  | nil =>
    cases i with
    | zero => exact .cons hxy .nil
    | succ i => exact .nil
  | cons hab htail ih =>
    cases i with
    | zero => exact .cons hxy (.cons hab htail)
    | succ i => exact .cons hab (ih i)

end JasonDb.Lib
