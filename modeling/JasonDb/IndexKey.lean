import JasonDb.Schema
import JasonDb.Lib.Compare

namespace JasonDb

open Lib

-- Two floats, neither of which is a NaN.
def Number.order (a b : Number) : Ordering :=
  if a.asF64 < b.asF64 then .lt
  else if a.asF64 > b.asF64 then .gt
  else .eq

section Kinds

theorem Number.order_eq (a b : Number) : a.order b = compare a.asF64 b.asF64 := by
  unfold Number.order
  rcases lt_trichotomy a.asF64 b.asF64 with h | h | h
  · rw [if_pos h, compare_lt_iff_lt.mpr h]
  · rw [if_neg h.not_lt, if_neg h.not_gt, compare_eq_iff_eq.mpr h]
  · rw [if_neg h.not_gt, if_pos h, compare_gt_iff_gt.mpr h]

theorem Number.order_swap (a b : Number) : a.order b = (b.order a).swap := by
  rw [order_eq, order_eq]
  exact Std.OrientedOrd.eq_swap

theorem Number.order_transAt (a b c : Number) : TransAt Number.order a b c := by
  have horder : Number.order = fun a b => compare a.asF64 b.asF64 := by
    funext a b
    exact order_eq a b
  rw [horder]
  exact .comap (f := Number.asF64) (transAt_compare _ _ _)

variable {cmp : Json → Json → Ordering}

-- A comparison that puts the types in order and is the usual one within a type. How it compares
-- objects is left open, apart from what it does with comparable members.
structure ByType (cmp : Json → Json → Ordering) : Prop where
  types : ∀ a b, a.typeOrder ≠ b.typeOrder → cmp a b = compare a.typeOrder b.typeOrder
  null : cmp .null .null = .eq
  bool : ∀ a b, cmp (.bool a) (.bool b) = compare a b
  num : ∀ a b, cmp (.num a) (.num b) = a.order b
  str : ∀ a b, cmp (.str a) (.str b) = compare a b
  arr : ∀ as bs, cmp (.arr as) (.arr bs) = compareLists cmp as bs
  obj_swap : ∀ as bs, (∀ a ∈ as, ∀ b, cmp a.2 b = (cmp b a.2).swap) →
    cmp (.obj as) (.obj bs) = (cmp (.obj bs) (.obj as)).swap
  obj_transAt : ∀ as bs cs, (∀ a ∈ as, ∀ b c, TransAt cmp a.2 b c) → TransAt cmp (.obj as) (.obj bs) (.obj cs)

namespace ByType

theorem swap_of_same (h : ByType cmp) {a b : Json}
    (hsame : a.typeOrder = b.typeOrder → cmp a b = (cmp b a).swap) : cmp a b = (cmp b a).swap := by
  by_cases hab : a.typeOrder = b.typeOrder
  · exact hsame hab
  · rw [h.types a b hab, h.types b a (Ne.symm hab)]
    exact Std.OrientedOrd.eq_swap

theorem swap (h : ByType cmp) (a b : Json) : cmp a b = (cmp b a).swap := by
  induction a using Json.nested generalizing b with
  | null =>
    refine h.swap_of_same fun hsame => ?_
    cases b <;> cases hsame
    rw [h.null]
    rfl
  | bool a =>
    refine h.swap_of_same fun hsame => ?_
    cases b <;> cases hsame
    rw [h.bool, h.bool]
    exact Std.OrientedOrd.eq_swap
  | num a =>
    refine h.swap_of_same fun hsame => ?_
    cases b <;> cases hsame
    rw [h.num, h.num, Number.order_swap]
  | str a =>
    refine h.swap_of_same fun hsame => ?_
    cases b <;> cases hsame
    rw [h.str, h.str]
    exact Std.OrientedOrd.eq_swap
  | arr as ih =>
    refine h.swap_of_same fun hsame => ?_
    cases b <;> cases hsame
    rw [h.arr, h.arr]
    exact compareLists_swap fun a ha b _ => ih a ha b
  | obj as ih =>
    refine h.swap_of_same fun hsame => ?_
    cases b <;> cases hsame
    exact h.obj_swap _ _ ih

theorem transAt_of_same (h : ByType cmp) {a b c : Json}
    (hsame : a.typeOrder = b.typeOrder → b.typeOrder = c.typeOrder → TransAt cmp a b c) :
    TransAt cmp a b c := by
  have hthen : cmp = fun a b => (compare a.typeOrder b.typeOrder).then (cmp a b) := by
    funext a b
    by_cases hab : a.typeOrder = b.typeOrder
    · rw [hab, Nat.compare_eq_eq.mpr rfl]
      rfl
    · rw [h.types a b hab]
      cases compare a.typeOrder b.typeOrder <;> rfl
  rw [hthen]
  refine .then (.comap (f := Json.typeOrder) (transAt_compare _ _ _)) fun hab hbc => ?_
  exact hsame (Nat.compare_eq_eq.mp hab) (Nat.compare_eq_eq.mp hbc)

-- At three values of one type the comparison is the one that the type has.
theorem transAt_of_type {α : Type} {make : α → Json} {cmp' : α → α → Ordering}
    (hcmp : ∀ a b, cmp (make a) (make b) = cmp' a b) {a b c : α} (h : TransAt cmp' a b c) :
    TransAt cmp (make a) (make b) (make c) := by
  obtain ⟨hleft, hright, hsame⟩ := h
  constructor <;> simpa only [hcmp]

theorem transAt (h : ByType cmp) (a b c : Json) : TransAt cmp a b c := by
  induction a using Json.nested generalizing b c with
  | null =>
    refine h.transAt_of_same fun hab hbc => ?_
    cases b <;> cases hab
    cases c <;> cases hbc
    constructor <;> simp [h.null]
  | bool a =>
    refine h.transAt_of_same fun hab hbc => ?_
    cases b <;> cases hab
    cases c <;> cases hbc
    exact transAt_of_type h.bool (transAt_compare _ _ _)
  | num a =>
    refine h.transAt_of_same fun hab hbc => ?_
    cases b <;> cases hab
    cases c <;> cases hbc
    exact transAt_of_type h.num (Number.order_transAt _ _ _)
  | str a =>
    refine h.transAt_of_same fun hab hbc => ?_
    cases b <;> cases hab
    cases c <;> cases hbc
    exact transAt_of_type h.str (transAt_compare _ _ _)
  | arr as ih =>
    refine h.transAt_of_same fun hab hbc => ?_
    cases b <;> cases hab
    cases c <;> cases hbc
    exact transAt_of_type h.arr (compareLists_transAt fun a ha b _ c _ => ih a ha b c)
  | obj as ih =>
    refine h.transAt_of_same fun hab hbc => ?_
    cases b <;> cases hab
    cases c <;> cases hbc
    exact h.obj_transAt _ _ _ ih

theorem totalPreorder (h : ByType cmp) : TotalPreorder cmp := .of_transAt h.swap h.transAt

end ByType

end Kinds

structure IndexKey where
  fieldValue : Json
  docId : String

namespace IndexKey

mutual

-- `index_key::compare_values`
def compareValues : Json → Json → Ordering
  | .null, .null => .eq
  | .null, _ => .lt
  | _, .null => .gt
  | .bool a, .bool b => compare a b
  | .bool _, _ => .lt
  | _, .bool _ => .gt
  | .num a, .num b => a.order b
  | .num _, _ => .lt
  | _, .num _ => .gt
  | .str a, .str b => compare a b
  | .str _, _ => .lt
  | _, .str _ => .gt
  | .arr a, .arr b => compareItems a b
  | .arr _, _ => .lt
  | _, .arr _ => .gt
  | .obj a, .obj b => compareFields a b

def compareItems : List Json → List Json → Ordering
  | [], [] => .eq
  | [], _ :: _ => .lt
  | _ :: _, [] => .gt
  | a :: as, b :: bs => match compareValues a b with
    | .eq => compareItems as bs
    | other => other

-- The keys of a map come sorted, so that sorting them changes nothing.
def compareFields : List (String × Json) → List (String × Json) → Ordering
  | [], [] => .eq
  | [], _ :: _ => .lt
  | _ :: _, [] => .gt
  | (key, a) :: as, (key', b) :: bs => match compare key key' with
    | .eq => match compareValues a b with
      | .eq => compareFields as bs
      | other => other
    | other => other

end

def compareIndexKeys (a b : IndexKey) : Ordering :=
  match compareValues a.fieldValue b.fieldValue with
  | .eq => compare a.docId b.docId
  | other => other

theorem compareItems_eq (as bs : List Json) : compareItems as bs = compareLists compareValues as bs := by
  induction as generalizing bs with
  | nil => cases bs <;> rfl
  | cons a as ih =>
    cases bs with
    | nil => rfl
    | cons b bs =>
      rw [compareItems, compareLists, ih]
      cases compareValues a b <;> rfl

-- A field is compared by its key and then by its value.
def compareField (a b : String × Json) : Ordering := (compare a.1 b.1).then (compareValues a.2 b.2)

theorem compareFields_eq (as bs : List (String × Json)) :
    compareFields as bs = compareLists compareField as bs := by
  induction as generalizing bs with
  | nil => cases bs <;> rfl
  | cons a as ih =>
    cases bs with
    | nil => rfl
    | cons b bs =>
      obtain ⟨key, a⟩ := a
      obtain ⟨key', b⟩ := b
      rw [compareFields, compareLists, compareField, ih]
      cases compare key key' <;> cases compareValues a b <;> rfl

theorem compareValues_byType : ByType compareValues where
  types a b h := by
    cases a <;> cases b <;> first
      | exact absurd rfl h
      | (simp only [compareValues]; rfl)
  null := rfl
  bool _ _ := rfl
  num _ _ := rfl
  str _ _ := rfl
  arr as bs := compareItems_eq as bs
  obj_swap as bs ih := by
    simp only [compareValues, compareFields_eq]
    refine compareLists_swap fun a ha b _ => ?_
    rw [compareField, compareField, Ordering.swap_then, ih a ha b.2, Std.OrientedOrd.eq_swap (a := a.1) (b := b.1)]
  obj_transAt as bs cs ih := by
    have hfields : TransAt (compareLists compareField) as bs cs := by
      refine compareLists_transAt fun a ha b _ c _ => ?_
      exact .then (.comap (f := Prod.fst) (transAt_compare _ _ _)) fun _ _ =>
        .comap (f := Prod.snd) (ih a ha b.2 c.2)
    refine ByType.transAt_of_type (fun as bs => ?_) hfields
    rw [compareValues, compareFields_eq]

theorem compareIndexKeys_totalPreorder : TotalPreorder compareIndexKeys := by
  have hkeys : compareIndexKeys =
      fun a b => (compareValues a.fieldValue b.fieldValue).then (compare a.docId b.docId) := by
    funext a b
    unfold compareIndexKeys
    cases compareValues a.fieldValue b.fieldValue <;> rfl
  rw [hkeys]
  refine .of_transAt (fun a b => ?_) fun a b c => ?_
  · rw [Ordering.swap_then, compareValues_byType.swap, Std.OrientedOrd.eq_swap (a := a.docId) (b := b.docId)]
  · exact .then (.comap (f := fieldValue) (compareValues_byType.transAt _ _ _)) fun _ _ =>
      .comap (f := docId) (transAt_compare _ _ _)

end IndexKey

end JasonDb
