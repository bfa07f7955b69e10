import JasonDb.Aggregation

namespace JasonDb.AggregationPipeline

open Lib

-- Two values of one type that the sort tells apart.
def Differ : Json → Json → Prop
  | .str a, .str b => a ≠ b
  | .num a, .num b => a.asF64 ≠ b.asF64
  | .bool a, .bool b => a ≠ b
  | _, _ => False

-- When two documents have values that differ, all documents that have the field have a value of
-- that type.
def OneType (field : String) (docs : List Json) : Prop :=
  ∀ a ∈ docs, ∀ b ∈ docs, ∀ x y, a.get field = some x → b.get field = some y → Differ x y →
    ∀ c ∈ docs, ∀ z, c.get field = some z → z.typeOrder = x.typeOrder

structure Sorted (sorter : Sorter Error Json) (field : String) (ascending : Bool) (docs : List Json) :
    Prop where
  preorder : TotalPreorderOn (· ∈ docs) (compareDocs field ascending)
  sorted : ∃ result, executeSort sorter field ascending docs = .ok result ∧ result.Perm docs ∧
    result.Pairwise fun a b => compareDocs field ascending b a ≠ .lt

theorem Differ.typeOrder_eq {x y : Json} (h : Differ x y) : x.typeOrder = y.typeOrder := by
  cases x <;> cases y <;> first
    | rfl
    | cases h

section Compare

variable {field : String} {a b c x y z : Json}

theorem compareDocs_of_some (ha : a.get field = some x) (hb : b.get field = some y) :
    compareDocs field true a b = .eq ↔ ¬Differ x y := by
  simp only [compareDocs, ha, hb]
  cases x <;> cases y <;> simp [Differ, Number.order_eq]

theorem compareDocs_eq_of_ne (ha : a.get field = some x) (hb : b.get field = some y)
    (hne : x.typeOrder ≠ y.typeOrder) : compareDocs field true a b = .eq :=
  (compareDocs_of_some ha hb).mpr fun hdiffer => hne hdiffer.typeOrder_eq

theorem compareDocs_none_left (ha : a.get field = none) : compareDocs field true a b ≠ .gt := by
  cases hb : b.get field <;> simp [compareDocs, ha, hb]

theorem compareDocs_none_right (ha : a.get field = some x) (hb : b.get field = none) :
    compareDocs field true a b = .gt := by
  cases x <;> simp [compareDocs, ha, hb]

theorem compareDocs_swap : compareDocs field true a b = (compareDocs field true b a).swap := by
  cases ha : a.get field with
  | none =>
    cases hb : b.get field with
    | none => simp [compareDocs, ha, hb]
    | some y =>
      rw [compareDocs_none_right hb ha]
      cases y <;> simp [compareDocs, ha, hb]
  | some x =>
    cases hb : b.get field with
    | none =>
      rw [compareDocs_none_right ha hb]
      cases x <;> simp [compareDocs, ha, hb]
    | some y =>
      simp only [compareDocs, ha, hb]
      cases x <;> cases y <;> first
        | rfl
        | exact Number.order_swap _ _
        | exact Std.OrientedOrd.eq_swap

-- Within a type that has values that differ, the comparison is the one of the query builder.
theorem compareDocs_eq_compareValues {w : Json} (hdiffer : Differ x w) (ha : a.get field = some y)
    (hb : b.get field = some z) (hy : y.typeOrder = x.typeOrder) (hz : z.typeOrder = x.typeOrder) :
    compareDocs field true a b = QueryBuilder.compareValues y z := by
  cases x <;> cases y <;> cases hy <;> cases z <;> cases hz <;> first
    | cases w <;> cases hdiffer
    | simp [compareDocs, ha, hb, QueryBuilder.compareValues]

theorem compareDocs_trans {docs : List Json} (honly : OneType field docs) (ha : a ∈ docs) (hb : b ∈ docs)
    (hc : c ∈ docs) (hab : compareDocs field true a b ≠ .gt) (hbc : compareDocs field true b c ≠ .gt) :
    compareDocs field true a c ≠ .gt := by
  cases hx : a.get field with
  | none => exact compareDocs_none_left hx
  | some x =>
    cases hy : b.get field with
    | none => exact absurd (compareDocs_none_right hx hy) hab
    | some y =>
      cases hz : c.get field with
      | none => exact absurd (compareDocs_none_right hy hz) hbc
      | some z =>
        by_cases hdiffer : Differ x z
        · have htype := honly a ha c hc x z hx hz hdiffer
          have hyx := htype b hb y hy
          have hzx := htype c hc z hz
          rw [compareDocs_eq_compareValues hdiffer hx hy rfl hyx] at hab
          rw [compareDocs_eq_compareValues hdiffer hy hz hyx hzx] at hbc
          rw [compareDocs_eq_compareValues hdiffer hx hz rfl hzx]
          exact (QueryBuilder.compareValues_byType.transAt x y z).le_trans hab hbc
        · rw [(compareDocs_of_some hx hz).mpr hdiffer]
          decide

end Compare

variable {field : String} {docs : List Json}

theorem compareDocs_preorder (honly : OneType field docs) :
    TotalPreorderOn (· ∈ docs) (compareDocs field true) := by
  constructor
  · intro a _
    have hswap := @compareDocs_swap field a a
    cases h : compareDocs field true a a with
    | eq => rfl
    | lt => rw [h] at hswap; cases hswap
    | gt => rw [h] at hswap; cases hswap
  · intro a b _ _
    exact compareDocs_swap
  · intro a b c ha hb hc
    exact compareDocs_trans honly ha hb hc

theorem oneType_of_preorder (h : TotalPreorderOn (· ∈ docs) (compareDocs field true)) :
    OneType field docs := by
  intro a ha b hb x y hx hy hdiffer c hc z hz
  by_contra hne
  have hne' : z.typeOrder ≠ y.typeOrder := hdiffer.typeOrder_eq ▸ hne
  -- The third document equals both of the two that differ.
  have hac := compareDocs_eq_of_ne hx hz (Ne.symm hne)
  have hcb := compareDocs_eq_of_ne hz hy hne'
  have hbc := compareDocs_eq_of_ne hy hz (Ne.symm hne')
  have hca := compareDocs_eq_of_ne hz hx hne
  have hab : compareDocs field true a b ≠ .gt := h.trans a c b ha hc hb (by simp [hac]) (by simp [hcb])
  have hba : compareDocs field true b a ≠ .gt := h.trans b c a hb hc ha (by simp [hbc]) (by simp [hca])
  have hdiff : compareDocs field true a b ≠ .eq := fun heq => (compareDocs_of_some hx hy).mp heq hdiffer
  rw [h.swap b a hb ha] at hba
  cases hcmp : compareDocs field true a b <;> simp_all

theorem compareDocs_descending (field : String) :
    compareDocs field false = fun a b => (compareDocs field true a b).swap := rfl

theorem compareDocs_preorder_iff (ascending : Bool) :
    TotalPreorderOn (· ∈ docs) (compareDocs field ascending) ↔ OneType field docs := by
  cases ascending with
  | true => exact ⟨oneType_of_preorder, compareDocs_preorder⟩
  | false =>
    rw [compareDocs_descending]
    constructor
    · intro h
      have := h.reverse
      simp only [Ordering.swap_swap] at this
      exact oneType_of_preorder this
    · intro honly
      exact (compareDocs_preorder honly).reverse

theorem sorted_iff (sorter : Sorter Error Json) (field : String) (ascending : Bool) (docs : List Json) :
    Sorted sorter field ascending docs ↔ OneType field docs := by
  constructor
  · intro h
    exact (compareDocs_preorder_iff ascending).mp h.preorder
  · intro honly
    have hpreorder := (compareDocs_preorder_iff ascending).mpr honly
    exact ⟨hpreorder, sorter.sorts hpreorder⟩

-- `"b"`, `1` and `"a"`: the number equals both strings.
theorem mixed_not_sorted : ¬∀ (sorter : Sorter Error Json) (field : String) (ascending : Bool) (docs : List Json),
    Sorted sorter field ascending docs := by
  intro h
  have honly := (compareDocs_preorder_iff true).mp (h ⟨fun cmp l => .ok (sortBy cmp l), fun _ _ _ => rfl⟩ "x" true
    [.obj [("x", .str "b")], .obj [("x", .num (.int 1))], .obj [("x", .str "a")]]).preorder
  have htype := honly (.obj [("x", .str "b")]) (by simp) (.obj [("x", .str "a")]) (by simp) (.str "b") (.str "a")
    rfl rfl (by simp [Differ]) (.obj [("x", .num (.int 1))]) (by simp) (.num (.int 1)) rfl
  exact absurd htype (by decide)

end JasonDb.AggregationPipeline
