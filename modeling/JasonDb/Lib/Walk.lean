import Mathlib.Data.Finset.Card
import Mathlib.Data.Nat.Find

namespace JasonDb.Lib

variable {α β : Type}

-- From each place a walk ends with a result or goes on to the next place. The fuel bounds the
-- number of places.
def walk (next : α → β ⊕ α) : Nat → α → Option β
  | 0, _ => none
  | fuel + 1, a => match next a with
    | .inl b => some b
    | .inr a' => walk next fuel a'

section Walk

variable {next next' : α → β ⊕ α}

theorem walk_mono {fuel fuel' : Nat} {a : α} {b : β} (h : walk next fuel a = some b)
    (hle : fuel ≤ fuel') : walk next fuel' a = some b := by
  induction fuel generalizing a fuel' with
  | zero => simp [walk] at h
  | succ fuel ih =>
    obtain ⟨more, rfl⟩ : ∃ more, fuel' = more + 1 := ⟨fuel' - 1, by omega⟩
    unfold walk at h ⊢
    cases hn : next a with
    | inl b' =>
      rw [hn] at h
      exact h
    | inr a' =>
      rw [hn] at h
      exact ih h (by omega)

-- A walk that ends after exactly `k` places.
def EndsIn (next : α → β ⊕ α) (a : α) (k : Nat) : Prop :=
  walk next k a ≠ none ∧ ∀ j < k, walk next j a = none

theorem EndsIn.unique {a : α} {j k : Nat} (h : EndsIn next a j) (h' : EndsIn next a k) : j = k := by
  rcases Nat.lt_trichotomy j k with hlt | heq | hlt
  · exact absurd (h'.2 j hlt) h.1
  · exact heq
  · exact absurd (h.2 k hlt) h'.1

theorem EndsIn.tail {a a' : α} {k : Nat} (h : EndsIn next a (k + 1)) (hn : next a = .inr a') :
    EndsIn next a' k := by
  constructor
  · simpa [walk, hn] using h.1
  · intro j hj
    simpa [walk, hn] using h.2 (j + 1) (by omega)

-- The places of a walk that ends are all different: each has its own distance to the end.
theorem EndsIn.le_card {places : Finset α}
    (hclosed : ∀ a ∈ places, ∀ a', next a = .inr a' → a' ∈ places) {a : α} {k : Nat}
    (ha : a ∈ places) (h : EndsIn next a k) : k ≤ places.card := by
  classical
  have hnear : k ≤ (places.filter fun x => ∃ j ≤ k, EndsIn next x j).card := by
    induction k generalizing a with
    | zero => exact Nat.zero_le _
    | succ k ih =>
      cases hn : next a with
      | inl b =>
        have hk : k = 0 := by
          by_contra hk
          have := h.2 1 (by omega)
          simp [walk, hn] at this
        subst hk
        refine Finset.card_pos.mpr ⟨a, ?_⟩
        simp only [Finset.mem_filter]
        exact ⟨ha, 1, le_rfl, h⟩
      | inr a' =>
        have htail := h.tail hn
        have hlt := ih (hclosed a ha a' hn) htail
        refine Nat.succ_le_of_lt (lt_of_le_of_lt hlt (Finset.card_lt_card ?_))
        rw [Finset.ssubset_iff_of_subset]
        · refine ⟨a, Finset.mem_filter.mpr ⟨ha, k + 1, le_rfl, h⟩, ?_⟩
          intro hmem
          obtain ⟨_, j, hj, hends⟩ := Finset.mem_filter.mp hmem
          have := hends.unique h
          omega
        · intro x hx
          obtain ⟨hmem, j, hj, hends⟩ := Finset.mem_filter.mp hx
          exact Finset.mem_filter.mpr ⟨hmem, j, by omega, hends⟩
  exact hnear.trans (Finset.card_filter_le _ _)

-- Fuel for every place is enough: a walk that is longer never ends.
theorem walk_fuel {places : Finset α}
    (hclosed : ∀ a ∈ places, ∀ a', next a = .inr a' → a' ∈ places) {a : α} (ha : a ∈ places)
    {fuel fuel' : Nat} (hf : places.card ≤ fuel) (hf' : places.card ≤ fuel') :
    walk next fuel a = walk next fuel' a := by
  classical
  by_cases hends : ∃ k, walk next k a ≠ none
  · have hmin : EndsIn next a (Nat.find hends) := by
      refine ⟨Nat.find_spec hends, fun j hj => ?_⟩
      exact not_not.mp (Nat.find_min hends hj)
    have hle := hmin.le_card hclosed ha
    obtain ⟨b, hb⟩ := Option.ne_none_iff_exists'.mp hmin.1
    rw [walk_mono hb (hle.trans hf), walk_mono hb (hle.trans hf')]
  · simp only [not_exists, not_not] at hends
    rw [hends, hends]

theorem walk_congr {places : α → Prop}
    (hclosed : ∀ a, places a → ∀ a', next a = .inr a' → places a')
    (hsame : ∀ a, places a → next' a = next a) {a : α} (ha : places a) (fuel : Nat) :
    walk next' fuel a = walk next fuel a := by
  induction fuel generalizing a with
  | zero => rfl
  | succ fuel ih =>
    unfold walk
    rw [hsame a ha]
    cases hn : next a with
    | inl b => rfl
    | inr a' => exact ih (hclosed a ha a' hn)

end Walk

end JasonDb.Lib
