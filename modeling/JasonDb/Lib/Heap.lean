import Mathlib.Data.Set.Basic

namespace JasonDb.Lib

-- Cells with their contents. Some of them are in use.
structure Heap (P V : Type) where
  content : P → Option V
  used : P → Prop

namespace Heap

variable {P V ι : Type} {h h' h'' : Heap P V} {S S' S'' : Set P}

-- Cells of `S` that are in use stay so, with their contents.
structure Keeps (S : Set P) (h h' : Heap P V) : Prop where
  used : ∀ p ∈ S, h.used p → h'.used p
  content : ∀ p ∈ S, h.used p → ∀ v, h.content p = some v → h'.content p = some v

theorem Keeps.refl (S : Set P) (h : Heap P V) : Keeps S h h := ⟨fun _ _ hu => hu, fun _ _ _ _ hv => hv⟩

theorem Keeps.trans (hk : Keeps S h h') (hk' : Keeps S h' h'') : Keeps S h h'' where
  used p hp hu := hk'.used p hp (hk.used p hp hu)
  content p hp hu v hv := hk'.content p hp (hk.used p hp hu) v (hk.content p hp hu v hv)

theorem Keeps.mono (hk : Keeps S h h') (hsub : S' ⊆ S) : Keeps S' h h' :=
  ⟨fun p hp => hk.used p (hsub hp), fun p hp => hk.content p (hsub hp)⟩

-- `h` with changes to the cells of `S` and to cells that were not in use. Those of `S'` are in
-- use then.
structure Edits (h : Heap P V) (S : Set P) (h' : Heap P V) (S' : Set P) : Prop where
  grown : ∀ p ∈ S', p ∈ S ∨ ¬ h.used p
  live : ∀ p ∈ S', h'.used p
  keeps : Keeps (Set.compl S) h h'

theorem Edits.trans (he : Edits h S h' S') (he' : Edits h' S' h'' S'') : Edits h S h'' S'' := by
  -- a cell outside `S` that was in use is not in `S'`
  have hout : ∀ p, p ∉ S → h.used p → p ∉ S' := fun p hp hu hp' =>
    (he.grown p hp').elim hp fun hn => hn hu
  refine ⟨fun p hp => ?_, he'.live, ⟨fun p hp hu => ?_, fun p hp hu v hv => ?_⟩⟩
  · rcases he'.grown p hp with hp' | hn
    · exact he.grown p hp'
    · by_cases hS : p ∈ S
      · exact Or.inl hS
      · exact Or.inr fun hu => hn (he.keeps.used p hS hu)
  · exact he'.keeps.used p (hout p hp hu) (he.keeps.used p hp hu)
  · exact he'.keeps.content p (hout p hp hu) (he.keeps.used p hp hu) v (he.keeps.content p hp hu v hv)

theorem Edits.widen {S₀ : Set P} (he : Edits h S h' S') (hsub : S ⊆ S₀) : Edits h S₀ h' S' where
  grown p hp := (he.grown p hp).imp_left fun hS => hsub hS
  live := he.live
  keeps := he.keeps.mono fun _ hp hS => hp (hsub hS)

-- What `φ` says is about the cells of `S`.
def On (S : Set P) (φ : Heap P V → Prop) : Prop :=
  ∀ h h', (∀ p ∈ S, h.used p) → Keeps S h h' → φ h → φ h'

-- Parts of a heap, each with cells of its own in use, and what holds of these.
structure Parts (R : ι → Set P) (φ : ι → Heap P V → Prop) (h : Heap P V) : Prop where
  apart : ∀ i j p, p ∈ R i → p ∈ R j → i = j
  used : ∀ i, ∀ p ∈ R i, h.used p
  holds : ∀ i, φ i h

namespace Parts

variable {R R' : ι → Set P} {φ φ' : ι → Heap P V → Prop} {i : ι}

theorem keep (hp : Parts R φ h) (hon : ∀ i, On (R i) (φ i)) (hk : Keeps Set.univ h h') :
    Parts R φ h' where
  apart := hp.apart
  used i p hi := hk.used p trivial (hp.used i p hi)
  holds i := hon i h h' (hp.used i) (hk.mono fun _ _ => trivial) (hp.holds i)

-- The frame rule: a change to one part leaves the others as they are.
theorem edit (hp : Parts R φ h) (hon : ∀ i, On (R i) (φ i)) (he : Edits h (R i) h' (R' i))
    (hi : φ' i h') (hR : ∀ j, j ≠ i → R' j = R j) (hφ : ∀ j, j ≠ i → φ' j = φ j) :
    Parts R' φ' h' := by
  have hother : ∀ j p, j ≠ i → p ∈ R' j → p ∈ Set.compl (R i) ∧ h.used p := by
    intro j p hj hpj
    rw [hR j hj] at hpj
    exact ⟨fun hpi => hj (hp.apart j i p hpj hpi), hp.used j p hpj⟩
  have hfresh : ∀ j p, j ≠ i → p ∈ R' j → p ∉ R' i := by
    intro j p hj hpj hpi
    obtain ⟨hout, hu⟩ := hother j p hj hpj
    exact (he.grown p hpi).elim hout fun hn => hn hu
  refine ⟨fun j k p hpj hpk => ?_, fun j p hpj => ?_, fun j => ?_⟩
  · by_cases hj : j = i
    · by_cases hk : k = i
      · rw [hj, hk]
      · exact absurd (hj ▸ hpj) (hfresh k p hk hpk)
    · by_cases hk : k = i
      · exact absurd (hk ▸ hpk) (hfresh j p hj hpj)
      · rw [hR j hj] at hpj
        rw [hR k hk] at hpk
        exact hp.apart j k p hpj hpk
  · by_cases hj : j = i
    · subst hj
      exact he.live p hpj
    · obtain ⟨hout, hu⟩ := hother j p hj hpj
      exact he.keeps.used p hout hu
  · by_cases hj : j = i
    · subst hj
      exact hi
    · rw [hφ j hj]
      refine hon j h h' (hp.used j) (he.keeps.mono fun p hpj => ?_) (hp.holds j)
      rw [← hR j hj] at hpj
      exact (hother j p hj hpj).1

end Parts

end Heap

end JasonDb.Lib
