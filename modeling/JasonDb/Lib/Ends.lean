import JasonDb.Lib.Safe

namespace JasonDb.Lib

namespace Proc

variable {σ ℓ ℓ' ε α β : Type} {J K : σ → Prop} {I : ℓ → Prop} {I' : ℓ' → Prop}
  {R : α → ℓ → σ → Prop} {R₂ : β → ℓ → σ → Prop} {Q Q' : α → Prop}

-- From `l` and `s` a computation that runs alone gets to states with `I` and `J`, and if it
-- succeeds, with `R`.
def EndsAt (J : σ → Prop) (I : ℓ → Prop) (R : α → ℓ → σ → Prop) (m : Proc σ ℓ ε α) (l : ℓ) (s : σ) :
    Prop :=
  ∀ r l' s', exec m l s = (r, l', s') → J s' ∧ I l' ∧ ∀ a, r = .ok a → R a l' s'

def Ends (J : σ → Prop) (I : ℓ → Prop) (R : α → ℓ → σ → Prop) (m : Proc σ ℓ ε α) : Prop :=
  ∀ l s, I l → J s → EndsAt J I R m l s

theorem Ends.mono {R' : α → ℓ → σ → Prop} {m : Proc σ ℓ ε α} (h : Ends J I R m)
    (hR : ∀ a l s, R a l s → R' a l s) : Ends J I R' m := by
  intro l s hl hs r l' s' he
  obtain ⟨hJ, hI, hok⟩ := h l s hl hs r l' s' he
  exact ⟨hJ, hI, fun a ha => hR a l' s' (hok a ha)⟩

theorem ends_fail (e : ε) : Ends J I R (fail e : Proc σ ℓ ε α) := by
  intro l s hl hs r l' s' he
  obtain ⟨rfl, rfl, rfl⟩ : .error e = r ∧ l = l' ∧ s = s' := by simpa [exec_fail] using he
  exact ⟨hs, hl, by simp⟩

-- What comes before the part that establishes the postcondition.
theorem Safe.ends_bind {m : Proc σ ℓ ε α} {f : α → Proc σ ℓ ε β} (h : Safe J I Q m)
    (hf : ∀ a, Q a → Ends J I R₂ (f a)) : Ends J I R₂ (m >>= f) := by
  intro l s hl hs r l' s' he
  rcases exec_bind_cases he with ⟨e, hm, rfl⟩ | ⟨a, l₁, s₁, hm, hrest⟩
  · obtain ⟨hJ, hI, -⟩ := h.exec hm hl hs
    exact ⟨hJ, hI, by simp⟩
  · obtain ⟨hJ, hI, hQ⟩ := h.exec hm hl hs
    exact hf a (hQ a rfl) l₁ s₁ hI hJ r l' s' hrest

-- What comes after it.
theorem Ends.bind {m : Proc σ ℓ ε α} {f : α → Proc σ ℓ ε β} (h : Ends J I R m)
    (hf : ∀ a l s, I l → J s → R a l s → EndsAt J I R₂ (f a) l s) : Ends J I R₂ (m >>= f) := by
  intro l s hl hs r l' s' he
  rcases exec_bind_cases he with ⟨e, hm, rfl⟩ | ⟨a, l₁, s₁, hm, hrest⟩
  · obtain ⟨hJ, hI, -⟩ := h l s hl hs _ _ _ hm
    exact ⟨hJ, hI, by simp⟩
  · obtain ⟨hJ, hI, hR⟩ := h l s hl hs _ _ _ hm
    exact hf a l₁ s₁ hI hJ (hR a rfl) r l' s' hrest

-- The same when what was established is about the local state and the rest keeps it.
theorem Ends.bind_local {I₂ : ℓ → Prop} {m : Proc σ ℓ ε α} {f : α → Proc σ ℓ ε β}
    (h : Ends J I (fun _ l _ => I₂ l) m) (hI : ∀ l, I₂ l → I l) (hf : ∀ a, Ends J I₂ R₂ (f a)) :
    Ends J I R₂ (m >>= f) := by
  refine h.bind fun a l s _ hs hl r l' s' he => ?_
  obtain ⟨hJ, hl', hok⟩ := hf a l s hl hs r l' s' he
  exact ⟨hJ, hI l' hl', hok⟩

theorem Safe.ends {m : Proc σ ℓ ε α} (h : Safe J I Q m) (hR : ∀ a l s, Q a → I l → J s → R a l s) :
    Ends J I R m := by
  intro l s hl hs r l' s' he
  obtain ⟨hJ, hI, hQ⟩ := h.exec he hl hs
  exact ⟨hJ, hI, fun a ha => hR a l' s' (hQ a ha) hI hJ⟩

-- A postcondition on the shared state that the rest keeps.
theorem Ends.bind_safe {m : Proc σ ℓ ε α} {f : α → Proc σ ℓ ε β} (h : Ends J I (fun _ _ => K) m)
    (hf : ∀ a, Safe (fun s => J s ∧ K s) I (fun _ => True) (f a)) : Ends J I (fun _ _ => K) (m >>= f) := by
  refine h.bind fun a l s hl hs hK r l' s' he => ?_
  obtain ⟨hJK, hI, -⟩ := (hf a).exec he hl ⟨hs, hK⟩
  exact ⟨hJK.1, hI, fun _ _ => hJK.2⟩

theorem Ends.zoom {get : ℓ → ℓ'} {put : ℓ' → ℓ → ℓ} {m : Proc σ ℓ' ε α}
    (h : Ends J I' (fun _ _ => K) m)
    (hget : ∀ l, I l → I' (get l)) (hput : ∀ l l', I l → I' l' → I (put l' l)) :
    Ends J I (fun _ _ => K) (zoom get put m) := by
  intro l s hl hs r l' s' he
  rw [exec_zoom] at he
  rcases hm : exec m (get l) s with ⟨r₁, l₁, s₁⟩
  rw [hm] at he
  obtain ⟨rfl, rfl, rfl⟩ : r₁ = r ∧ put l₁ l = l' ∧ s₁ = s' := by simpa using he
  obtain ⟨hJ, hI, hR⟩ := h _ _ (hget l hl) hs _ _ _ hm
  exact ⟨hJ, hput l l₁ hl hI, hR⟩

theorem Safe.and {m : Proc σ ℓ ε α} (h : Safe J I Q m) (h' : Safe J I Q' m) :
    Safe J I (fun a => Q a ∧ Q' a) m := by
  intro l hl
  have hl₁ := h l hl
  have hl₂ := h' l hl
  generalize m l = p at hl₁ hl₂
  induction p with
  | ret value => exact ⟨hl₁.1, fun a ha => ⟨hl₁.2 a ha, hl₂.2 a ha⟩⟩
  | act step next ih => exact fun s hs => ⟨(hl₁ s hs).1, ih _ (hl₁ s hs).2 (hl₂ s hs).2⟩

end Proc

end JasonDb.Lib
