import JasonDb.Lib.Safe

namespace JasonDb.Lib

namespace Prog

variable {σ α β : Type} {φ : σ → σ}

-- Every atomic action does the same to a state and to its image.
def Commutes (φ : σ → σ) : Prog σ α → Prop
  | .ret _ => True
  | .act step next => (∀ s, step (φ s) = ((step s).1, φ (step s).2)) ∧ ∀ b, (next b).Commutes φ

theorem Commutes.bind {m : Prog σ α} {f : α → Prog σ β} (h : m.Commutes φ)
    (hf : ∀ a, (f a).Commutes φ) : (m.bind f).Commutes φ := by
  induction m with
  | ret value => exact hf value
  | act step next ih => exact ⟨h.1, fun b => ih b (h.2 b)⟩

theorem Commutes.run {m : Prog σ α} (h : m.Commutes φ) (s : σ) :
    m.run (φ s) = ((m.run s).1, φ (m.run s).2) := by
  induction m generalizing s with
  | ret value => rfl
  | act step next ih =>
    simp only [Prog.run]
    rw [h.1 s]
    exact ih _ (h.2 _) _

end Prog

namespace Proc

variable {σ ℓ ℓ' ε α β : Type} {φ : σ → σ} {J : σ → Prop} {I : ℓ → Prop}

def Commutes (φ : σ → σ) (m : Proc σ ℓ ε α) : Prop := ∀ l, (m l).Commutes φ

theorem commutes_pure (a : α) : Commutes φ (pure a : Proc σ ℓ ε α) := fun _ => trivial

theorem commutes_fail (e : ε) : Commutes φ (fail e : Proc σ ℓ ε α) := fun _ => trivial

theorem commutes_ofExcept (r : Except ε α) : Commutes φ (ofExcept r : Proc σ ℓ ε α) := by
  cases r with
  | ok a => exact commutes_pure a
  | error e => exact commutes_fail e

theorem commutes_getLocal : Commutes φ (getLocal : Proc σ ℓ ε ℓ) := fun _ => trivial

theorem commutes_modifyLocal (f : ℓ → ℓ) : Commutes φ (modifyLocal f : Proc σ ℓ ε Unit) :=
  fun _ => trivial

theorem commutes_atomic {f : σ → β × σ} (h : ∀ s, f (φ s) = ((f s).1, φ (f s).2)) :
    Commutes φ (atomic f : Proc σ ℓ ε β) := fun _ => ⟨h, fun _ => trivial⟩

theorem commutes_atomicE {f : σ → Except ε β × σ} (h : ∀ s, f (φ s) = ((f s).1, φ (f s).2)) :
    Commutes φ (atomicE f : Proc σ ℓ ε β) := fun _ => ⟨h, fun _ => trivial⟩

theorem Commutes.bind {m : Proc σ ℓ ε α} {f : α → Proc σ ℓ ε β} (h : Commutes φ m)
    (hf : ∀ a, Commutes φ (f a)) : Commutes φ (m >>= f) := by
  intro l
  refine (h l).bind ?_
  rintro ⟨r, l'⟩
  cases r with
  | ok a => exact hf a l'
  | error e => trivial

theorem Commutes.attempt {m : Proc σ ℓ ε α} (h : Commutes φ m) : Commutes φ (attempt m) :=
  fun l => (h l).bind fun _ => trivial

theorem Commutes.zoom {get : ℓ → ℓ'} {put : ℓ' → ℓ → ℓ} {m : Proc σ ℓ' ε α} (h : Commutes φ m) :
    Commutes φ (zoom get put m) := fun l => (h (get l)).bind fun _ => trivial

theorem Commutes.within {init : ℓ'} {m : Proc σ ℓ' ε α} (h : Commutes φ m) :
    Commutes φ (within init m : Proc σ ℓ ε (α × ℓ')) := fun _ => (h init).bind fun _ => trivial

theorem Commutes.exec {m : Proc σ ℓ ε α} (h : Commutes φ m) {l l' : ℓ} {s s' : σ} {r : Except ε α}
    (he : exec m l s = (r, l', s')) : exec m l (φ s) = (r, l', φ s') := by
  unfold Proc.exec at he ⊢
  rw [(h l).run s]
  rcases hrun : (m l).run s with ⟨⟨r₁, l₁⟩, s₁⟩
  rw [hrun] at he
  obtain ⟨rfl, rfl, rfl⟩ : r₁ = r ∧ l₁ = l' ∧ s₁ = s' := by simpa using he
  rfl

-- From states with `J` the computation does the same on the image whenever it succeeds.
def Mirrors (φ : σ → σ) (J : σ → Prop) (m : Proc σ ℓ ε α) : Prop :=
  ∀ l s a l' s', J s → exec m l s = (.ok a, l', s') → exec m l (φ s) = (.ok a, l', φ s')

theorem Commutes.mirrors {m : Proc σ ℓ ε α} (h : Commutes φ m) : Mirrors φ J m :=
  fun _ _ _ _ _ _ he => h.exec he

-- A computation that never succeeds.
theorem mirrors_of_never {m : Proc σ ℓ ε α} (h : Safe J (fun _ => True) (fun _ => False) m) :
    Mirrors φ J m := by
  intro l s a l' s' hs he
  obtain ⟨-, -, hnever⟩ := h.exec he trivial hs
  exact absurd rfl (hnever a)

theorem Mirrors.bind {Q : α → Prop} {m : Proc σ ℓ ε α} {f : α → Proc σ ℓ ε β} (h : Mirrors φ J m)
    (hm : Safe J (fun _ => True) Q m) (hf : ∀ a, Q a → Mirrors φ J (f a)) : Mirrors φ J (m >>= f) := by
  intro l s b l' s' hs he
  rcases exec_bind_cases he with ⟨e, -, hr⟩ | ⟨a, l₁, s₁, hfirst, hrest⟩
  · cases hr
  · obtain ⟨hs₁, -, hQ⟩ := hm.exec hfirst trivial hs
    rw [exec_bind_ok (h l s a l₁ s₁ hs hfirst)]
    exact hf a (hQ a rfl) l₁ s₁ b l' s' hs₁ hrest

end Proc

end JasonDb.Lib
