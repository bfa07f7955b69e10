import JasonDb.Lib.Prog
import Mathlib.Logic.Relation

namespace JasonDb.Lib

namespace Prog

variable {σ α β : Type} {R R' : σ → σ → Prop}

-- Every atomic action of the program, whatever the actions before it returned and in whatever
-- state it is taken, is a step of `R`.
def Acts (R : σ → σ → Prop) : Prog σ α → Prop
  | .ret _ => True
  | .act step next => (∀ s, R s (step s).2) ∧ ∀ b, (next b).Acts R

theorem Acts.mono {m : Prog σ α} (h : m.Acts R) (hR : ∀ s s', R s s' → R' s s') : m.Acts R' := by
  induction m with
  | ret value => trivial
  | act step next ih => exact ⟨fun s => hR _ _ (h.1 s), fun b => ih b (h.2 b)⟩

theorem Acts.bind {m : Prog σ α} {f : α → Prog σ β} (h : m.Acts R) (hf : ∀ a, (f a).Acts R) :
    (m.bind f).Acts R := by
  induction m with
  | ret value => exact hf value
  | act step next ih => exact ⟨h.1, fun b => ih b (h.2 b)⟩

theorem Acts.run {m : Prog σ α} (h : m.Acts R) (s : σ) :
    Relation.ReflTransGen R s (m.run s).2 := by
  induction m generalizing s with
  | ret value => exact .refl
  | act step next ih => exact .head (h.1 s) (ih _ (h.2 _) _)

theorem Acts.step? {m next : Prog σ α} {s t : σ} (h : m.Acts R)
    (hs : m.step? s = some (next, t)) : R s t ∧ next.Acts R := by
  cases m with
  | ret value => simp [Prog.step?] at hs
  | act step rest =>
    simp only [Prog.step?, Option.some.injEq, Prod.mk.injEq] at hs
    obtain ⟨rfl, rfl⟩ := hs
    exact ⟨h.1 s, h.2 _⟩

end Prog

namespace Proc

variable {σ ℓ ℓ' ε α β γ : Type} {R R' : σ → σ → Prop}

def Acts (R : σ → σ → Prop) (m : Proc σ ℓ ε α) : Prop := ∀ l, (m l).Acts R

theorem Acts.mono {m : Proc σ ℓ ε α} (h : Acts R m) (hR : ∀ s s', R s s' → R' s s') :
    Acts R' m := fun l => (h l).mono hR

theorem acts_pure (a : α) : Acts R (pure a : Proc σ ℓ ε α) := fun _ => trivial

theorem acts_fail (e : ε) : Acts R (fail e : Proc σ ℓ ε α) := fun _ => trivial

theorem acts_ofExcept (r : Except ε α) : Acts R (ofExcept r : Proc σ ℓ ε α) := by
  cases r with
  | ok a => exact acts_pure a
  | error e => exact acts_fail e

theorem acts_getLocal : Acts R (getLocal : Proc σ ℓ ε ℓ) := fun _ => trivial

theorem acts_atomic {f : σ → β × σ} (h : ∀ s, R s (f s).2) :
    Acts R (atomic f : Proc σ ℓ ε β) := fun _ => ⟨h, fun _ => trivial⟩

theorem acts_atomicE {f : σ → Except ε β × σ} (h : ∀ s, R s (f s).2) :
    Acts R (atomicE f : Proc σ ℓ ε β) := fun _ => ⟨h, fun _ => trivial⟩

theorem Acts.bind {m : Proc σ ℓ ε α} {f : α → Proc σ ℓ ε β} (h : Acts R m)
    (hf : ∀ a, Acts R (f a)) : Acts R (m >>= f) := by
  intro l
  refine (h l).bind ?_
  rintro ⟨r, l'⟩
  cases r with
  | ok a => exact hf a l'
  | error e => trivial

theorem Acts.attempt {m : Proc σ ℓ ε α} (h : Acts R m) : Acts R (attempt m) :=
  fun l => (h l).bind fun _ => trivial

theorem Acts.zoom {get : ℓ → ℓ'} {put : ℓ' → ℓ → ℓ} {m : Proc σ ℓ' ε α} (h : Acts R m) :
    Acts R (zoom get put m) := fun l => (h (get l)).bind fun _ => trivial

theorem Acts.within {init : ℓ'} {m : Proc σ ℓ' ε α} (h : Acts R m) :
    Acts R (within init m : Proc σ ℓ ε (α × ℓ')) := fun _ => (h init).bind fun _ => trivial

theorem acts_forEach {f : α → Proc σ ℓ ε Unit} (items : List α) (h : ∀ a ∈ items, Acts R (f a)) :
    Acts R (forEach f items) := by
  induction items with
  | nil => exact acts_pure ()
  | cons a rest ih =>
    refine (h a (by simp)).bind fun _ => ih ?_
    intro b hb
    exact h b (by simp [hb])

theorem Acts.exec {m : Proc σ ℓ ε α} (h : Acts R m) (l : ℓ) (s : σ) :
    Relation.ReflTransGen R s (exec m l s).2.2 := (h l).run s

-- What no step changes is not changed by a run.
theorem Acts.keeps {m : Proc σ ℓ ε α} (h : Acts R m) (f : σ → γ)
    (hf : ∀ s s', R s s' → f s' = f s) (l : ℓ) (s : σ) : f (Proc.exec m l s).2.2 = f s := by
  have hrun := h.exec l s
  generalize (Proc.exec m l s).2.2 = s' at hrun
  induction hrun with
  | refl => rfl
  | tail _ hstep ih => rw [hf _ _ hstep, ih]

end Proc

end JasonDb.Lib
