import JasonDb.Lib.Prog

namespace JasonDb.Lib

namespace Prog

variable {σ α β : Type} {J : σ → Prop} {P P' : α → Prop} {Q : β → Prop}

-- Every action of the program keeps `J`, in whatever state with `J` it is taken, and what the
-- program returns has `P`. Other programs may run in between as long as they keep `J` too.
def Safe (J : σ → Prop) (P : α → Prop) : Prog σ α → Prop
  | .ret value => P value
  | .act step next => ∀ s, J s → J (step s).2 ∧ (next (step s).1).Safe J P

theorem Safe.mono {m : Prog σ α} (h : m.Safe J P) (hP : ∀ a, P a → P' a) : m.Safe J P' := by
  induction m with
  | ret value => exact hP value h
  | act step next ih =>
    intro s hs
    obtain ⟨hJ, hnext⟩ := h s hs
    exact ⟨hJ, ih _ hnext⟩

theorem Safe.bind {m : Prog σ α} {f : α → Prog σ β} (h : m.Safe J P)
    (hf : ∀ a, P a → (f a).Safe J Q) : (m.bind f).Safe J Q := by
  induction m with
  | ret value => exact hf value h
  | act step next ih =>
    intro s hs
    obtain ⟨hJ, hnext⟩ := h s hs
    exact ⟨hJ, ih _ hnext⟩

theorem Safe.run {m : Prog σ α} (h : m.Safe J P) {s : σ} (hs : J s) :
    P (m.run s).1 ∧ J (m.run s).2 := by
  induction m generalizing s with
  | ret value => exact ⟨h, hs⟩
  | act step next ih =>
    obtain ⟨hJ, hnext⟩ := h s hs
    exact ih _ hnext hJ

theorem Safe.step? {m next : Prog σ α} {s t : σ} (h : m.Safe J P) (hs : J s)
    (hstep : m.step? s = some (next, t)) : J t ∧ next.Safe J P := by
  cases m with
  | ret value => simp [Prog.step?] at hstep
  | act step rest =>
    simp only [Prog.step?, Option.some.injEq, Prod.mk.injEq] at hstep
    obtain ⟨rfl, rfl⟩ := hstep
    exact h s hs

end Prog

namespace Proc

variable {σ ℓ ℓ' ε α β : Type} {J : σ → Prop} {I : ℓ → Prop} {I' : ℓ' → Prop}
  {Q Q' : α → Prop} {Q₂ : β → Prop}

-- The local state keeps `I` on success and on failure, and the value of a success has `Q`.
def Safe (J : σ → Prop) (I : ℓ → Prop) (Q : α → Prop) (m : Proc σ ℓ ε α) : Prop :=
  ∀ l, I l → (m l).Safe J fun r => I r.2 ∧ ∀ a, r.1 = .ok a → Q a

theorem Safe.mono {m : Proc σ ℓ ε α} (h : Safe J I Q m) (hQ : ∀ a, Q a → Q' a) : Safe J I Q' m :=
  fun l hl => (h l hl).mono fun _ hr => ⟨hr.1, fun a ha => hQ a (hr.2 a ha)⟩

theorem safe_pure {a : α} (h : Q a) : Safe J I Q (pure a : Proc σ ℓ ε α) := by
  intro l hl
  refine ⟨hl, ?_⟩
  rintro b ⟨⟩
  exact h

theorem safe_fail (e : ε) : Safe J I Q (fail e : Proc σ ℓ ε α) := by
  intro l hl
  refine ⟨hl, ?_⟩
  rintro b ⟨⟩

theorem safe_ofExcept {r : Except ε α} (h : ∀ a, r = .ok a → Q a) :
    Safe J I Q (ofExcept r : Proc σ ℓ ε α) := by
  cases r with
  | ok a => exact safe_pure (h a rfl)
  | error e => exact safe_fail e

theorem safe_getLocal : Safe J I I (getLocal : Proc σ ℓ ε ℓ) := by
  intro l hl
  refine ⟨hl, ?_⟩
  rintro b ⟨⟩
  exact hl

theorem safe_modifyLocal {f : ℓ → ℓ} (h : ∀ l, I l → I (f l)) :
    Safe J I (fun _ => True) (modifyLocal f : Proc σ ℓ ε Unit) := by
  intro l hl
  exact ⟨h l hl, fun _ _ => trivial⟩

theorem safe_atomic {f : σ → α × σ} (h : ∀ s, J s → J (f s).2 ∧ Q (f s).1) :
    Safe J I Q (atomic f : Proc σ ℓ ε α) := by
  intro l hl s hs
  obtain ⟨hJ, hQ⟩ := h s hs
  refine ⟨hJ, hl, ?_⟩
  rintro b ⟨⟩
  exact hQ

theorem safe_atomicE {f : σ → Except ε α × σ}
    (h : ∀ s, J s → J (f s).2 ∧ ∀ a, (f s).1 = .ok a → Q a) :
    Safe J I Q (atomicE f : Proc σ ℓ ε α) := by
  intro l hl s hs
  obtain ⟨hJ, hQ⟩ := h s hs
  exact ⟨hJ, hl, hQ⟩

theorem Safe.bind {m : Proc σ ℓ ε α} {f : α → Proc σ ℓ ε β} (h : Safe J I Q m)
    (hf : ∀ a, Q a → Safe J I Q₂ (f a)) : Safe J I Q₂ (m >>= f) := by
  intro l hl
  refine (h l hl).bind ?_
  rintro ⟨r, l'⟩ ⟨hl', hr⟩
  cases r with
  | ok a => exact hf a (hr a rfl) l' hl'
  | error e => exact ⟨hl', by simp⟩

theorem Safe.attempt {m : Proc σ ℓ ε α} (h : Safe J I Q m) :
    Safe J I (fun r => ∀ a, r = .ok a → Q a) (attempt m) := by
  intro l hl
  refine (h l hl).bind ?_
  rintro ⟨r, l'⟩ ⟨hl', hr⟩
  refine ⟨hl', ?_⟩
  rintro _ ⟨⟩
  exact hr

theorem Safe.zoom {get : ℓ → ℓ'} {put : ℓ' → ℓ → ℓ} {m : Proc σ ℓ' ε α} (h : Safe J I' Q m)
    (hget : ∀ l, I l → I' (get l)) (hput : ∀ l l', I l → I' l' → I (put l' l)) :
    Safe J I Q (zoom get put m) := by
  intro l hl
  refine (h (get l) (hget l hl)).bind ?_
  rintro ⟨r, l'⟩ ⟨hl', hr⟩
  exact ⟨hput l l' hl hl', hr⟩

theorem Safe.within {init : ℓ'} {m : Proc σ ℓ' ε α} (h : Safe J I' Q m) (hinit : I' init) :
    Safe J I (fun r => Q r.1 ∧ I' r.2) (within init m : Proc σ ℓ ε (α × ℓ')) := by
  intro l hl
  refine (h init hinit).bind ?_
  rintro ⟨r, l'⟩ ⟨hl', hr⟩
  refine ⟨hl, ?_⟩
  cases r with
  | error e => simp [Except.map]
  | ok a =>
    rintro _ ⟨⟩
    exact ⟨hr a rfl, hl'⟩

theorem safe_forEach {f : α → Proc σ ℓ ε Unit} (items : List α)
    (h : ∀ a ∈ items, Safe J I (fun _ => True) (f a)) :
    Safe J I (fun _ => True) (forEach f items) := by
  induction items with
  | nil => exact safe_pure trivial
  | cons a rest ih =>
    refine (h a (by simp)).bind fun _ _ => ih ?_
    intro b hb
    exact h b (by simp [hb])

theorem Safe.exec {m : Proc σ ℓ ε α} (h : Safe J I Q m) {l l' : ℓ} {s s' : σ} {r : Except ε α}
    (he : exec m l s = (r, l', s')) (hl : I l) (hs : J s) :
    J s' ∧ I l' ∧ ∀ a, r = .ok a → Q a := by
  obtain ⟨⟨hl', hr⟩, hs'⟩ := (h l hl).run hs
  unfold Proc.exec at he
  rcases hrun : (m l).run s with ⟨⟨r₁, l₁⟩, s₁⟩
  rw [hrun] at he hl' hr hs'
  obtain ⟨rfl, rfl, rfl⟩ : r₁ = r ∧ l₁ = l' ∧ s₁ = s' := by simpa using he
  exact ⟨hs', hl', hr⟩

end Proc

end JasonDb.Lib
