import JasonDb.Lib.Safe

namespace JasonDb.Lib

namespace Prog

variable {σ α : Type} {J : σ → Prop} {P : α → Prop} {env : σ → σ → Prop}

-- What programs over one shared state can come to when their actions are taken in any order.
-- In between the rest of the system may change the state as `env` has it.
inductive Reaches (env : σ → σ → Prop) (start : List (Prog σ α)) (s : σ) :
    List (Prog σ α) → σ → Prop where
  | start : Reaches env start s start s
  | step {ms : List (Prog σ α)} {m m' : Prog σ α} {t t' : σ} {i : Nat} :
    Reaches env start s ms t → ms[i]? = some m → m.step? t = some (m', t') →
      Reaches env start s (ms.set i m') t'
  | other {ms : List (Prog σ α)} {t t' : σ} :
    Reaches env start s ms t → env t t' → Reaches env start s ms t'

-- What every program and the rest of the system keep holds throughout.
theorem Reaches.safe {start ms : List (Prog σ α)} {s t : σ} (h : Reaches env start s ms t)
    (hstart : ∀ m ∈ start, m.Safe J P) (henv : ∀ t t', J t → env t t' → J t') (hs : J s) :
    J t ∧ ∀ m ∈ ms, m.Safe J P := by
  induction h with
  | start => exact ⟨hs, hstart⟩
  | @step ms m m' t t' i _ hi hstep ih =>
    obtain ⟨ht, hms⟩ := ih
    obtain ⟨ht', hm'⟩ := (hms m (List.mem_of_getElem? hi)).step? ht hstep
    refine ⟨ht', fun k hk => ?_⟩
    rcases List.mem_or_eq_of_mem_set hk with hk | rfl
    · exact hms k hk
    · exact hm'
  | @other ms t t' _ htt' ih => exact ⟨henv t t' ih.1 htt', ih.2⟩

theorem Reaches.trans {start ms ms' : List (Prog σ α)} {s t u : σ}
    (h : Reaches env start s ms t) (h' : Reaches env ms t ms' u) : Reaches env start s ms' u := by
  induction h' with
  | start => exact h
  | step _ hi hstep ih => exact ih.step hi hstep
  | other _ henv ih => exact ih.other henv

-- A program alone comes to where it ends.
theorem reaches_run (m : Prog σ α) (s : σ) : Reaches env [m] s [.ret (m.run s).1] (m.run s).2 := by
  induction m generalizing s with
  | ret value => exact .start
  | act step next ih =>
    have hfirst : Reaches env [.act step next] s [next (step s).1] (step s).2 :=
      Reaches.step (i := 0) .start rfl rfl
    exact hfirst.trans (ih _ _)

theorem reaches_exec {ℓ ε β : Type} {m : Proc σ ℓ ε β} {l l' : ℓ} {s s' : σ} {r : Except ε β}
    (h : Proc.exec m l s = (r, l', s')) : Reaches env [m l] s [.ret (r, l')] s' := by
  have hrun := @reaches_run σ _ env (m l) s
  unfold Proc.exec at h
  rcases hm : (m l).run s with ⟨⟨r₁, l₁⟩, s₁⟩
  rw [hm] at h hrun
  obtain ⟨rfl, rfl, rfl⟩ : r₁ = r ∧ l₁ = l' ∧ s₁ = s' := by simpa using h
  exact hrun

end Prog

end JasonDb.Lib
