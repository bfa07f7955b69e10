import JasonDb.Lib.Prog

namespace JasonDb.Lib.Proc

variable {σ ℓ ε α β : Type} {l : ℓ} {s : σ}

-- Sequences with the same first part are the same if they go on the same way from there.
theorem exec_bind_congr {m m' : Proc σ ℓ ε α} {f f' : α → Proc σ ℓ ε β}
    (h : exec m l s = exec m' l s) (hf : ∀ a l' s', exec m' l s = (.ok a, l', s') →
      exec (f a) l' s' = exec (f' a) l' s') : exec (m >>= f) l s = exec (m' >>= f') l s := by
  rw [exec_bind, exec_bind m', h]
  rcases hm : exec m' l s with ⟨r, l', s'⟩
  cases r with
  | error e => rfl
  | ok a => exact hf a l' s' hm

theorem exec_bind_pure (m : Proc σ ℓ ε α) (l : ℓ) (s : σ) :
    exec (m >>= fun a => pure a) l s = exec m l s := by
  rw [exec_bind]
  rcases exec m l s with ⟨r, l', s'⟩
  cases r <;> rfl

theorem exec_forEach_cons (f : α → Proc σ ℓ ε Unit) (a : α) (rest : List α) (l : ℓ) (s : σ) :
    exec (forEach f (a :: rest)) l s = exec (f a >>= fun _ => forEach f rest) l s := rfl

theorem exec_forEach_append (f : α → Proc σ ℓ ε Unit) (front back : List α) (l : ℓ) (s : σ) :
    exec (forEach f (front ++ back)) l s =
      exec (forEach f front >>= fun _ => forEach f back) l s := by
  induction front generalizing l s with
  | nil => rfl
  | cons a rest ih =>
    rw [List.cons_append, exec_forEach_cons]
    refine (exec_bind_congr rfl fun _ l' s' _ => ih l' s').trans ?_
    exact (exec_bind_assoc (f a) (fun _ => forEach f rest) (fun _ => forEach f back) l s).symm

-- A success leaves a state in which `J` holds, if it began in one.
def Keeps (J : ℓ → σ → Prop) (m : Proc σ ℓ ε α) : Prop :=
  ∀ l s a l' s', J l s → exec m l s = (.ok a, l', s') → J l' s'

theorem keeps_forEach {J : ℓ → σ → Prop} {f : α → Proc σ ℓ ε Unit} {items : List α}
    (h : ∀ a ∈ items, Keeps J (f a)) : Keeps J (forEach f items) := by
  induction items with
  | nil =>
    rintro l s _ l' s' hJ ⟨⟩
    exact hJ
  | cons a rest ih =>
    intro l s u l' s' hJ he
    rcases exec_bind_cases (m := f a) he with ⟨_, _, hr⟩ | ⟨v, l₁, s₁, ha, hrest⟩
    · cases hr
    · exact ih (fun b hb => h b (List.mem_cons_of_mem a hb)) l₁ s₁ u l' s'
        (h a List.mem_cons_self l s v l₁ s₁ hJ ha) hrest

-- A loop whose rounds succeed and keep `J` does so as a whole.
theorem exec_forEach_ok {J : ℓ → σ → Prop} {f : α → Proc σ ℓ ε Unit} {items : List α}
    (h : ∀ a ∈ items, ∀ l s, J l s → ∃ l' s', exec (f a) l s = (.ok (), l', s') ∧ J l' s')
    (hJ : J l s) : ∃ l' s', exec (forEach f items) l s = (.ok (), l', s') ∧ J l' s' := by
  induction items generalizing l s with
  | nil => exact ⟨l, s, rfl, hJ⟩
  | cons a rest ih =>
    obtain ⟨l₁, s₁, ha, hJ₁⟩ := h a List.mem_cons_self l s hJ
    obtain ⟨l', s', hrest, hJ'⟩ := ih (fun b hb => h b (List.mem_cons_of_mem a hb)) hJ₁
    refine ⟨l', s', ?_, hJ'⟩
    rw [exec_forEach_cons, exec_bind_ok ha]
    exact hrest

end JasonDb.Lib.Proc
