import Mathlib.Logic.Basic

namespace JasonDb.Lib

-- A program over a shared state as a tree of atomic actions. Each action sees
-- and updates the whole shared state at once; what it returns selects the rest.
inductive Prog (σ α : Type) : Type 1 where
  | ret (value : α)
  | act {β : Type} (step : σ → β × σ) (next : β → Prog σ α)

namespace Prog

variable {σ α β γ : Type}

protected def bind : Prog σ α → (α → Prog σ β) → Prog σ β
  | .ret value, f => f value
  | .act step next, f => .act step fun b => (next b).bind f

-- The program alone on the shared state, from its first action to its last.
def run : Prog σ α → σ → α × σ
  | .ret value, s => (value, s)
  | .act step next, s => (next (step s).1).run (step s).2

-- One atomic action of the program, if it has one left.
def step? : Prog σ α → σ → Option (Prog σ α × σ)
  | .ret _, _ => none
  | .act step next, s => some (next (step s).1, (step s).2)

theorem run_bind (m : Prog σ α) (f : α → Prog σ β) (s : σ) :
    (m.bind f).run s = (f (m.run s).1).run (m.run s).2 := by
  induction m generalizing s with
  | ret value => rfl
  | act step next ih => exact ih _ _

-- How many actions the program takes alone.
def cost : Prog σ α → σ → Nat
  | .ret _, _ => 0
  | .act step next, s => (next (step s).1).cost (step s).2 + 1

theorem cost_bind (m : Prog σ α) (f : α → Prog σ β) (s : σ) :
    (m.bind f).cost s = m.cost s + (f (m.run s).1).cost (m.run s).2 := by
  induction m generalizing s with
  | ret value => exact (Nat.zero_add _).symm
  | act step next ih =>
    have hrest := ih (step s).1 (step s).2
    simp only [Prog.bind, cost, run]
    omega

end Prog

-- Thread code: it owns a local state of type `ℓ` and may fail with an error of
-- type `ε`. The local state survives a failure, as fields behind `&mut` do.
def Proc (σ ℓ ε α : Type) : Type 1 := ℓ → Prog σ (Except ε α × ℓ)

-- A property of the value of a success can be checked by running the computation.
instance decidableExistsOk {ε α : Type} (r : Except ε α) (P : α → Prop) [DecidablePred P] :
    Decidable (∃ a, r = .ok a ∧ P a) :=
  match r with
  | .ok a => decidable_of_iff (P a) (by simp)
  | .error _ => isFalse (by simp)

namespace Proc

variable {σ ℓ ℓ' ε α β : Type}

protected def pure (a : α) : Proc σ ℓ ε α := fun l => .ret (.ok a, l)

protected def bind (m : Proc σ ℓ ε α) (f : α → Proc σ ℓ ε β) : Proc σ ℓ ε β := fun l =>
  (m l).bind fun
    | (.ok a, l') => f a l'
    | (.error e, l') => .ret (.error e, l')

instance : Monad (Proc σ ℓ ε) where
  pure := Proc.pure
  bind := Proc.bind

def fail (e : ε) : Proc σ ℓ ε α := fun l => .ret (.error e, l)

def ofExcept : Except ε α → Proc σ ℓ ε α
  | .ok a => Proc.pure a
  | .error e => fail e

-- The shared state, one atomic action.
def atomic (f : σ → β × σ) : Proc σ ℓ ε β := fun l => .act f fun b => .ret (.ok b, l)

-- An atomic action that may fail.
def atomicE (f : σ → Except ε β × σ) : Proc σ ℓ ε β := fun l => .act f fun b => .ret (b, l)

def getLocal : Proc σ ℓ ε ℓ := fun l => .ret (.ok l, l)

def modifyLocal (f : ℓ → ℓ) : Proc σ ℓ ε Unit := fun l => .ret (.ok (), f l)

-- The result of a computation as a value: a failure is caught, not passed on.
def attempt (m : Proc σ ℓ ε α) : Proc σ ℓ ε (Except ε α) := fun l =>
  (m l).bind fun (r, l') => .ret (.ok r, l')

-- Code that works on a part of the local state.
def zoom (get : ℓ → ℓ') (put : ℓ' → ℓ → ℓ) (m : Proc σ ℓ' ε α) : Proc σ ℓ ε α := fun l =>
  (m (get l)).bind fun (r, l') => .ret (r, put l' l)

-- Code with a local state of its own, which starts as `init` and is returned.
def within (init : ℓ') (m : Proc σ ℓ' ε α) : Proc σ ℓ ε (α × ℓ') := fun l =>
  (m init).bind fun (r, l') => .ret (r.map fun a => (a, l'), l)

-- `for a in items`, up to the first failure.
def forEach (f : α → Proc σ ℓ ε Unit) : List α → Proc σ ℓ ε Unit
  | [] => Proc.pure ()
  | a :: rest => Proc.bind (f a) fun _ => forEach f rest

-- The outcome of a computation that runs alone: its result, the local state
-- and the shared state it leaves.
def exec (m : Proc σ ℓ ε α) (l : ℓ) (s : σ) : Except ε α × ℓ × σ :=
  match (m l).run s with
  | ((r, l'), s') => (r, l', s')

theorem exec_pure (a : α) (l : ℓ) (s : σ) :
    exec (pure a : Proc σ ℓ ε α) l s = (.ok a, l, s) := rfl

theorem exec_fail (e : ε) (l : ℓ) (s : σ) :
    exec (fail e : Proc σ ℓ ε α) l s = (.error e, l, s) := rfl

theorem exec_ofExcept_ok (a : α) (l : ℓ) (s : σ) :
    exec (ofExcept (.ok a) : Proc σ ℓ ε α) l s = (.ok a, l, s) := rfl

theorem exec_getLocal (l : ℓ) (s : σ) :
    exec (getLocal : Proc σ ℓ ε ℓ) l s = (.ok l, l, s) := rfl

theorem exec_modifyLocal (f : ℓ → ℓ) (l : ℓ) (s : σ) :
    exec (modifyLocal f : Proc σ ℓ ε Unit) l s = (.ok (), f l, s) := rfl

theorem exec_atomic (f : σ → β × σ) (l : ℓ) (s : σ) :
    exec (atomic f : Proc σ ℓ ε β) l s = (.ok (f s).1, l, (f s).2) := rfl

theorem exec_atomicE (f : σ → Except ε β × σ) (l : ℓ) (s : σ) :
    exec (atomicE f : Proc σ ℓ ε β) l s = ((f s).1, l, (f s).2) := rfl

theorem exec_atomicE_inv {f : σ → Except ε β × σ} {l l' : ℓ} {s s' : σ} {r : Except ε β}
    (h : exec (atomicE f : Proc σ ℓ ε β) l s = (r, l', s')) : f s = (r, s') ∧ l = l' := by
  rw [exec_atomicE, Prod.mk.injEq, Prod.mk.injEq] at h
  exact ⟨Prod.ext h.1 h.2.2, h.2.1⟩

theorem exec_bind (m : Proc σ ℓ ε α) (f : α → Proc σ ℓ ε β) (l : ℓ) (s : σ) :
    exec (m >>= f) l s =
      match exec m l s with
      | (.ok a, l', s') => exec (f a) l' s'
      | (.error e, l', s') => (.error e, l', s') := by
  change exec (Proc.bind m f) l s = _
  unfold exec Proc.bind
  rw [Prog.run_bind]
  rcases (m l).run s with ⟨⟨r, l'⟩, s'⟩
  cases r <;> rfl

theorem exec_bind_ok {m : Proc σ ℓ ε α} {f : α → Proc σ ℓ ε β} {l l' : ℓ} {s s' : σ} {a : α}
    (h : exec m l s = (.ok a, l', s')) : exec (m >>= f) l s = exec (f a) l' s' := by
  rw [exec_bind, h]

theorem exec_bind_error {m : Proc σ ℓ ε α} {f : α → Proc σ ℓ ε β} {l l' : ℓ} {s s' : σ} {e : ε}
    (h : exec m l s = (.error e, l', s')) : exec (m >>= f) l s = (.error e, l', s') := by
  rw [exec_bind, h]

theorem exec_bind_assoc {γ : Type} (m : Proc σ ℓ ε α) (f : α → Proc σ ℓ ε β)
    (g : β → Proc σ ℓ ε γ) (l : ℓ) (s : σ) :
    exec ((m >>= f) >>= g) l s = exec (m >>= fun a => f a >>= g) l s := by
  rw [exec_bind, exec_bind m f, exec_bind m]
  rcases exec m l s with ⟨r, l', s'⟩
  cases r with
  | error e => rfl
  | ok a => exact (exec_bind (f a) g l' s').symm

-- A sequence fails in its first part or goes on from where that ended.
theorem exec_bind_cases {m : Proc σ ℓ ε α} {f : α → Proc σ ℓ ε β} {l l' : ℓ} {s s' : σ}
    {r : Except ε β} (h : exec (m >>= f) l s = (r, l', s')) :
    (∃ e, exec m l s = (.error e, l', s') ∧ r = .error e) ∨
      ∃ a l₁ s₁, exec m l s = (.ok a, l₁, s₁) ∧ exec (f a) l₁ s₁ = (r, l', s') := by
  rw [exec_bind] at h
  rcases hm : exec m l s with ⟨r₁, l₁, s₁⟩
  rw [hm] at h
  cases r₁ with
  | error e =>
    obtain ⟨rfl, rfl, rfl⟩ : .error e = r ∧ l₁ = l' ∧ s₁ = s' := by simpa using h
    exact Or.inl ⟨e, rfl, rfl⟩
  | ok a => exact Or.inr ⟨a, l₁, s₁, rfl, h⟩

theorem exec_attempt (m : Proc σ ℓ ε α) (l : ℓ) (s : σ) :
    exec (attempt m) l s = (.ok (exec m l s).1, (exec m l s).2.1, (exec m l s).2.2) := by
  unfold exec attempt
  rw [Prog.run_bind]
  rcases (m l).run s with ⟨⟨r, l'⟩, s'⟩
  rfl

-- How many atomic actions a computation takes when it runs alone.
def cost (m : Proc σ ℓ ε α) (l : ℓ) (s : σ) : Nat := (m l).cost s

theorem cost_ofExcept_bind (a : α) (f : α → Proc σ ℓ ε β) (l : ℓ) (s : σ) :
    cost (ofExcept (.ok a) >>= f) l s = cost (f a) l s := rfl

theorem cost_bind_le {m : Proc σ ℓ ε α} {f : α → Proc σ ℓ ε β} {l : ℓ} {s : σ} {first rest : Nat}
    (hfirst : cost m l s ≤ first)
    (hrest : ∀ a l' s', exec m l s = (.ok a, l', s') → cost (f a) l' s' ≤ rest) :
    cost (m >>= f) l s ≤ first + rest := by
  change cost (Proc.bind m f) l s ≤ _
  unfold cost Proc.bind
  rw [Prog.cost_bind]
  unfold exec at hrest
  unfold cost at hfirst
  rcases hm : (m l).run s with ⟨⟨r, l'⟩, s'⟩
  rw [hm] at hrest
  cases r with
  | error e => exact Nat.le_trans hfirst (Nat.le_add_right first rest)
  | ok a => exact Nat.add_le_add hfirst (hrest a l' s' rfl)

theorem exec_zoom (get : ℓ → ℓ') (put : ℓ' → ℓ → ℓ) (m : Proc σ ℓ' ε α) (l : ℓ) (s : σ) :
    exec (zoom get put m) l s =
      ((exec m (get l) s).1, put (exec m (get l) s).2.1 l, (exec m (get l) s).2.2) := by
  unfold exec zoom
  rw [Prog.run_bind]
  rcases (m (get l)).run s with ⟨⟨r, l'⟩, s'⟩
  rfl

theorem exec_within (init : ℓ') (m : Proc σ ℓ' ε α) (l : ℓ) (s : σ) :
    exec (within init m : Proc σ ℓ ε (α × ℓ')) l s =
      ((exec m init s).1.map fun a => (a, (exec m init s).2.1), l, (exec m init s).2.2) := by
  unfold exec within
  rw [Prog.run_bind]
  rcases (m init).run s with ⟨⟨r, l'⟩, s'⟩
  rfl

end Proc

end JasonDb.Lib
