import JasonDb.Checked

namespace JasonDb

structure TransactionConfig where
  maxRetries : UInt64
  retryBackoffBaseMs : UInt64
  maxRetryBackoffMs : UInt64

namespace TransactionConfig

def default : TransactionConfig := ⟨3, 1, 100⟩

-- The delay after a conflict of the attempt with this number.
def backoffMs (checks : Bool) (config : TransactionConfig) (attempt : Nat) : Except Error UInt64 := do
  let factor ← shlU64 checks 1 attempt
  let backoffMs ← mulU64 checks config.retryBackoffBaseMs factor
  pure (min backoffMs config.maxRetryBackoffMs)

end TransactionConfig

-- What the three calls of one attempt return. A closure that fails is rolled
-- back, and its error is the caller's.
structure Attempt (ρ : Type) where
  begin : Except Error Unit
  closure : Except Error ρ
  commit : Except Error Unit

section Run

variable {ρ : Type}

def Attempt.Conflicts (attempt : Attempt ρ) : Prop :=
  attempt.begin = .ok () ∧ (∃ result, attempt.closure = .ok result) ∧
    attempt.commit = .error .txConflict

-- The attempts from one on, with the delays computed between them.
def runAttempts (checks : Bool) (config : TransactionConfig) (attempts : Nat → Attempt ρ) :
    Nat → Nat → Option Error → Except Error ρ × List UInt64
  | 0, _, lastErr => (.error (lastErr.getD .txConflict), [])
  | fuel + 1, attempt, _ =>
    match (attempts attempt).begin with
    | .error e => (.error e, [])
    | .ok () =>
      match (attempts attempt).closure with
      | .error e => (.error e, [])
      | .ok result =>
        match (attempts attempt).commit with
        | .ok () => (.ok result, [])
        | .error e =>
          if e ≠ .txConflict then (.error e, [])
          else if attempt < config.maxRetries.toNat then
            match config.backoffMs checks attempt with
            | .error panic => (.error panic, [])
            | .ok delay =>
              let (result, delays) := runAttempts checks config attempts fuel (attempt + 1) (some e)
              (result, delay :: delays)
          else runAttempts checks config attempts fuel (attempt + 1) (some e)

-- `run_transaction`, given what the calls of each attempt return.
def runTransaction (checks : Bool) (config : TransactionConfig) (attempts : Nat → Attempt ρ) :
    Except Error ρ × List UInt64 :=
  runAttempts checks config attempts (config.maxRetries.toNat + 1) 0 none

-- The attempt ends in a conflict, as do all before it, and another one is left.
def Retried (config : TransactionConfig) (attempts : Nat → Attempt ρ) (k : Nat) : Prop :=
  k < config.maxRetries.toNat ∧ ∀ j, j ≤ k → (attempts j).Conflicts

end Run

namespace TransactionConfig

def exactBackoff (config : TransactionConfig) (attempt : Nat) : Nat :=
  min (config.retryBackoffBaseMs.toNat * 2 ^ attempt) config.maxRetryBackoffMs.toNat

-- Neither the shift nor the product leaves its 64 bits.
def Fits (config : TransactionConfig) (attempt : Nat) : Prop :=
  attempt < 64 ∧ config.retryBackoffBaseMs.toNat * 2 ^ attempt < 2 ^ 64

section Backoff

variable {config : TransactionConfig} {attempt : Nat}

theorem backoffMs_of_fits (h : config.Fits attempt) (checks : Bool) :
    ∃ delay, config.backoffMs checks attempt = .ok delay ∧ delay.toNat = config.exactBackoff attempt := by
  obtain ⟨hshift, hfactor⟩ := shlU64_one_small checks h.1
  obtain ⟨hmul, hproduct⟩ := mulU64_small (a := config.retryBackoffBaseMs) checks
    (by rw [hfactor]; exact h.2)
  refine ⟨min (config.retryBackoffBaseMs * 1 <<< UInt64.ofNat attempt) config.maxRetryBackoffMs, ?_, ?_⟩
  · simp only [backoffMs, hshift, hmul, bind, Except.bind, pure, Except.pure]
  · rw [exactBackoff, ← hfactor, ← hproduct]
    exact UInt64.toNat_min _ _

-- With the checks on, a delay is computed only where nothing overflows.
theorem fits_of_backoffMs {delay : UInt64} (h : config.backoffMs true attempt = .ok delay) :
    config.Fits attempt := by
  have hshift : attempt < 64 := by
    by_contra hge
    have hpanic : shlU64 true 1 attempt = .error (.panic "attempt to shift left with overflow") :=
      if_pos ⟨rfl, by omega⟩
    rw [backoffMs, hpanic] at h
    cases h
  obtain ⟨hone, hfactor⟩ := shlU64_one_small true hshift
  refine ⟨hshift, ?_⟩
  by_contra hge
  have hpanic := mulU64_large (a := config.retryBackoffBaseMs) (by rw [hfactor]; omega)
  simp only [backoffMs, hone, hpanic, bind, Except.bind] at h
  cases h

theorem exactBackoff_mono {first second : Nat} (h : first ≤ second) :
    config.exactBackoff first ≤ config.exactBackoff second := by
  have hpow : 2 ^ first ≤ 2 ^ second := Nat.pow_le_pow_right (by decide) h
  have hmul := Nat.mul_le_mul_left config.retryBackoffBaseMs.toNat hpow
  unfold exactBackoff
  omega

end Backoff

end TransactionConfig

section Delays

variable {ρ : Type} {checks : Bool} {config : TransactionConfig} {attempts : Nat → Attempt ρ}
  {fuel attempt : Nat} {lastErr : Option Error}

theorem runAttempts_of_conflict (h : (attempts attempt).Conflicts) :
    (runAttempts checks config attempts (fuel + 1) attempt lastErr).2 =
      if attempt < config.maxRetries.toNat then
        match config.backoffMs checks attempt with
        | .error _ => []
        | .ok delay =>
          delay :: (runAttempts checks config attempts fuel (attempt + 1) (some .txConflict)).2
      else (runAttempts checks config attempts fuel (attempt + 1) (some .txConflict)).2 := by
  obtain ⟨hbegin, ⟨result, hclosure⟩, hcommit⟩ := h
  simp only [runAttempts, hbegin, hclosure, hcommit, ne_eq, not_true_eq_false, if_false]
  split_ifs
  · cases config.backoffMs checks attempt <;> rfl
  · rfl

theorem runAttempts_of_not_conflict (h : ¬ (attempts attempt).Conflicts) :
    (runAttempts checks config attempts (fuel + 1) attempt lastErr).2 = [] := by
  unfold runAttempts
  split
  · rfl
  · next hbegin =>
    split
    · rfl
    · next result hclosure =>
      split
      · rfl
      · next e hcommit =>
        rw [if_pos]
        rintro rfl
        exact h ⟨hbegin, ⟨result, hclosure⟩, hcommit⟩

-- After the last attempt there is nothing to wait for.
theorem runAttempts_last (h : config.maxRetries.toNat ≤ attempt) :
    (runAttempts checks config attempts fuel attempt lastErr).2 = [] := by
  induction fuel generalizing attempt lastErr with
  | zero => rfl
  | succ fuel ih =>
    by_cases hconflict : (attempts attempt).Conflicts
    · rw [runAttempts_of_conflict hconflict, if_neg (by omega)]
      exact ih (by omega)
    · exact runAttempts_of_not_conflict hconflict

theorem conflicts_succ (hprev : ∀ j, j < attempt → (attempts j).Conflicts)
    (h : (attempts attempt).Conflicts) : ∀ j, j < attempt + 1 → (attempts j).Conflicts := by
  intro j hj
  rcases Nat.lt_succ_iff_lt_or_eq.mp hj with hlt | rfl
  · exact hprev j hlt
  · exact h

theorem delays_of_fits (hfits : ∀ k, Retried config attempts k → config.Fits k)
    (hprev : ∀ j, j < attempt → (attempts j).Conflicts) {i : Nat} {delay : UInt64}
    (h : (runAttempts checks config attempts fuel attempt lastErr).2[i]? = some delay) :
    delay.toNat = config.exactBackoff (attempt + i) := by
  induction fuel generalizing attempt lastErr i with
  | zero => simp [runAttempts] at h
  | succ fuel ih =>
    by_cases hconflict : (attempts attempt).Conflicts
    · have hnext := conflicts_succ hprev hconflict
      rw [runAttempts_of_conflict hconflict] at h
      split_ifs at h with hmore
      · obtain ⟨first, hfirst, hexact⟩ := TransactionConfig.backoffMs_of_fits
          (hfits attempt ⟨hmore, fun j hj => hnext j (by omega)⟩) checks
        rw [hfirst] at h
        cases i with
        | zero =>
          obtain rfl : first = delay := by simpa using h
          exact hexact
        | succ i =>
          have hrest := ih hnext h
          rwa [Nat.add_right_comm, Nat.add_assoc] at hrest
      · rw [runAttempts_last (by omega)] at h
        cases h
    · rw [runAttempts_of_not_conflict hconflict] at h
      cases h

theorem delay_of_retried (checks : Bool) (hfits : ∀ k, Retried config attempts k → config.Fits k)
    (hfuel : config.maxRetries.toNat < fuel + attempt) {i : Nat}
    (h : Retried config attempts (attempt + i)) :
    ∃ delay, (runAttempts checks config attempts fuel attempt lastErr).2[i]? = some delay := by
  induction fuel generalizing attempt lastErr i with
  | zero =>
    have := h.1
    omega
  | succ fuel ih =>
    have hmore : attempt < config.maxRetries.toNat := by
      have := h.1
      omega
    have hconflict := h.2 attempt (by omega)
    obtain ⟨first, hfirst, -⟩ := TransactionConfig.backoffMs_of_fits
      (hfits attempt ⟨hmore, fun j hj => h.2 j (by omega)⟩) checks
    rw [runAttempts_of_conflict hconflict, if_pos hmore, hfirst]
    cases i with
    | zero => exact ⟨first, rfl⟩
    | succ i =>
      rw [← Nat.add_assoc, Nat.add_right_comm] at h
      exact ih (by omega) h

theorem fits_of_delay {i : Nat} {delay : UInt64}
    (h : (runAttempts true config attempts fuel attempt lastErr).2[i]? = some delay) :
    config.Fits (attempt + i) := by
  induction fuel generalizing attempt lastErr i with
  | zero => simp [runAttempts] at h
  | succ fuel ih =>
    by_cases hconflict : (attempts attempt).Conflicts
    · rw [runAttempts_of_conflict hconflict] at h
      split_ifs at h with hmore
      · cases hfirst : config.backoffMs true attempt with
        | error e =>
          rw [hfirst] at h
          cases h
        | ok first =>
          rw [hfirst] at h
          cases i with
          | zero => exact TransactionConfig.fits_of_backoffMs hfirst
          | succ i =>
            have hrest := ih h
            rwa [Nat.add_right_comm, Nat.add_assoc] at hrest
      · rw [runAttempts_last (by omega)] at h
        cases h
    · rw [runAttempts_of_not_conflict hconflict] at h
      cases h

-- The delays of a run are those of exact arithmetic, and none is shorter than
-- the one before. A build with checks stops where the arithmetic overflows.
structure InRange (config : TransactionConfig) (attempts : Nat → Attempt ρ)
    (delays : List UInt64) : Prop where
  exact : ∀ k, Retried config attempts k →
    ∃ delay, delays[k]? = some delay ∧ delay.toNat = config.exactBackoff k
  rising : delays.Pairwise (· ≤ ·)

-- A run stays in range, in either build, when no attempt that it retries has a
-- number or a product beyond 64 bits.
theorem delays_inRange_iff (config : TransactionConfig) (attempts : Nat → Attempt ρ) :
    (∀ checks, InRange config attempts (runTransaction checks config attempts).2) ↔
      ∀ k, Retried config attempts k →
        k < 64 ∧ config.retryBackoffBaseMs.toNat * 2 ^ k < 2 ^ 64 := by
  constructor
  · intro h k hk
    obtain ⟨delay, hdelay, -⟩ := (h true).exact k hk
    have hfits := fits_of_delay hdelay
    rwa [Nat.zero_add] at hfits
  · intro hfits checks
    have hexact : ∀ i delay, (runTransaction checks config attempts).2[i]? = some delay →
        delay.toNat = config.exactBackoff i := by
      intro i delay hi
      have := delays_of_fits hfits (fun j hj => absurd hj (Nat.not_lt_zero j)) hi
      rwa [Nat.zero_add] at this
    constructor
    · intro k hk
      rw [← Nat.zero_add k] at hk
      obtain ⟨delay, hdelay⟩ := delay_of_retried checks hfits (Nat.lt_succ_self _) hk
      exact ⟨delay, hdelay, hexact k delay hdelay⟩
    · rw [List.pairwise_iff_getElem]
      intro i j hi hj hlt
      rw [UInt64.le_iff_toNat_le, hexact i _ (List.getElem?_eq_getElem hi),
        hexact j _ (List.getElem?_eq_getElem hj)]
      exact TransactionConfig.exactBackoff_mono (Nat.le_of_lt hlt)

-- With a base of 2^63 ms the second product is cut to zero: the backoff is off.
theorem delays_cut : ¬ InRange ⟨2, 9223372036854775808, 100⟩
    (fun _ => ⟨.ok (), .ok (), .error .txConflict⟩)
    (runTransaction false ⟨2, 9223372036854775808, 100⟩
      fun _ => (⟨.ok (), .ok (), .error .txConflict⟩ : Attempt Unit)).2 := by
  have hdelays : (runTransaction false ⟨2, 9223372036854775808, 100⟩
      fun _ => (⟨.ok (), .ok (), .error .txConflict⟩ : Attempt Unit)).2 = [100, 0] := by decide +kernel
  rw [hdelays]
  intro h
  have := h.rising
  revert this
  decide

end Delays

end JasonDb
