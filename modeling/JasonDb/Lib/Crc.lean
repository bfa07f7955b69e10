import JasonDb.Lib.Bytes
import Mathlib.Data.List.GetD

namespace JasonDb.Lib.Crc

-- Cyclic redundancy checks in reflected form: a register of any width, fed one
-- bit at a time at its low end.
section Register

variable {w : Nat} (poly : BitVec w)

def shift (r : BitVec w) : BitVec w := if r.getLsbD 0 then (r >>> 1) ^^^ poly else r >>> 1

def shifts (n : Nat) (r : BitVec w) : BitVec w := Nat.repeat (shift poly) n r

def step (r : BitVec w) (b : Bool) : BitVec w := shift poly (r ^^^ (BitVec.ofBool b).setWidth w)

def run (r : BitVec w) (bits : List Bool) : BitVec w := bits.foldl (step poly) r

-- The bits of a word in the order in which they are fed, the low one first.
def bitsOf {n : Nat} (x : BitVec n) : List Bool := (List.range n).map x.getLsbD

variable {poly} {r s : BitVec w}

theorem getLsbD_shift (r : BitVec w) (i : Nat) :
    (shift poly r).getLsbD i = (r.getLsbD (i + 1) ^^ (r.getLsbD 0 && poly.getLsbD i)) := by
  unfold shift
  split_ifs with h
  · simp [h, Nat.add_comm]
  · simp [h, Nat.add_comm]

theorem getLsbD_step (r : BitVec w) (b : Bool) (i : Nat) (hw : 0 < w) :
    (step poly r b).getLsbD i =
      (r.getLsbD (i + 1) ^^ ((r.getLsbD 0 ^^ b) && poly.getLsbD i)) := by
  unfold step
  rw [getLsbD_shift]
  simp [hw]

theorem shift_xor (r s : BitVec w) : shift poly (r ^^^ s) = shift poly r ^^^ shift poly s := by
  apply BitVec.eq_of_getLsbD_eq
  intro i _
  simp only [getLsbD_shift, BitVec.getLsbD_xor]
  cases r.getLsbD 0 <;> cases s.getLsbD 0 <;> cases poly.getLsbD i <;> simp

theorem shifts_succ (n : Nat) (r : BitVec w) :
    shifts poly (n + 1) r = shifts poly n (shift poly r) := by
  induction n with
  | zero => rfl
  | succ n ih => exact congrArg (shift poly) ih

theorem shifts_xor (n : Nat) (r s : BitVec w) :
    shifts poly n (r ^^^ s) = shifts poly n r ^^^ shifts poly n s := by
  induction n generalizing r s with
  | zero => rfl
  | succ n ih => rw [shifts_succ, shifts_succ, shifts_succ, shift_xor, ih]

-- Bits that are clear are shifted out without a trace.
theorem shifts_of_clear {n : Nat} (h : ∀ i, i < n → r.getLsbD i = false) :
    shifts poly n r = r >>> n := by
  induction n generalizing r with
  | zero => simp [shifts, Nat.repeat]
  | succ n ih =>
    have hlow : shift poly r = r >>> 1 := by
      unfold shift
      rw [h 0 (Nat.succ_pos n), if_neg Bool.false_ne_true]
    rw [shifts_succ, hlow, ih, ← BitVec.shiftRight_add, Nat.add_comm 1 n]
    intro i hi
    rw [BitVec.getLsbD_ushiftRight]
    exact h _ (by omega)

-- What `n` shifts do, by the `n` low bits alone: this is what a table holds.
theorem shifts_eq (n : Nat) (r : BitVec w) :
    shifts poly n r = (r >>> n) ^^^ shifts poly n (r &&& BitVec.ofNat w (2 ^ n - 1)) := by
  let low := r &&& BitVec.ofNat w (2 ^ n - 1)
  have hlow : ∀ i, low.getLsbD i = (r.getLsbD i && decide (i < n)) := by
    intro i
    simp only [low, BitVec.getLsbD_and, BitVec.getLsbD_ofNat, Nat.testBit_two_pow_sub_one]
    by_cases hi : i < w
    · rw [decide_eq_true hi, Bool.true_and]
    · rw [BitVec.getLsbD_of_ge r i (by omega), Bool.false_and, Bool.false_and]
  have hclear : ∀ i, i < n → (r ^^^ low).getLsbD i = false := by
    intro i hi
    rw [BitVec.getLsbD_xor, hlow, decide_eq_true hi, Bool.and_true, Bool.xor_self]
  have hhigh : (r ^^^ low) >>> n = r >>> n := by
    apply BitVec.eq_of_getLsbD_eq
    intro i _
    rw [BitVec.getLsbD_ushiftRight, BitVec.getLsbD_ushiftRight, BitVec.getLsbD_xor, hlow,
      decide_eq_false (by omega), Bool.and_false, Bool.xor_false]
  calc shifts poly n r = shifts poly n ((r ^^^ low) ^^^ low) := by
        rw [BitVec.xor_assoc, BitVec.xor_self, BitVec.xor_zero]
    _ = (r >>> n) ^^^ shifts poly n low := by
        rw [shifts_xor, shifts_of_clear hclear, hhigh]

theorem run_append (r : BitVec w) (xs ys : List Bool) :
    run poly r (xs ++ ys) = run poly (run poly r xs) ys :=
  List.foldl_append

-- Feeding a word bit by bit is adding it to the register and shifting.
theorem run_eq_shifts (hw : 0 < w) {bits : List Bool} {y : BitVec w}
    (h : ∀ i, y.getLsbD i = bits.getD i false) :
    run poly r bits = shifts poly bits.length (r ^^^ y) := by
  induction bits generalizing r y with
  | nil =>
    have hy : y = 0 := by
      apply BitVec.eq_of_getLsbD_eq
      intro i _
      simpa using h i
    subst hy
    simp [run, shifts, Nat.repeat]
  | cons b bits ih =>
    have htail : ∀ i, (y >>> 1).getLsbD i = bits.getD i false := by
      intro i
      rw [BitVec.getLsbD_ushiftRight, Nat.add_comm, h, List.getD_cons_succ]
    have hstep : step poly r b ^^^ (y >>> 1) = shift poly (r ^^^ y) := by
      apply BitVec.eq_of_getLsbD_eq
      intro i _
      have hb : y.getLsbD 0 = b := h 0
      rw [BitVec.getLsbD_xor, getLsbD_step r b i hw, getLsbD_shift, BitVec.getLsbD_xor,
        BitVec.getLsbD_xor, BitVec.getLsbD_ushiftRight, hb, Nat.add_comm 1 i]
      cases r.getLsbD (i + 1) <;> cases y.getLsbD (i + 1) <;> simp
    rw [List.length_cons, shifts_succ, ← hstep]
    exact ih htail

theorem length_bitsOf {n : Nat} (x : BitVec n) : (bitsOf x).length = n := by
  simp [bitsOf]

theorem getD_bitsOf {n : Nat} (x : BitVec n) (i : Nat) :
    (bitsOf x).getD i false = x.getLsbD i := by
  unfold bitsOf
  by_cases hi : i < n
  · simp [List.getD_eq_getElem?_getD, hi]
  · simp [List.getD_eq_getElem?_getD, hi, BitVec.getLsbD_of_ge x i (by omega)]

theorem bitsOf_injective {n : Nat} : Function.Injective (bitsOf (n := n)) := by
  intro x y h
  apply BitVec.eq_of_getLsbD_eq
  intro i _
  rw [← getD_bitsOf, h, getD_bitsOf]

theorem run_bitsOf {n : Nat} (hn : n ≤ w) (hw : 0 < w) (r : BitVec w) (x : BitVec n) :
    run poly r (bitsOf x) = shifts poly n (r ^^^ x.setWidth w) := by
  have hbits : ∀ i, (x.setWidth w).getLsbD i = (bitsOf x).getD i false := by
    intro i
    rw [getD_bitsOf, BitVec.getLsbD_setWidth]
    by_cases hi : i < w
    · simp [hi]
    · simp [BitVec.getLsbD_of_ge x i (by omega)]
  rw [run_eq_shifts hw hbits, length_bitsOf]

end Register

-- A polynomial whose top bit is set loses nothing: the top bit of the next
-- register tells whether it was added.
section Detection

variable {w : Nat} {poly : BitVec w} {r s : BitVec w}

theorem top_bit (hpoly : poly.msb) : 0 < w ∧ poly.getLsbD (w - 1) = true := by
  rw [BitVec.msb_eq_getLsbD_last] at hpoly
  exact ⟨by have := BitVec.lt_of_getLsbD hpoly; omega, hpoly⟩

theorem step_injective (hpoly : poly.msb) (b : Bool) (h : step poly r b = step poly s b) :
    r = s := by
  obtain ⟨hw, htop⟩ := top_bit hpoly
  have hbit : ∀ i, (step poly r b).getLsbD i = (step poly s b).getLsbD i := fun i => by rw [h]
  simp only [getLsbD_step _ _ _ hw] at hbit
  have hlow : r.getLsbD 0 = s.getLsbD 0 := by
    have hlast := hbit (w - 1)
    rw [BitVec.getLsbD_of_ge r _ (by omega), BitVec.getLsbD_of_ge s _ (by omega), htop] at hlast
    simpa using hlast
  apply BitVec.eq_of_getLsbD_eq
  intro i _
  cases i with
  | zero => exact hlow
  | succ i =>
    have hi := hbit i
    rw [hlow] at hi
    simpa using hi

theorem run_injective (hpoly : poly.msb) {bits : List Bool} (h : run poly r bits = run poly s bits) :
    r = s := by
  induction bits generalizing r s with
  | nil => exact h
  | cons b bits ih => exact step_injective hpoly b (ih h)

-- Two runs of at most `w` bits that end in one register differ in their bits
-- exactly where the registers they start from do.
theorem getD_of_run_eq (hpoly : poly.msb) {xs ys : List Bool} (hlen : xs.length = ys.length)
    (hle : xs.length ≤ w) (h : run poly r xs = run poly s ys) (i : Nat) :
    (xs.getD i false ^^ ys.getD i false) = (r.getLsbD i ^^ s.getLsbD i) := by
  obtain ⟨hw, htop⟩ := top_bit hpoly
  induction xs generalizing ys r s i with
  | nil =>
    obtain rfl := List.eq_nil_of_length_eq_zero hlen.symm
    have hrs : r = s := h
    rw [hrs, Bool.xor_self, Bool.xor_self]
  | cons x xs ih =>
    obtain _ | ⟨y, ys⟩ := ys
    · cases hlen
    rw [List.length_cons] at hle
    have hrest : xs.length = ys.length := Nat.succ.inj hlen
    have hnext := ih hrest (by omega) h
    simp only [getLsbD_step _ _ _ hw] at hnext
    -- The last bit of both next registers is the top bit of what was added.
    have hlow : (x ^^ y) = (r.getLsbD 0 ^^ s.getLsbD 0) := by
      have hlast := hnext (w - 1)
      rw [List.getD_eq_default _ _ (by omega), List.getD_eq_default _ _ (by simp at hlen; omega),
        BitVec.getLsbD_of_ge r _ (by omega), BitVec.getLsbD_of_ge s _ (by omega), htop] at hlast
      revert hlast
      cases x <;> cases y <;> cases r.getLsbD 0 <;> cases s.getLsbD 0 <;> simp
    cases i with
    | zero => exact hlow
    | succ i =>
      have hi := hnext i
      rw [List.getD_cons_succ, List.getD_cons_succ, hi]
      revert hlow
      cases x <;> cases y <;> cases r.getLsbD 0 <;> cases s.getLsbD 0 <;>
        cases poly.getLsbD i <;> simp

end Detection

section Bytes

def bits (data : Bytes) : List Bool := data.flatMap fun byte => bitsOf byte.toBitVec

theorem bits_cons (byte : UInt8) (data : Bytes) :
    bits (byte :: data) = bitsOf byte.toBitVec ++ bits data := List.flatMap_cons

theorem bits_append (xs ys : Bytes) : bits (xs ++ ys) = bits xs ++ bits ys :=
  List.flatMap_append

theorem length_bits (data : Bytes) : (bits data).length = 8 * data.length := by
  induction data with
  | nil => rfl
  | cons byte data ih =>
    rw [bits_cons, List.length_append, length_bitsOf, ih, List.length_cons]
    omega

theorem bits_injective : Function.Injective bits := by
  intro xs
  induction xs with
  | nil =>
    intro ys h
    have hlen := congrArg List.length h
    rw [length_bits, length_bits, List.length_nil] at hlen
    exact (List.eq_nil_of_length_eq_zero (by omega)).symm
  | cons x xs ih =>
    intro ys h
    obtain _ | ⟨y, ys⟩ := ys
    · have hlen := congrArg List.length h
      rw [length_bits, length_bits, List.length_cons, List.length_nil] at hlen
      omega
    rw [bits_cons, bits_cons] at h
    obtain ⟨hx, hxs⟩ := List.append_inj h (by rw [length_bitsOf, length_bitsOf])
    rw [UInt8.toBitVec_inj.mp (bitsOf_injective hx), ih hxs]

theorem bits_leBytes (width n : Nat) : bits (leBytes width n) = bitsOf (BitVec.ofNat (8 * width) n) := by
  have htest : ∀ m k : Nat, bitsOf (BitVec.ofNat m k) = (List.range m).map k.testBit := by
    intro m k
    unfold bitsOf
    apply List.map_congr_left
    intro i hi
    rw [BitVec.getLsbD_ofNat, decide_eq_true (List.mem_range.mp hi), Bool.true_and]
  induction width generalizing n with
  | zero => rfl
  | succ width ih =>
    rw [leBytes, bits_cons, ih, htest, htest, Nat.mul_succ, Nat.add_comm, List.range_add,
      List.map_append, List.map_map]
    congr 1
    · exact htest 8 n
    · apply List.map_congr_left
      intro i _
      rw [Function.comp_apply, show n / 256 = n >>> 8 from (Nat.shiftRight_eq_div_pow n 8).symm,
        Nat.testBit_shiftRight]

end Bytes

-- Sequences of one length that differ, and only within `len` consecutive places.
structure Burst {α : Type} (len : Nat) (stored changed : List α) : Prop where
  length_eq : changed.length = stored.length
  ne : changed ≠ stored
  within : ∃ start, ∀ i, i < start ∨ start + len ≤ i → changed[i]? = stored[i]?

-- A burst too short to reach across a range that it leaves alone is a burst of
-- what remains without the range.
theorem Burst.cut {α : Type} {len : Nat} {stored changed : List α} (h : Burst len stored changed)
    {start count : Nat} (hcount : len ≤ count) (hstart : start ≤ stored.length)
    (hsame : ∀ i, start ≤ i → i < start + count → changed[i]? = stored[i]?) :
    Burst len (stored.take start ++ stored.drop (start + count))
      (changed.take start ++ changed.drop (start + count)) := by
  have hlen := h.length_eq
  have hget : ∀ xs : List α, xs.length = stored.length → ∀ i,
      (xs.take start ++ xs.drop (start + count))[i]? =
        if i < start then xs[i]? else xs[i + count]? := by
    intro xs hxs i
    have htake : (xs.take start).length = start := by rw [List.length_take]; omega
    split_ifs with hi
    · rw [List.getElem?_append_left (by omega), List.getElem?_take_of_lt hi]
    · rw [List.getElem?_append_right (by omega), List.getElem?_drop, htake]
      congr 1
      omega
  constructor
  · simp only [List.length_append, List.length_take, List.length_drop, hlen]
  · intro heq
    apply h.ne
    apply List.ext_getElem?
    intro i
    have hkept : ∀ j, (if j < start then changed[j]? else changed[j + count]?) =
        if j < start then stored[j]? else stored[j + count]? := by
      intro j
      rw [← hget changed hlen, heq, hget stored rfl]
    rcases Nat.lt_or_ge i start with hlt | hge
    · simpa only [if_pos hlt] using hkept i
    rcases Nat.lt_or_ge i (start + count) with hin | hout
    · exact hsame i hge hin
    · have hi := hkept (i - count)
      rw [if_neg (by omega), if_neg (by omega), Nat.sub_add_cancel (by omega)] at hi
      exact hi
  · obtain ⟨first, hwithin⟩ := h.within
    refine ⟨if first < start then first else first - count, ?_⟩
    intro i hi
    rw [hget changed hlen, hget stored rfl]
    split_ifs with hlt
    · apply hwithin
      split_ifs at hi with hfirst <;> omega
    · apply hwithin
      split_ifs at hi with hfirst <;> omega

section Burst

variable {w : Nat} {poly : BitVec w} {r : BitVec w} {len : Nat} {stored changed : Bytes}

-- The register tells apart any two sequences of bytes that differ in a burst no
-- longer than the register.
theorem run_ne_of_burst (hpoly : poly.msb) (hle : 8 * len ≤ w) (h : Burst len stored changed) :
    run poly r (bits changed) ≠ run poly r (bits stored) := by
  intro heq
  obtain ⟨start, hwithin⟩ := h.within
  have hlen := h.length_eq
  have hfront : changed.take start = stored.take start := by
    apply List.ext_getElem?
    intro i
    by_cases hi : i < start
    · rw [List.getElem?_take_of_lt hi, List.getElem?_take_of_lt hi, hwithin i (.inl hi)]
    · rw [List.getElem?_take_eq_none (by omega), List.getElem?_take_eq_none (by omega)]
  have hback : (changed.drop start).drop len = (stored.drop start).drop len := by
    apply List.ext_getElem?
    intro i
    rw [List.getElem?_drop, List.getElem?_drop, List.getElem?_drop, List.getElem?_drop,
      hwithin _ (.inr (by omega))]
  have hsplit : ∀ data : Bytes, bits data = bits (data.take start) ++
      (bits ((data.drop start).take len) ++ bits ((data.drop start).drop len)) := by
    intro data
    rw [← bits_append, ← bits_append, List.take_append_drop, List.take_append_drop]
  rw [hsplit changed, hsplit stored, hfront, hback, run_append, run_append, run_append,
    run_append] at heq
  -- What follows the burst is the same, so the registers agreed right after it.
  have hmiddle := run_injective hpoly heq
  have hbits : ((changed.drop start).take len).length = ((stored.drop start).take len).length := by
    simp only [List.length_take, List.length_drop, hlen]
  have hdiff := getD_of_run_eq hpoly (by rw [length_bits, length_bits, hbits])
    (by rw [length_bits, List.length_take]; omega) hmiddle
  have hsame : bits ((changed.drop start).take len) = bits ((stored.drop start).take len) := by
    apply List.ext_getElem
    · rw [length_bits, length_bits, hbits]
    · intro i hi hi'
      have hd := hdiff i
      rw [Bool.xor_self, List.getD_eq_getElem _ _ hi, List.getD_eq_getElem _ _ hi'] at hd
      simpa using hd
  apply h.ne
  rw [← List.take_append_drop start changed, ← List.take_append_drop start stored, hfront,
    ← List.take_append_drop len (changed.drop start),
    ← List.take_append_drop len (stored.drop start), hback, bits_injective hsame]

-- A check value after the data is part of what is protected, when it is the
-- register up to a constant.
theorem run_check (hw : 0 < w) (r c : BitVec w) (data : List Bool) :
    run poly r (data ++ bitsOf c) = shifts poly w (run poly r data ^^^ c) := by
  rw [run_append, run_bitsOf (Nat.le_refl w) hw, BitVec.setWidth_eq]

end Burst

end JasonDb.Lib.Crc
