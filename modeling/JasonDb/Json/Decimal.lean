import JasonDb.Json
import Mathlib.Tactic.Positivity
import Mathlib.Tactic.Ring

namespace JasonDb

theorem eq_of_mul_pow_ten {a b j k : Nat} (ha : a % 10 ≠ 0) (hjk : j ≤ k) (h : a * 10 ^ j = b * 10 ^ k) :
    a = b ∧ j = k := by
  obtain ⟨m, rfl⟩ := Nat.exists_eq_add_of_le hjk
  have hcancel : a = b * 10 ^ m := by
    have hpos : 0 < 10 ^ j := by positivity
    apply Nat.eq_of_mul_eq_mul_right hpos
    rw [h]
    ring
  cases m with
  | zero => simpa using hcancel
  | succ m =>
    exfalso
    apply ha
    rw [hcancel, pow_succ, ← Nat.mul_assoc, Nat.mul_mod_left]

namespace Decimal

-- A number is written in one way only.
theorem eq_of_value {a b : Decimal} {j k : Nat} {frac : Nat} (hsign : a.negative = b.negative)
    (hj : a.exponent + frac = j) (hk : b.exponent + frac = k) (h : a.digits * 10 ^ j = b.digits * 10 ^ k) :
    a = b := by
  have hboth : a.digits = b.digits ∧ a.exponent = b.exponent := by
    rcases a.normal with ha | ⟨ha, hae⟩
    · rcases b.normal with hb | ⟨hb, -⟩
      · rcases Nat.le_total j k with hle | hle
        · obtain ⟨heq, hpow⟩ := eq_of_mul_pow_ten ha hle h
          exact ⟨heq, by omega⟩
        · obtain ⟨heq, hpow⟩ := eq_of_mul_pow_ten hb hle h.symm
          exact ⟨heq.symm, by omega⟩
      · have hzero : a.digits = 0 := by simpa [hb] using h
        simp [hzero] at ha
    · rcases b.normal with hb | ⟨hb, hbe⟩
      · have hzero : b.digits = 0 := by simpa [ha] using h.symm
        simp [hzero] at hb
      · exact ⟨ha.trans hb.symm, hae.trans hbe.symm⟩
  cases a
  cases b
  simp_all

def sign (d : Decimal) : List Char := if d.negative then ['-'] else []

-- The text without the sign.
def body (d : Decimal) : List Char :=
  let digits := Nat.toDigits 10 d.digits
  let point : Int := digits.length + d.exponent
  if d.digits = 0 then ['0', '.', '0']
  else if 0 ≤ d.exponent ∧ point ≤ 16 then digits ++ List.replicate d.exponent.toNat '0' ++ ['.', '0']
  else if 0 < point ∧ point ≤ 16 then digits.take point.toNat ++ '.' :: digits.drop point.toNat
  else if -5 < point ∧ point ≤ 0 then '0' :: '.' :: List.replicate (-point).toNat '0' ++ digits
  else digits.take 1 ++ (if digits.length = 1 then [] else '.' :: digits.drop 1) ++ 'e' :: (toString (point - 1)).toList

theorem toList_render (d : Decimal) : d.render.toList = d.sign ++ d.body := by
  have hsign : (if d.negative then "-" else "").toList = d.sign := by
    unfold sign
    split <;> rfl
  unfold render body
  simp only
  split
  · rw [String.toList_append, hsign]
    rfl
  split
  · simp only [String.toList_append, hsign, String.toList_ofList, List.append_assoc]
    rfl
  split
  · simp only [String.toList_append, hsign, String.toList_ofList, List.append_assoc]
    rfl
  split
  · simp only [String.toList_append, hsign, String.toList_ofList, List.append_assoc]
    rfl
  · simp only [String.toList_append, hsign, String.toList_ofList, List.append_assoc]
    split <;> simp

-- A text in plain notation is a whole and a fraction, from which the number can be read back.
def Plain (d : Decimal) : Prop := ∃ whole frac k, d.body = whole ++ '.' :: frac ∧
  (∀ c ∈ whole, c.isDigit) ∧ (∀ c ∈ frac, c.isDigit) ∧ whole ≠ [] ∧ d.exponent + frac.length = (k : Nat) ∧
  Nat.ofDigitChars 10 (whole ++ frac) 0 = d.digits * 10 ^ k

-- A text in scientific notation holds the digits and the place of the point.
def Scientific (d : Decimal) : Prop := ∃ mantissa, d.body = mantissa ++ 'e' ::
    (toString ((Nat.toDigits 10 d.digits).length + d.exponent - 1)).toList ∧
  (∀ c ∈ mantissa, c.isDigit ∨ c = '.') ∧ mantissa.filter Char.isDigit = Nat.toDigits 10 d.digits

theorem isDigit_of_mem {n : Nat} {c : Char} (h : c ∈ Nat.toDigits 10 n) : c.isDigit :=
  Nat.isDigit_of_mem_toDigits (by decide) (by decide) h

theorem isDigit_of_mem_replicate {n : Nat} {c : Char} (h : c ∈ List.replicate n '0') : c.isDigit := by
  rw [List.eq_of_mem_replicate h]
  rfl

theorem ofDigitChars_zeros (digits : List Char) (n m : Nat) (h : Nat.ofDigitChars 10 digits 0 = n) :
    Nat.ofDigitChars 10 (digits ++ List.replicate m '0') 0 = n * 10 ^ m := by
  rw [Nat.ofDigitChars_append, h, Nat.ofDigitChars_replicate_zero, Nat.mul_comm]

theorem plain_or_scientific (d : Decimal) : d.Plain ∨ d.Scientific := by
  have hvalue := @Nat.ofDigitChars_ten_toDigits d.digits
  have hnonempty : Nat.toDigits 10 d.digits ≠ [] := Nat.toDigits_ne_nil
  have hdigit : ∀ c ∈ Nat.toDigits 10 d.digits, c.isDigit := fun c hc => isDigit_of_mem hc
  unfold Plain Scientific body
  generalize Nat.toDigits 10 d.digits = digits at *
  have hlength : 0 < digits.length := List.length_pos_iff.mpr hnonempty
  by_cases hzero : d.digits = 0
  · have hexponent : d.exponent = 0 := by
      rcases d.normal with h | h
      · simp [hzero] at h
      · exact h.2
    exact .inl ⟨['0'], ['0'], 1, by simp [hzero], by simp, by simp, by simp, by simp [hexponent],
      by simp [hzero, Nat.ofDigitChars]⟩
  by_cases hwhole : 0 ≤ d.exponent ∧ (digits.length + d.exponent : Int) ≤ 16
  · refine .inl ⟨digits ++ List.replicate d.exponent.toNat '0', ['0'], d.exponent.toNat + 1,
      by simp [hzero, hwhole], ?_, by simp, by simp [hnonempty], ?_, ?_⟩
    · intro c hc
      rcases List.mem_append.mp hc with hc | hc
      · exact hdigit c hc
      · exact isDigit_of_mem_replicate hc
    · simp only [List.length_singleton]
      omega
    · rw [List.append_assoc, ← List.replicate_succ']
      exact ofDigitChars_zeros _ _ _ hvalue
  by_cases hpoint : 0 < (digits.length + d.exponent : Int) ∧ (digits.length + d.exponent : Int) ≤ 16
  · refine .inl ⟨digits.take (digits.length + d.exponent : Int).toNat, digits.drop (digits.length + d.exponent : Int).toNat,
      0, by rw [if_neg hzero, if_neg hwhole, if_pos hpoint], ?_, ?_, ?_, ?_, ?_⟩
    · intro c hc
      exact hdigit c (List.mem_of_mem_take hc)
    · intro c hc
      exact hdigit c (List.mem_of_mem_drop hc)
    · intro hnil
      rcases List.take_eq_nil_iff.mp hnil with h | h
      · omega
      · exact hnonempty h
    · rw [List.length_drop]
      omega
    · rw [List.take_append_drop, hvalue, pow_zero, Nat.mul_one]
  by_cases hsmall : -5 < (digits.length + d.exponent : Int) ∧ (digits.length + d.exponent : Int) ≤ 0
  · refine .inl ⟨['0'], List.replicate (-(digits.length + d.exponent : Int)).toNat '0' ++ digits, 0,
      by simp [hzero, hwhole, hpoint, hsmall], by simp, ?_, by simp, ?_, ?_⟩
    · intro c hc
      rcases List.mem_append.mp hc with hc | hc
      · exact isDigit_of_mem_replicate hc
      · exact hdigit c hc
    · rw [List.length_append, List.length_replicate]
      omega
    · have hzeros : Nat.ofDigitChars 10 ('0' :: List.replicate (-(digits.length + d.exponent : Int)).toNat '0') 0 = 0 := by
        rw [← List.replicate_succ, Nat.ofDigitChars_replicate_zero, Nat.mul_zero]
      rw [List.singleton_append, ← List.cons_append, Nat.ofDigitChars_append, hzeros, hvalue, pow_zero, Nat.mul_one]
  · refine .inr ⟨digits.take 1 ++ (if digits.length = 1 then [] else '.' :: digits.drop 1),
      by simp [hzero, hwhole, hpoint, hsmall], ?_, ?_⟩
    · intro c hc
      rcases List.mem_append.mp hc with hc | hc
      · exact .inl (hdigit c (List.mem_of_mem_take hc))
      · split at hc
        · cases hc
        · rcases List.mem_cons.mp hc with rfl | hc
          · exact .inr rfl
          · exact .inl (hdigit c (List.mem_of_mem_drop hc))
    · have hall : digits.filter Char.isDigit = digits := List.filter_eq_self.mpr hdigit
      have hparts : (digits.take 1 ++ (if digits.length = 1 then [] else '.' :: digits.drop 1)).filter Char.isDigit =
          (digits.take 1 ++ digits.drop 1).filter Char.isDigit := by
        by_cases hone : digits.length = 1
        · rw [if_pos hone, List.drop_of_length_le (by omega)]
        · rw [if_neg hone, List.filter_append, List.filter_append, List.filter_cons_of_neg (by decide)]
      rw [hparts, List.take_append_drop, hall]

theorem toDigits_injective {m n : Nat} (h : Nat.toDigits 10 m = Nat.toDigits 10 n) : m = n := by
  rw [← @Nat.ofDigitChars_ten_toDigits m, h, Nat.ofDigitChars_ten_toDigits]

theorem mem_toString {z : Int} {c : Char} (h : c ∈ (toString z).toList) : c.isDigit ∨ c = '-' := by
  rw [Int.toString_eq_repr, Int.repr_eq_if] at h
  split at h
  · rw [Nat.toList_repr] at h
    exact .inl (isDigit_of_mem h)
  · rw [String.toList_append, Nat.toList_repr] at h
    rcases List.mem_append.mp h with h | h
    · exact .inr (by simpa using h)
    · exact .inl (isDigit_of_mem h)

theorem mem_body {d : Decimal} {c : Char} (h : c ∈ d.body) : c.isDigit ∨ c = '-' ∨ c = '.' ∨ c = 'e' := by
  rcases d.plain_or_scientific with ⟨whole, frac, k, hbody, hwhole, hfrac, -⟩ | ⟨mantissa, hbody, hmantissa, -⟩
  · rw [hbody, List.mem_append, List.mem_cons] at h
    rcases h with h | rfl | h
    · exact .inl (hwhole c h)
    · simp
    · exact .inl (hfrac c h)
  · rw [hbody, List.mem_append, List.mem_cons] at h
    rcases h with h | rfl | h
    · rcases hmantissa c h with h | rfl
      · exact .inl h
      · simp
    · simp
    · rcases mem_toString h with h | rfl
      · exact .inl h
      · simp

theorem toString_injective {y z : Int} (h : (toString y).toList = (toString z).toList) : y = z := by
  have hminus : ∀ {n : Nat} {s : List Char}, Nat.toDigits 10 n ≠ '-' :: s := by
    intro n s heq
    have := @isDigit_of_mem n '-' (by simp [heq])
    simp at this
  simp only [Int.toString_eq_repr, Int.repr_eq_if] at h
  by_cases hy : 0 ≤ y
  · by_cases hz : 0 ≤ z
    · simp only [if_pos hy, if_pos hz, Nat.toList_repr] at h
      have := toDigits_injective h
      omega
    · simp only [if_pos hy, if_neg hz, String.toList_append, Nat.toList_repr] at h
      exact absurd h hminus
  · by_cases hz : 0 ≤ z
    · simp only [if_neg hy, if_pos hz, String.toList_append, Nat.toList_repr] at h
      exact absurd h.symm hminus
    · simp only [if_neg hy, if_neg hz, String.toList_append, Nat.toList_repr] at h
      have := toDigits_injective (List.append_cancel_left h)
      omega

-- The text begins with a digit, or perhaps with a point. So a sign in front of it can be seen.
theorem body_cons (d : Decimal) : ∃ c rest, d.body = c :: rest ∧ (c.isDigit ∨ c = '.') := by
  rcases d.plain_or_scientific with ⟨whole, frac, k, hbody, hwhole, -, hne, -⟩ | ⟨mantissa, hbody, hmantissa, hdigits⟩
  · cases whole with
    | nil => exact absurd rfl hne
    | cons c rest => exact ⟨c, _, hbody, .inl (hwhole c (by simp))⟩
  · cases mantissa with
    | nil => exact absurd hdigits.symm Nat.toDigits_ne_nil
    | cons c rest => exact ⟨c, _, hbody, hmantissa c (by simp)⟩

theorem not_isDigit_of_mem {s : List Char} (h : ∀ c ∈ s, c.isDigit) {c : Char} (hc : c.isDigit = false) :
    c ∉ s := by
  intro hmem
  simp [h c hmem] at hc

theorem body_injective {a b : Decimal} (hsign : a.negative = b.negative) (h : a.body = b.body) : a = b := by
  have hlast : ∀ z : Int, 'e' ∉ (toString z).toList := by
    intro z hmem
    rcases mem_toString hmem with h | h
    · simp at h
    · simp at h
  rcases a.plain_or_scientific with ⟨whole, frac, j, ha, hwhole, hfrac, -, hj, hvalue⟩ | ⟨mantissa, ha, hmantissa, hdigits⟩
  · have hpoint : '.' ∉ whole ∧ '.' ∉ frac := ⟨not_isDigit_of_mem hwhole rfl, not_isDigit_of_mem hfrac rfl⟩
    rcases b.plain_or_scientific with ⟨whole', frac', k, hb, -, -, -, hk, hvalue'⟩ | ⟨mantissa', hb, -⟩
    · rw [ha, hb] at h
      obtain ⟨rfl, -, rfl⟩ := (List.append_cons_inj_of_notMem hpoint.1 hpoint.2).mp h
      exact eq_of_value hsign hj hk (hvalue.symm.trans hvalue')
    · have hmem : 'e' ∈ whole ++ '.' :: frac := by simp [← ha, h, hb]
      rcases List.mem_append.mp hmem with hmem | hmem
      · exact absurd hmem (not_isDigit_of_mem hwhole rfl)
      · exact absurd (by simpa using hmem) (not_isDigit_of_mem hfrac (c := 'e') rfl)
  · rcases b.plain_or_scientific with ⟨whole', frac', k, hb, hwhole', hfrac', -⟩ | ⟨mantissa', hb, hmantissa', hdigits'⟩
    · have hmem : 'e' ∈ whole' ++ '.' :: frac' := by simp [← hb, ← h, ha]
      rcases List.mem_append.mp hmem with hmem | hmem
      · exact absurd hmem (not_isDigit_of_mem hwhole' rfl)
      · exact absurd (by simpa using hmem) (not_isDigit_of_mem hfrac' (c := 'e') rfl)
    · have hfirst : 'e' ∉ mantissa := by
        intro hmem
        rcases hmantissa _ hmem with h | h
        · simp at h
        · simp at h
      rw [ha, hb] at h
      obtain ⟨rfl, -, hplace⟩ := (List.append_cons_inj_of_notMem hfirst (hlast _)).mp h
      have hsame : a.digits = b.digits := toDigits_injective (hdigits.symm.trans hdigits')
      have hexponent : a.exponent = b.exponent := by
        have hint := toString_injective hplace
        rw [hsame] at hint
        omega
      cases a
      cases b
      simp_all

theorem render_injective {a b : Decimal} (h : a.render = b.render) : a = b := by
  have htexts : a.sign ++ a.body = b.sign ++ b.body := by rw [← toList_render, ← toList_render, h]
  obtain ⟨c, rest, ha, hc⟩ := a.body_cons
  obtain ⟨c', rest', hb, hc'⟩ := b.body_cons
  have hne : c ≠ '-' := by
    rintro rfl
    simp at hc
  have hne' : c' ≠ '-' := by
    rintro rfl
    simp at hc'
  unfold sign at htexts
  by_cases hsign : a.negative = b.negative
  · rw [hsign] at htexts
    exact body_injective hsign (List.append_cancel_left htexts)
  · cases hn : a.negative with
    | true =>
      rw [hn] at hsign
      simp [hn, Bool.eq_false_of_not_eq_true (Ne.symm hsign), hb] at htexts
      exact absurd htexts.1.symm hne'
    | false =>
      rw [hn] at hsign
      simp [hn, Bool.eq_true_of_not_eq_false (Ne.symm hsign), ha] at htexts
      exact absurd htexts.1 hne

end Decimal

namespace Number

theorem mem_render {n : Number} {c : Char} (h : c ∈ n.render.toList) :
    c.isDigit ∨ c = '-' ∨ c = '.' ∨ c = 'e' := by
  cases n with
  | int value =>
    rcases Decimal.mem_toString h with h | h
    · exact .inl h
    · exact .inr (.inl h)
  | float value =>
    rw [render, Decimal.toList_render] at h
    rcases List.mem_append.mp h with h | h
    · unfold Decimal.sign at h
      split at h
      · exact .inr (.inl (by simpa using h))
      · cases h
    · exact Decimal.mem_body h

theorem render_ne_nil (n : Number) : n.render.toList ≠ [] := by
  cases n with
  | int value =>
    rw [render, Int.toString_eq_repr, Int.repr_eq_if]
    split
    · rw [Nat.toList_repr]
      exact Nat.toDigits_ne_nil
    · simp
  | float value =>
    obtain ⟨c, rest, h, -⟩ := value.body_cons
    simp [render, Decimal.toList_render, h]

-- The text of a float has a point or an exponent, the text of an integer has neither.
theorem render_int_ne_float (z : Int) (d : Decimal) : render (.int z) ≠ render (.float d) := by
  intro h
  have htexts : (toString z).toList = d.sign ++ d.body := by rw [← Decimal.toList_render]; exact congrArg String.toList h
  have hnot : ∀ c ∈ d.body, c ≠ '.' ∧ c ≠ 'e' := by
    intro c hc
    have hmem : c ∈ (toString z).toList := by
      rw [htexts]
      exact List.mem_append_right _ hc
    rcases Decimal.mem_toString hmem with h | rfl
    · constructor <;> rintro rfl <;> simp at h
    · decide
  rcases d.plain_or_scientific with ⟨whole, frac, k, hbody, -⟩ | ⟨mantissa, hbody, -⟩
  · exact (hnot '.' (by simp [hbody])).1 rfl
  · exact (hnot 'e' (by simp [hbody])).2 rfl

theorem render_injective {a b : Number} (h : a.render = b.render) : a = b := by
  cases a with
  | int a =>
    cases b with
    | int b => exact congrArg int (Decimal.toString_injective (congrArg String.toList h))
    | float b => exact absurd h (render_int_ne_float a b)
  | float a =>
    cases b with
    | int b => exact absurd h.symm (render_int_ne_float b a)
    | float b => exact congrArg float (Decimal.render_injective h)

end Number

end JasonDb
