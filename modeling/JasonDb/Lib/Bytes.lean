import Mathlib.Algebra.GroupWithZero.Nat
import Mathlib.Data.List.Basic

namespace JasonDb.Lib

abbrev Bytes := List UInt8

-- Fixed-width little-endian numbers.
def leBytes : Nat → Nat → Bytes
  | 0, _ => []
  | width + 1, n => UInt8.ofNat n :: leBytes width (n / 256)

def ofLeBytes : Bytes → Nat
  | [] => 0
  | b :: bs => b.toNat + 256 * ofLeBytes bs

@[simp] theorem length_leBytes (width n : Nat) : (leBytes width n).length = width := by
  induction width generalizing n with
  | zero => rfl
  | succ width ih => simp only [leBytes, List.length_cons, ih]

theorem ofLeBytes_leBytes (width n : Nat) : ofLeBytes (leBytes width n) = n % 256 ^ width := by
  induction width generalizing n with
  | zero => simp only [leBytes, ofLeBytes, Nat.pow_zero, Nat.mod_one]
  | succ width ih =>
    have hbyte : (UInt8.ofNat n).toNat = n % 256 := UInt8.toNat_ofNat'
    simp only [leBytes, ofLeBytes, ih, hbyte]
    rw [Nat.pow_succ', Nat.mod_mul]

-- Only the last `width` bytes of a number are written.
theorem leBytes_mod (width n : Nat) : leBytes width (n % 256 ^ width) = leBytes width n := by
  induction width generalizing n with
  | zero => rfl
  | succ width ih =>
    have hlow : UInt8.ofNat (n % 256 ^ (width + 1)) = UInt8.ofNat n := by
      apply UInt8.toNat.inj
      rw [UInt8.toNat_ofNat', UInt8.toNat_ofNat', Nat.pow_succ']
      exact Nat.mod_mul_right_mod n 256 (256 ^ width)
    have hhigh : n % 256 ^ (width + 1) / 256 = n / 256 % 256 ^ width := by
      rw [Nat.pow_succ']
      exact Nat.mod_mul_right_div_self n 256 (256 ^ width)
    simp only [leBytes, hlow, hhigh, ih]

theorem leBytes_ofLeBytes (data : Bytes) : leBytes data.length (ofLeBytes data) = data := by
  induction data with
  | nil => rfl
  | cons b rest ih =>
    have hb := b.toNat_lt
    have hlow : UInt8.ofNat (b.toNat + 256 * ofLeBytes rest) = b := by
      apply UInt8.toNat.inj
      rw [UInt8.toNat_ofNat']
      omega
    have hhigh : (b.toNat + 256 * ofLeBytes rest) / 256 = ofLeBytes rest := by omega
    simp only [ofLeBytes, List.length_cons, leBytes, hlow, hhigh, ih]

theorem ofNat_ofLeBytes_uint64 (n : UInt64) : UInt64.ofNat (ofLeBytes (leBytes 8 n.toNat)) = n := by
  rw [ofLeBytes_leBytes, Nat.mod_eq_of_lt (show n.toNat < 256 ^ 8 from n.toNat_lt)]
  exact UInt64.ofNat_toNat

theorem ofNat_ofLeBytes_uint32 (n : UInt32) : UInt32.ofNat (ofLeBytes (leBytes 4 n.toNat)) = n := by
  rw [ofLeBytes_leBytes, Nat.mod_eq_of_lt (show n.toNat < 256 ^ 4 from n.toNat_lt)]
  exact UInt32.ofNat_toNat

end JasonDb.Lib
