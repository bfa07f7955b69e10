import JasonDb.Lib.Crc
import JasonDb.Wal.Frame

namespace JasonDb.WalFile

open Lib

-- CRC-32 as its standard has it, bit by bit in reflected form.
def crc32BitSerial (data : Bytes) : UInt32 :=
  .ofBitVec (~~~ Crc.run 0xEDB88320#32 0xFFFFFFFF#32 (Crc.bits data))

-- The table after the first `count` rounds of the outer loop.
def crc32TableUpTo (count : Nat) : Vector UInt32 256 :=
  (List.range count).foldl
    (fun table i => table.setIfInBounds i (Nat.repeat crc32Round 8 (UInt32.ofNat i)))
    (Vector.replicate 256 0)

def generateCrc32Table : Vector UInt32 256 := crc32TableUpTo 256

theorem lowByte_lt (crc : UInt32) : (crc &&& 0xFF).toNat < 256 := by
  rw [UInt32.toNat_and]
  exact Nat.lt_of_le_of_lt Nat.and_le_right (by decide)

-- `crc32_ieee` with its table, which `crc32Ieee` has entry by entry.
def crc32IeeeTable (data : Bytes) : UInt32 :=
  let CRC32_TABLE := generateCrc32Table
  ~~~ data.foldl
    (fun crc byte =>
      (crc >>> 8) ^^^ CRC32_TABLE.get ⟨((crc ^^^ byte.toUInt32) &&& 0xFF).toNat, lowByte_lt _⟩)
    0xFFFFFFFF

section Table

theorem getElem_crc32TableUpTo (count i : Nat) (hi : i < 256) :
    (crc32TableUpTo count)[i] = if i < count then crc32TableEntry (UInt32.ofNat i) else 0 := by
  induction count with
  | zero => simp [crc32TableUpTo]
  | succ count ih =>
    have hnext : crc32TableUpTo (count + 1) =
        (crc32TableUpTo count).setIfInBounds count (crc32TableEntry (UInt32.ofNat count)) := by
      simp only [crc32TableUpTo, List.range_succ, List.foldl_append, List.foldl_cons,
        List.foldl_nil]
      rfl
    simp only [hnext, Vector.getElem_setIfInBounds, ih]
    by_cases heq : count = i
    · subst heq
      rw [if_pos rfl, if_pos (Nat.lt_succ_self count)]
    · rw [if_neg heq]
      congr 1
      simp only [eq_iff_iff]
      omega

theorem get_generateCrc32Table (crc : UInt32) :
    generateCrc32Table.get ⟨(crc &&& 0xFF).toNat, lowByte_lt crc⟩ = crc32TableEntry (crc &&& 0xFF) := by
  have hentry := getElem_crc32TableUpTo 256 (crc &&& 0xFF).toNat (lowByte_lt crc)
  rw [if_pos (lowByte_lt crc), UInt32.ofNat_toNat] at hentry
  exact hentry

theorem crc32IeeeTable_eq (data : Bytes) : crc32IeeeTable data = crc32Ieee data := by
  simp only [crc32IeeeTable, crc32Ieee, get_generateCrc32Table]

end Table

section BitSerial

theorem toBitVec_crc32Round (crc : UInt32) :
    (crc32Round crc).toBitVec = Crc.shift 0xEDB88320#32 crc.toBitVec := by
  have hlow : crc &&& 1 ≠ 0 ↔ crc.toBitVec.getLsbD 0 = true := by
    rw [ne_eq, ← UInt32.toBitVec_inj, UInt32.toBitVec_and]
    have hand : crc.toBitVec &&& (1 : UInt32).toBitVec =
        (BitVec.ofBool (crc.toBitVec.getLsbD 0)).setWidth 32 :=
      BitVec.and_one_eq_setWidth_ofBool_getLsbD
    rw [hand]
    cases crc.toBitVec.getLsbD 0 <;> decide
  unfold crc32Round Crc.shift
  by_cases h : crc.toBitVec.getLsbD 0 = true
  · rw [if_pos (hlow.mpr h), if_pos h]
    rfl
  · rw [if_neg fun hne => h (hlow.mp hne), if_neg h]
    rfl

theorem toBitVec_crc32TableEntry (i : UInt32) :
    (crc32TableEntry i).toBitVec = Crc.shifts 0xEDB88320#32 8 i.toBitVec := by
  have hrepeat : ∀ n, (Nat.repeat crc32Round n i).toBitVec =
      Crc.shifts 0xEDB88320#32 n i.toBitVec := by
    intro n
    induction n with
    | zero => rfl
    | succ n ih =>
      rw [Nat.repeat, toBitVec_crc32Round, ih]
      rfl
  exact hrepeat 8

-- One turn of the loop is eight bits of the register.
theorem toBitVec_crc32_byte (crc : UInt32) (byte : UInt8) :
    ((crc >>> 8) ^^^ crc32TableEntry ((crc ^^^ byte.toUInt32) &&& 0xFF)).toBitVec =
      Crc.run 0xEDB88320#32 crc.toBitVec (Crc.bitsOf byte.toBitVec) := by
  have hhigh : (byte.toBitVec.setWidth 32) >>> 8 = 0#32 := by
    apply BitVec.eq_of_getLsbD_eq
    intro i _
    rw [BitVec.getLsbD_ushiftRight, BitVec.getLsbD_setWidth,
      BitVec.getLsbD_of_ge byte.toBitVec (8 + i) (by omega), Bool.and_false, BitVec.getLsbD_zero]
  rw [Crc.run_bitsOf (by decide) (by decide), Crc.shifts_eq, BitVec.ushiftRight_xor_distrib, hhigh,
    BitVec.xor_zero, UInt32.toBitVec_xor, toBitVec_crc32TableEntry]
  rfl

theorem toBitVec_crc32Ieee (data : Bytes) :
    (crc32Ieee data).toBitVec = ~~~ Crc.run 0xEDB88320#32 0xFFFFFFFF#32 (Crc.bits data) := by
  have hfold : ∀ (data : Bytes) (crc : UInt32),
      (data.foldl (fun (crc : UInt32) (byte : UInt8) =>
        (crc >>> 8) ^^^ crc32TableEntry ((crc ^^^ byte.toUInt32) &&& 0xFF)) crc).toBitVec =
      Crc.run 0xEDB88320#32 crc.toBitVec (Crc.bits data) := by
    intro data
    induction data with
    | nil => exact fun _ => rfl
    | cons byte data ih =>
      intro crc
      rw [List.foldl_cons, ih, toBitVec_crc32_byte, Crc.bits_cons, Crc.run_append]
  rw [crc32Ieee, UInt32.toBitVec_not, hfold]
  rfl

theorem crc32Ieee_bitSerial (data : Bytes) :
    crc32IeeeTable data = crc32BitSerial data ∧ crc32Ieee data = crc32BitSerial data := by
  have hserial : crc32Ieee data = crc32BitSerial data :=
    UInt32.toBitVec_inj.mp (toBitVec_crc32Ieee data)
  exact ⟨(crc32IeeeTable_eq data).trans hserial, hserial⟩

end BitSerial

end JasonDb.WalFile
