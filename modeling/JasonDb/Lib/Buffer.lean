import JasonDb.Lib.Bytes

namespace JasonDb.Lib

-- `data[start..stop]`, `none` where that is out of range.
def range? (data : Bytes) (start stop : Nat) : Option Bytes :=
  if start ≤ stop ∧ stop ≤ data.length then some ((data.drop start).take (stop - start)) else none

theorem range?_eq_none {data : Bytes} {start stop : Nat} :
    range? data start stop = none ↔ stop < start ∨ data.length < stop := by
  unfold range?
  split
  · simp
    omega
  · simp
    omega

theorem length_range? {data field : Bytes} {start stop : Nat} (h : range? data start stop = some field) :
    field.length = stop - start := by
  unfold range? at h
  split_ifs at h with hrange
  obtain rfl := Option.some.inj h
  rw [List.length_take, List.length_drop]
  omega

-- A field between the bytes before and after it.
theorem range?_middle (front field back : Bytes) {start stop : Nat} (hstart : start = front.length)
    (hstop : stop = front.length + field.length) :
    range? (front ++ (field ++ back)) start stop = some field := by
  subst hstart hstop
  unfold range?
  rw [if_pos (by simp only [List.length_append]; omega), List.drop_left, Nat.add_sub_cancel_left,
    List.take_left]

-- A buffer that is filled from its start.
structure Cursor where
  data : Bytes
  offset : Nat

namespace Cursor

-- `data[offset..offset + src.len()].copy_from_slice(src)`, `none` where that is out of range.
def write (c : Cursor) (src : Bytes) : Option Cursor :=
  if c.offset + src.length ≤ c.data.length then
    some ⟨c.data.take c.offset ++ src ++ c.data.drop (c.offset + src.length), c.offset + src.length⟩
  else none

-- The buffer after these bytes.
def after (data written : Bytes) : Cursor := ⟨written ++ data.drop written.length, written.length⟩

def writeAll (c : Cursor) : List Bytes → Option Cursor
  | [] => some c
  | src :: rest => (c.write src).bind fun c => c.writeAll rest

variable {data written : Bytes}

theorem write_after (h : written.length ≤ data.length) (src : Bytes) :
    (after data written).write src =
      if written.length + src.length ≤ data.length then some (after data (written ++ src)) else none := by
  have hlen : (written ++ data.drop written.length).length = data.length := by
    rw [List.length_append, List.length_drop]
    omega
  unfold write after
  rw [hlen]
  split
  · rw [List.take_left, List.drop_length_add_append, List.drop_drop, List.length_append]
  · rfl

theorem writeAll_after (h : written.length ≤ data.length) (fields : List Bytes) :
    (after data written).writeAll fields =
      if written.length + fields.flatten.length ≤ data.length then
        some (after data (written ++ fields.flatten)) else none := by
  induction fields generalizing written with
  | nil => simp [writeAll, h]
  | cons src rest ih =>
    rw [writeAll, write_after h, List.flatten_cons, List.length_append]
    by_cases hsrc : written.length + src.length ≤ data.length
    · rw [if_pos hsrc, Option.bind_some, ih (by rw [List.length_append]; exact hsrc),
        List.length_append, List.append_assoc, Nat.add_assoc]
    · rw [if_neg hsrc, if_neg (by omega)]
      rfl

-- The fields stand one after the other at the start of the buffer, the rest is as it was.
theorem writeAll_start (data : Bytes) (fields : List Bytes) :
    (Cursor.mk data 0).writeAll fields =
      if fields.flatten.length ≤ data.length then some (after data fields.flatten) else none := by
  have hempty : ([] : Bytes).length ≤ data.length := Nat.zero_le data.length
  simpa [after] using writeAll_after hempty fields

end Cursor

-- The bytes of a text, and the text of bytes that are valid UTF-8.
def utf8 (s : String) : Bytes := s.toByteArray.data.toList

def fromUtf8 (data : Bytes) : Option String := String.fromUTF8? ⟨data.toArray⟩

@[simp] theorem length_utf8 (s : String) : (utf8 s).length = s.utf8ByteSize := rfl

@[simp] theorem fromUtf8_utf8 (s : String) : fromUtf8 (utf8 s) = some s := by
  unfold fromUtf8 utf8
  rw [Array.toArray_toList]
  exact dif_pos s.isValidUTF8

theorem utf8_append (s t : String) : utf8 (s ++ t) = utf8 s ++ utf8 t := by
  unfold utf8
  rw [String.toByteArray_append, ByteArray.data_append, Array.toList_append]

theorem exists_utf8_replicate (n : Nat) : ∃ s : String, utf8 s = List.replicate n 0 := by
  induction n with
  | zero => exact ⟨"", rfl⟩
  | succ n ih =>
    obtain ⟨s, hs⟩ := ih
    refine ⟨"\x00" ++ s, ?_⟩
    rw [utf8_append, hs]
    rfl

def repeated (c : Char) : Nat → String
  | 0 => ""
  | n + 1 => String.singleton c ++ repeated c n

theorem utf8ByteSize_repeated (c : Char) (n : Nat) :
    (repeated c n).utf8ByteSize = n * c.utf8Size := by
  induction n with
  | zero => simp [repeated]
  | succ n ih =>
    rw [repeated, String.utf8ByteSize_append, String.utf8ByteSize_singleton, ih, Nat.succ_mul]
    omega

theorem count_repeated (c d : Char) (n : Nat) :
    (repeated d n).toList.count c = if c = d then n else 0 := by
  induction n with
  | zero => simp [repeated]
  | succ n ih =>
    rw [repeated, String.toList_append, List.count_append, ih]
    by_cases h : c = d
    · simp [h, Nat.add_comm]
    · simp [h, Ne.symm h]

-- Texts of `len` bytes, one for each number up to `len`.
def numbered (len i : Nat) : String := repeated 'b' i ++ repeated 'a' (len - i)

theorem utf8ByteSize_numbered {len i : Nat} (h : i ≤ len) : (numbered len i).utf8ByteSize = len := by
  have ha : 'a'.utf8Size = 1 := rfl
  have hb : 'b'.utf8Size = 1 := rfl
  rw [numbered, String.utf8ByteSize_append, utf8ByteSize_repeated, utf8ByteSize_repeated, ha, hb]
  omega

theorem numbered_injective (len : Nat) : Function.Injective (numbered len) := by
  have hcount : ∀ i, (numbered len i).toList.count 'b' = i := by
    intro i
    rw [numbered, String.toList_append, List.count_append, count_repeated, count_repeated]
    exact Nat.add_zero i
  intro i j hij
  rw [← hcount i, ← hcount j, hij]

end JasonDb.Lib
