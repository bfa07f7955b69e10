import JasonDb.Lib.Bytes

namespace JasonDb.Lib

-- A byte sequence written to in the middle or past its end. A gap is filled
-- with zeros; an empty write changes nothing.
def overwrite (bytes : Bytes) (start : Nat) (data : Bytes) : Bytes :=
  if data = [] then bytes
  else bytes.take start ++ List.replicate (start - bytes.length) 0 ++ data ++
    bytes.drop (start + data.length)

section Overwrite

variable {bytes data : Bytes} {start : Nat}

@[simp] theorem overwrite_nil (bytes : Bytes) (start : Nat) : overwrite bytes start [] = bytes := by
  simp [overwrite]

theorem overwrite_eq (h : start ≤ bytes.length) :
    overwrite bytes start data = bytes.take start ++ data ++ bytes.drop (start + data.length) := by
  unfold overwrite
  split_ifs with hdata
  · subst hdata
    simp only [List.append_nil, List.length_nil, Nat.add_zero, List.take_append_drop]
  · rw [Nat.sub_eq_zero_of_le h]
    simp only [List.replicate_zero, List.append_nil]

theorem length_overwrite (h : start ≤ bytes.length) (data : Bytes) :
    (overwrite bytes start data).length = max bytes.length (start + data.length) := by
  rw [overwrite_eq h]
  simp only [List.length_append, List.length_take, List.length_drop]
  omega

theorem getElem?_overwrite_before (h : start ≤ bytes.length) {i : Nat} (hi : i < start) :
    (overwrite bytes start data)[i]? = bytes[i]? := by
  rw [overwrite_eq h, List.append_assoc,
    List.getElem?_append_left (by rw [List.length_take]; omega)]
  rw [List.getElem?_take_of_lt hi]

theorem getElem?_overwrite_within (h : start ≤ bytes.length) {i : Nat} (hi : start ≤ i)
    (hend : i < start + data.length) : (overwrite bytes start data)[i]? = data[i - start]? := by
  have hlen : (bytes.take start).length = start := by rw [List.length_take]; omega
  rw [overwrite_eq h, List.append_assoc, List.getElem?_append_right (by omega), hlen,
    List.getElem?_append_left (by omega)]

theorem getElem?_overwrite_after (h : start ≤ bytes.length) {i : Nat}
    (hend : start + data.length ≤ i) : (overwrite bytes start data)[i]? = bytes[i]? := by
  have hlen : (bytes.take start ++ data).length = start + data.length := by
    rw [List.length_append, List.length_take]
    omega
  rw [overwrite_eq h, List.getElem?_append_right (by omega), hlen, List.getElem?_drop]
  congr 1
  omega

theorem take_overwrite (h : start ≤ bytes.length) {n : Nat} (hn : n ≤ start) (data : Bytes) :
    (overwrite bytes start data).take n = bytes.take n := by
  rw [overwrite_eq h, List.append_assoc,
    List.take_append_of_le_length (by rw [List.length_take]; omega), List.take_take,
    Nat.min_eq_left hn]

-- A write in two parts is one write.
theorem overwrite_append (h : start ≤ bytes.length) (first second : Bytes) :
    overwrite (overwrite bytes start first) (start + first.length) second =
      overwrite bytes start (first ++ second) := by
  have hlen := length_overwrite h first
  have hnext : start + first.length ≤ (overwrite bytes start first).length := by omega
  apply List.ext_getElem?
  intro i
  rcases Nat.lt_or_ge i start with hi | hi
  · rw [getElem?_overwrite_before hnext (by omega), getElem?_overwrite_before h hi,
      getElem?_overwrite_before h hi]
  rcases Nat.lt_or_ge i (start + first.length) with hfirst | hfirst
  · rw [getElem?_overwrite_before hnext hfirst, getElem?_overwrite_within h hi hfirst,
      getElem?_overwrite_within h hi (by rw [List.length_append]; omega),
      List.getElem?_append_left (by omega)]
  rcases Nat.lt_or_ge i (start + first.length + second.length) with hsecond | hsecond
  · rw [getElem?_overwrite_within hnext hfirst hsecond,
      getElem?_overwrite_within h hi (by rw [List.length_append]; omega),
      List.getElem?_append_right (by omega)]
    congr 1
    omega
  · rw [getElem?_overwrite_after hnext hsecond, getElem?_overwrite_after h hfirst,
      getElem?_overwrite_after h (by rw [List.length_append]; omega)]

end Overwrite

-- An open file: the bytes a process reads, those a crash cannot take away, and
-- the position of the cursor that every handle cloned from the file shares.
structure File where
  bytes : Bytes
  durable : Bytes
  cursor : Nat

namespace File

def seek (f : File) (position : Nat) : File := { f with cursor := position }

def write (f : File) (data : Bytes) : File :=
  { f with bytes := overwrite f.bytes f.cursor data, cursor := f.cursor + data.length }

def setLen (f : File) (len : Nat) : File :=
  { f with bytes := f.bytes.take len ++ List.replicate (len - f.bytes.length) 0 }

def syncAll (f : File) : File := { f with durable := f.bytes }

-- `none` when the file ends before; the cursor is then at its end.
def readExact (f : File) (count : Nat) : Option Bytes × File :=
  if f.cursor + count ≤ f.bytes.length then
    (some ((f.bytes.drop f.cursor).take count), f.seek (f.cursor + count))
  else (none, f.seek (max f.cursor f.bytes.length))

end File

-- The record number `i` of a file of records of one size that follow a header.
structure Layout where
  header : Nat
  size : Nat

namespace Layout

variable (l : Layout)

def offset (i : Nat) : Nat := l.header + i * l.size

def slot (bytes : Bytes) (i : Nat) : Bytes := (bytes.drop (l.offset i)).take l.size

theorem offset_succ (i : Nat) : l.offset (i + 1) = l.offset i + l.size := by
  simp only [offset, Nat.succ_mul]
  omega

theorem offset_mono {i j : Nat} (h : i ≤ j) : l.offset i ≤ l.offset j := by
  have := Nat.mul_le_mul_right l.size h
  simp only [offset]
  omega

theorem offset_lt {i j : Nat} (h : i < j) : l.offset i + l.size ≤ l.offset j := by
  rw [← l.offset_succ]
  exact l.offset_mono h

@[simp] theorem offset_zero : l.offset 0 = l.header := by
  simp [offset]

section Slot

variable {l : Layout} {bytes data : Bytes} {start : Nat}

theorem getElem?_slot (bytes : Bytes) (i k : Nat) :
    (l.slot bytes i)[k]? = if k < l.size then bytes[l.offset i + k]? else none := by
  unfold slot
  split_ifs with hk
  · rw [List.getElem?_take_of_lt hk, List.getElem?_drop]
  · exact List.getElem?_take_eq_none (by omega)

theorem slot_congr {other : Bytes} {i : Nat}
    (h : ∀ k, l.offset i ≤ k → k < l.offset i + l.size → other[k]? = bytes[k]?) :
    l.slot other i = l.slot bytes i := by
  apply List.ext_getElem?
  intro k
  rw [getElem?_slot, getElem?_slot]
  split_ifs with hk
  · exact h _ (by omega) (by omega)
  · rfl

theorem slot_overwrite_before (h : start ≤ bytes.length) {i : Nat}
    (hi : l.offset i + l.size ≤ start) : l.slot (overwrite bytes start data) i = l.slot bytes i := by
  apply slot_congr
  intro k _ hk
  exact getElem?_overwrite_before h (by omega)

theorem slot_overwrite_after (h : start ≤ bytes.length) {i : Nat}
    (hi : start + data.length ≤ l.offset i) :
    l.slot (overwrite bytes start data) i = l.slot bytes i := by
  apply slot_congr
  intro k hk _
  exact getElem?_overwrite_after h (by omega)

theorem slot_overwrite_self {i : Nat} (h : l.offset i ≤ bytes.length)
    (hdata : data.length = l.size) : l.slot (overwrite bytes (l.offset i) data) i = data := by
  apply List.ext_getElem?
  intro k
  rw [getElem?_slot]
  split_ifs with hk
  · rw [getElem?_overwrite_within h (by omega) (by omega)]
    congr 1
    omega
  · rw [List.getElem?_eq_none]
    omega

theorem slot_short {i : Nat} (h : bytes.length ≤ l.offset i) : l.slot bytes i = [] := by
  unfold slot
  rw [List.drop_eq_nil_of_le h, List.take_nil]

theorem length_slot (bytes : Bytes) (i : Nat) :
    (l.slot bytes i).length = min l.size (bytes.length - l.offset i) := by
  simp only [slot, List.length_take, List.length_drop]

end Slot

-- The records recognised in a file: those before the first slot that does not
-- hold a valid one.
section Scan

variable {ρ : Type} (decode : Bytes → Option ρ)

def scanFrom (bytes : Bytes) : Nat → Nat → List ρ
  | 0, _ => []
  | fuel + 1, i =>
    match decode (l.slot bytes i) with
    | some r => r :: scanFrom bytes fuel (i + 1)
    | none => []

def capacity (bytes : Bytes) : Nat := (bytes.length - l.header) / l.size

def scan (bytes : Bytes) : List ρ := l.scanFrom decode bytes (l.capacity bytes) 0

-- The file starts with these records, whatever follows.
def Holds (bytes : Bytes) (records : List ρ) : Prop :=
  ∀ i r, records[i]? = some r → decode (l.slot bytes i) = some r

-- A decoder that accepts no incomplete record.
def Whole : Prop := ∀ data r, decode data = some r → data.length = l.size

variable {l decode} {bytes : Bytes}

theorem Whole.lt_capacity (hw : l.Whole decode) (hsize : 0 < l.size) {i : Nat} {r : ρ}
    (h : decode (l.slot bytes i) = some r) : i < l.capacity bytes := by
  have hlen := hw _ _ h
  rw [length_slot] at hlen
  have hfit : (i + 1) * l.size ≤ bytes.length - l.header := by
    have hoff := l.offset_succ i
    simp only [offset] at hlen hoff
    omega
  exact (Nat.le_div_iff_mul_le hsize).mpr hfit

theorem Holds.length_le (hw : l.Whole decode) {records : List ρ} (h : l.Holds decode bytes records)
    (hheader : l.header ≤ bytes.length) : l.offset records.length ≤ bytes.length := by
  rcases Nat.eq_zero_or_pos records.length with hzero | hpos
  · rw [hzero, offset_zero]
    exact hheader
  · obtain ⟨r, hr⟩ : ∃ r, records[records.length - 1]? = some r :=
      ⟨_, List.getElem?_eq_getElem (by omega)⟩
    have hlen := hw _ _ (h _ _ hr)
    rw [length_slot] at hlen
    have hoff := l.offset_succ (records.length - 1)
    rw [Nat.sub_add_cancel hpos] at hoff
    rcases Nat.eq_zero_or_pos l.size with hsize | hsize
    · simp only [offset, hsize] at hoff ⊢
      omega
    · omega

theorem scanFrom_eq {records : List ρ} {fuel i : Nat}
    (h : ∀ k r, records[k]? = some r → decode (l.slot bytes (i + k)) = some r)
    (hend : decode (l.slot bytes (i + records.length)) = none) (hfuel : records.length ≤ fuel) :
    l.scanFrom decode bytes fuel i = records := by
  induction records generalizing fuel i with
  | nil =>
    cases fuel with
    | zero => rfl
    | succ fuel => simp only [scanFrom, show decode (l.slot bytes i) = none from hend]
  | cons r records ih =>
    obtain ⟨fuel, rfl⟩ : ∃ n, fuel = n + 1 := ⟨fuel - 1, by simp at hfuel; omega⟩
    have hr : decode (l.slot bytes i) = some r := h 0 r rfl
    simp only [scanFrom, hr]
    rw [ih]
    · intro k r' hk
      have := h (k + 1) r' hk
      rwa [← Nat.add_assoc, Nat.add_right_comm] at this
    · rw [List.length_cons, ← Nat.add_assoc, Nat.add_right_comm] at hend
      exact hend
    · simpa using hfuel

theorem scanFrom_holds (fuel i k : Nat) {r : ρ}
    (h : (l.scanFrom decode bytes fuel i)[k]? = some r) :
    decode (l.slot bytes (i + k)) = some r := by
  induction fuel generalizing i k with
  | zero => simp [scanFrom] at h
  | succ fuel ih =>
    simp only [scanFrom] at h
    split at h
    · next r' hr' =>
      cases k with
      | zero => simpa [← h] using hr'
      | succ k =>
        have := ih (i + 1) k (by simpa using h)
        rwa [Nat.add_right_comm, Nat.add_assoc] at this
    · simp at h

theorem scanFrom_stops (fuel i : Nat) (h : (l.scanFrom decode bytes fuel i).length < fuel) :
    decode (l.slot bytes (i + (l.scanFrom decode bytes fuel i).length)) = none := by
  induction fuel generalizing i with
  | zero => simp at h
  | succ fuel ih =>
    simp only [scanFrom] at h ⊢
    split at h
    · next r hr =>
      have := ih (i + 1) (by simpa using h)
      simp only [List.length_cons]
      rwa [Nat.add_right_comm, Nat.add_assoc] at this
    · next hnone =>
      simp only [hnone, List.length_nil, Nat.add_zero]

theorem scan_holds : l.Holds decode bytes (l.scan decode bytes) := by
  intro i r hr
  simpa using scanFrom_holds _ 0 i hr

theorem scan_stops (hw : l.Whole decode) (hsize : 0 < l.size) :
    decode (l.slot bytes (l.scan decode bytes).length) = none := by
  rcases Nat.lt_or_ge (l.scan decode bytes).length (l.capacity bytes) with hlt | hge
  · have hstop := scanFrom_stops (l.capacity bytes) 0 hlt
    rwa [Nat.zero_add] at hstop
  · by_contra hne
    obtain ⟨r, hr⟩ := Option.ne_none_iff_exists'.mp hne
    have := hw.lt_capacity hsize hr
    omega

theorem scan_eq (hw : l.Whole decode) (hsize : 0 < l.size) {records : List ρ}
    (h : l.Holds decode bytes records) (hend : decode (l.slot bytes records.length) = none) :
    l.scan decode bytes = records := by
  apply scanFrom_eq
  · intro k r hk
    rw [Nat.zero_add]
    exact h k r hk
  · rw [Nat.zero_add]
    exact hend
  · rcases Nat.eq_zero_or_pos records.length with hzero | hpos
    · omega
    · have hr := h (records.length - 1) _ (List.getElem?_eq_getElem (by omega))
      have := hw.lt_capacity hsize hr
      omega

-- Nothing is recognised beyond records that a file holds in their own slots.
theorem scan_prefix {records : List ρ}
    (h : ∀ i r, i ≤ records.length → decode (l.slot bytes i) = some r → records[i]? = some r) :
    l.scan decode bytes <+: records := by
  have hle : (l.scan decode bytes).length ≤ records.length := by
    by_contra hlt
    have hin : records.length < (l.scan decode bytes).length := by omega
    have hr := scan_holds records.length _ (List.getElem?_eq_getElem hin)
    have := h _ _ (Nat.le_refl _) hr
    simp at this
  rw [List.prefix_iff_getElem?]
  intro i hi
  exact h i _ (by omega) (scan_holds i _ (List.getElem?_eq_getElem hi))

theorem Holds.prefix_scan (hw : l.Whole decode) (hsize : 0 < l.size) {records : List ρ}
    (h : l.Holds decode bytes records) : records <+: l.scan decode bytes := by
  have hle : records.length ≤ (l.scan decode bytes).length := by
    by_contra hlt
    have hin : (l.scan decode bytes).length < records.length := by omega
    have hr := h _ _ (List.getElem?_eq_getElem hin)
    rw [scan_stops hw hsize] at hr
    cases hr
  rw [List.prefix_iff_getElem?]
  intro i hi
  have hin : i < (l.scan decode bytes).length := by omega
  have hr := h i _ (List.getElem?_eq_getElem hi)
  rw [scan_holds i _ (List.getElem?_eq_getElem hin)] at hr
  rw [List.getElem?_eq_getElem hin]
  exact hr

-- A slot that is spoiled ends the log there, whatever follows it.
theorem scan_eq_take (hw : l.Whole decode) (hsize : 0 < l.size) {other : Bytes} {i : Nat}
    (hbefore : ∀ j, j < i → l.slot other j = l.slot bytes j)
    (hspoiled : decode (l.slot other i) = none) :
    l.scan decode other = (l.scan decode bytes).take i := by
  apply scan_eq hw hsize
  · intro j r hj
    have hlt : j < i := by
      by_contra hge
      rw [List.getElem?_take_eq_none (by omega)] at hj
      cases hj
    rw [List.getElem?_take_of_lt hlt] at hj
    rw [hbefore j hlt]
    exact scan_holds j r hj
  · rw [List.length_take]
    rcases Nat.lt_or_ge (l.scan decode bytes).length i with hlt | hge
    · rw [Nat.min_eq_right (by omega), hbefore _ hlt]
      exact scan_stops hw hsize
    · rw [Nat.min_eq_left hge]
      exact hspoiled

end Scan

end Layout

end JasonDb.Lib
