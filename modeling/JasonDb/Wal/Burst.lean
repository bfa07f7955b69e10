import JasonDb.Wal.Checksum
import JasonDb.Wal.Log

namespace JasonDb.WalFile

open Lib

-- What the checksum of a frame covers, and then the checksum.
def codeword (frame : WALFrame) : Bytes :=
  leBytes 8 frame.txId.toNat ++ leBytes 8 frame.pageNum.toNat ++ frame.pageData ++
    leBytes 4 frame.checksum.toNat

section Rejected

variable {header : WALHeader} {frame : WALFrame}

theorem serializeFrame_parseFrame {data : Bytes} (h : data.length = WAL_FRAME_SIZE) :
    serializeFrame (parseFrame data) = data := by
  have hfield : ∀ start len : Nat, start + len ≤ WAL_FRAME_SIZE →
      leBytes len (ofLeBytes (slice data start len)) = slice data start len := by
    intro start len hle
    have hlen : (slice data start len).length = len := by
      rw [slice, List.length_take, List.length_drop]
      omega
    have hback := leBytes_ofLeBytes (slice data start len)
    rwa [hlen] at hback
  have h64 : ∀ n : Nat, leBytes 8 (UInt64.ofNat n).toNat = leBytes 8 n := by
    intro n
    rw [UInt64.toNat_ofNat']
    exact leBytes_mod 8 n
  have h32 : ∀ n : Nat, leBytes 4 (UInt32.ofNat n).toNat = leBytes 4 n := by
    intro n
    rw [UInt32.toNat_ofNat']
    exact leBytes_mod 4 n
  -- Neighbouring fields make up one slice.
  have hjoin : ∀ start len more : Nat,
      slice data start len ++ slice data (start + len) more = slice data start (len + more) := by
    intro start len more
    simp only [slice]
    rw [List.take_add, List.drop_drop]
  simp only [serializeFrame, parseFrame, h64, h32]
  rw [hfield 0 8 (by decide), hfield 8 8 (by decide), hfield 16 4 (by decide),
    hfield 20 4 (by decide), hfield (24 + PAGE_SIZE) 4 (by decide), hjoin 0 8 8, hjoin 0 16 4,
    hjoin 0 20 4, hjoin 0 24 PAGE_SIZE]
  have hlast := hjoin 0 (24 + PAGE_SIZE) 4
  rw [Nat.zero_add] at hlast
  rw [hlast, slice, List.drop_zero]
  exact List.take_of_length_le (Nat.le_of_eq h)

theorem codeword_eq (frame : WALFrame) :
    (serializeFrame frame).take 16 ++ (serializeFrame frame).drop (16 + 8) = codeword frame := by
  have hcut : ∀ ids salts rest : Bytes, ids.length = 16 → salts.length = 8 →
      (ids ++ (salts ++ rest)).take 16 ++ (ids ++ (salts ++ rest)).drop (16 + 8) = ids ++ rest := by
    intro ids salts rest hids hsalts
    rw [← hids, ← hsalts, List.take_left, ← List.drop_drop, List.drop_left, List.drop_left]
  have hframe := hcut (leBytes 8 frame.txId.toNat ++ leBytes 8 frame.pageNum.toNat)
    (leBytes 4 frame.salt1.toNat ++ leBytes 4 frame.salt2.toNat)
    (frame.pageData ++ leBytes 4 frame.checksum.toNat) (by simp) (by simp)
  simp only [List.append_assoc] at hframe
  simpa only [serializeFrame, codeword, List.append_assoc] using hframe

theorem slice_serializeFrame (frame : WALFrame) : slice (serializeFrame frame) 16 8 =
    leBytes 4 frame.salt1.toNat ++ leBytes 4 frame.salt2.toNat := by
  have hsalts := slice_middle (leBytes 8 frame.txId.toNat ++ leBytes 8 frame.pageNum.toNat)
    (leBytes 4 frame.salt1.toNat ++ leBytes 4 frame.salt2.toNat)
    (frame.pageData ++ leBytes 4 frame.checksum.toNat) 16 (by simp) (show _ = 8 by simp)
  simp only [List.append_assoc] at hsalts
  simpa only [serializeFrame, List.append_assoc] using hsalts

-- Over the codeword of any accepted frame the register ends the same.
theorem run_codeword (h : header.accepts frame) :
    Crc.run 0xEDB88320#32 0xFFFFFFFF#32 (Crc.bits (codeword frame)) =
      Crc.shifts 0xEDB88320#32 32
        (BitVec.allOnes 32 ^^^ header.salt1.toBitVec ^^^ header.salt2.toBitVec) := by
  let covered := leBytes 8 frame.txId.toNat ++ leBytes 8 frame.pageNum.toNat ++ frame.pageData
  simp only [WALHeader.accepts, Bool.and_eq_true, decide_eq_true_eq] at h
  obtain ⟨⟨hsalt1, hsalt2⟩, hsum⟩ := h
  have hstored : frame.checksum.toBitVec =
      ~~~ Crc.run 0xEDB88320#32 0xFFFFFFFF#32 (Crc.bits covered) ^^^ header.salt1.toBitVec ^^^
        header.salt2.toBitVec := by
    rw [hsum, calculateChecksum, UInt32.toBitVec_xor, UInt32.toBitVec_xor, toBitVec_crc32Ieee,
      hsalt1, hsalt2]
  have hbits : Crc.bits (codeword frame) = Crc.bits covered ++ Crc.bitsOf frame.checksum.toBitVec := by
    rw [show codeword frame = covered ++ leBytes 4 frame.checksum.toNat from rfl, Crc.bits_append,
      Crc.bits_leBytes]
    congr 2
    exact BitVec.ofNat_toNat 32 frame.checksum.toBitVec
  rw [hbits, Crc.run_check (by decide), hstored]
  congr 1
  generalize Crc.run 0xEDB88320#32 0xFFFFFFFF#32 (Crc.bits covered) = r
  rw [← BitVec.allOnes_xor, ← BitVec.xor_assoc, ← BitVec.xor_assoc, ← BitVec.xor_assoc,
    BitVec.xor_comm r, BitVec.xor_assoc (BitVec.allOnes 32), BitVec.xor_self, BitVec.xor_zero]

-- No burst of up to four bytes takes one accepted frame to another. The salts
-- are longer than that, so a burst that leaves them alone lies on one side.
theorem decode_of_burst (hframe : header.accepts frame)
    (hsize : frame.pageData.length = PAGE_SIZE) {changed : Bytes}
    (hburst : Crc.Burst 4 (serializeFrame frame) changed) : header.accepts (parseFrame changed) = false := by
  by_contra haccepts
  rw [Bool.not_eq_false] at haccepts
  have hlen : changed.length = WAL_FRAME_SIZE := by
    rw [hburst.length_eq, length_serializeFrame hsize]
  have hchanged := serializeFrame_parseFrame hlen
  have hsalts : ∀ i, 16 ≤ i → i < 16 + 8 → changed[i]? = (serializeFrame frame)[i]? := by
    intro i hi hend
    have hbyte : ∀ data : Bytes, data[i]? = (slice data 16 8)[i - 16]? := by
      intro data
      rw [slice, List.getElem?_take_of_lt (by omega), List.getElem?_drop, Nat.add_sub_cancel' hi]
    have hsame : ∀ frame : WALFrame, header.accepts frame →
        frame.salt1 = header.salt1 ∧ frame.salt2 = header.salt2 := by
      intro frame h
      simp only [WALHeader.accepts, Bool.and_eq_true, decide_eq_true_eq] at h
      exact h.1
    obtain ⟨h1, h2⟩ := hsame _ hframe
    obtain ⟨h1', h2'⟩ := hsame _ haccepts
    rw [hbyte changed, hbyte (serializeFrame frame), ← hchanged, slice_serializeFrame,
      slice_serializeFrame, h1, h2, h1', h2']
  have hcut := hburst.cut (by decide) (by rw [length_serializeFrame hsize]; decide) hsalts
  rw [codeword_eq, ← hchanged, codeword_eq] at hcut
  have hsame : Crc.run 0xEDB88320#32 0xFFFFFFFF#32 (Crc.bits (codeword (parseFrame changed))) =
      Crc.run 0xEDB88320#32 0xFFFFFFFF#32 (Crc.bits (codeword frame)) := by
    rw [run_codeword haccepts, run_codeword hframe]
  exact Crc.run_ne_of_burst rfl (by decide) hcut hsame

end Rejected

namespace WALInner

-- The log file with other bytes in one slot.
def spoiled (w : WALInner) (i : Nat) (data : Bytes) : WALInner :=
  { w with file := { w.file with bytes := overwrite w.file.bytes (layout.offset i) data } }

section Spoiled

variable {w : WALInner} {i : Nat} {data : Bytes}

theorem recognised_spoiled (hplace : layout.offset i ≤ w.file.bytes.length)
    (hlen : data.length = WAL_FRAME_SIZE) (hbad : w.header.decode data = none) :
    (w.spoiled i data).recognised = w.recognised.take i := by
  apply Layout.scan_eq_take (whole_decode _) frameSize_pos
  · intro j hj
    exact Layout.slot_overwrite_before hplace (layout.offset_lt hj)
  · change w.header.decode (layout.slot (overwrite w.file.bytes (layout.offset i) data) i) = none
    rw [Layout.slot_overwrite_self hplace hlen]
    exact hbad

-- A checkpoint that can read the log back moves the frames that `count_frames` recognises, and no
-- others.
theorem checkpoint_pages (checks : Bool) (faults : Faults) :
    (w.checkpoint checks faults).2.1 = (w.copyBack checks faults).2.1 := by
  unfold checkpoint
  rcases w.copyBack checks faults with ⟨_ | _, written, v⟩
  · rfl
  · split_ifs <;> rfl

theorem magic_of_reopen {faults : Faults} {bytes : Bytes} (h : reopen faults bytes = .ok w) :
    (WALHeader.parse (bytes.take WAL_HEADER_SIZE)).magic = WAL_MAGIC := by
  by_contra hne
  simp [reopen, hne] at h
  split_ifs at h

-- A burst takes away counted frames from slot `i` on, whichever read fails.
theorem counted_min (faults : Faults) (i count : Nat) :
    faults.counted (min i count) = min i (faults.counted count) := by
  unfold Faults.counted
  split
  · exact (Nat.min_zero i).symm
  · cases faults.slot with
    | none => rfl
    | some fault => exact Nat.min_left_comm fault.1 i count

-- The next open of the spoiled file.
theorem reopen_spoiled {faults : Faults} {v : WALInner} (hopen : reopen faults w.file.bytes = .ok v)
    (hplace : layout.offset i ≤ w.file.bytes.length) (data : Bytes) :
    ∃ v', reopen faults (w.spoiled i data).file.bytes = .ok v' ∧ v'.header = v.header ∧
      v'.file.bytes = (w.spoiled i data).file.bytes ∧
      v'.frameNum = faults.counted v'.recognised.length := by
  obtain ⟨hlen, -, -, -, hheader, -, -⟩ := reopen_spec hopen
  have hfront : (w.spoiled i data).file.bytes.take WAL_HEADER_SIZE =
      w.file.bytes.take WAL_HEADER_SIZE :=
    take_overwrite hplace (layout.offset_mono (Nat.zero_le i)) data
  have hlong := length_overwrite hplace data
  obtain ⟨v', hv'⟩ : ∃ v', reopen faults (w.spoiled i data).file.bytes = .ok v' := by
    apply reopen_ok faults
    · simp only [spoiled, hlong]
      omega
    · rw [hfront]
      exact magic_of_reopen hopen
  obtain ⟨-, hbytes', -, -, hheader', -, hnum'⟩ := reopen_spec hv'
  exact ⟨v', hv', by rw [hheader', hfront, hheader], hbytes', hnum'⟩

end Spoiled

-- A burst of up to four bytes in a stored frame: no check accepts the frame any
-- more, and neither this process nor the next recovers it or what follows it,
-- whatever file operations fail on the way.
theorem burst_left_out {w : WALInner} {i : Nat} {txId pageNum : UInt64} {pageData changed : Bytes}
    (hsize : pageData.length = PAGE_SIZE)
    (hstored : layout.slot w.file.bytes i = serializeFrame (w.header.frame txId pageNum pageData))
    (hburst : Crc.Burst 4 (serializeFrame (w.header.frame txId pageNum pageData)) changed) :
    ((parseFrame changed).salt1 ≠ w.header.salt1 ∨ (parseFrame changed).salt2 ≠ w.header.salt2 ∨
      (parseFrame changed).checksum ≠ calculateChecksum (parseFrame changed)) ∧
    (w.spoiled i changed).recognised = w.recognised.take i ∧
    (∀ faults, ((w.spoiled i changed).countFrames faults).1 = min i (w.countFrames faults).1) ∧
    (∀ checks faults, (faults.Readable → ((w.spoiled i changed).checkpoint checks faults).2.1 =
        (writePagesDirect checks faults (pageMap (w.recognised.take i)).toList).2) ∧
      ∃ k ≤ i, ((w.spoiled i changed).checkpoint checks faults).2.1 =
        (writePagesDirect checks faults (pageMap (w.recognised.take k)).toList).2) ∧
    ∀ faults v, reopen faults w.file.bytes = .ok v → v.header = w.header →
      ∃ v', reopen faults (w.spoiled i changed).file.bytes = .ok v' ∧ v'.header = v.header ∧
        v'.recognised = v.recognised.take i ∧ v'.frameNum = min i v.frameNum := by
  have hframe := accepts_frame w.header txId pageNum pageData
  have hrejected := decode_of_burst hframe hsize hburst
  have hlen : changed.length = WAL_FRAME_SIZE := by
    rw [hburst.length_eq]
    exact length_serializeFrame hsize
  have hbad : w.header.decode changed = none := by
    rw [WALHeader.decode, if_neg]
    rintro ⟨-, haccepts⟩
    rw [hrejected] at haccepts
    cases haccepts
  have hplace : layout.offset i + WAL_FRAME_SIZE ≤ w.file.bytes.length := by
    have hslot := congrArg List.length hstored
    rw [length_serializeFrame hsize, Layout.length_slot] at hslot
    have hpos : layout.size = WAL_FRAME_SIZE := rfl
    have := frameSize_pos
    omega
  have hoffset : WAL_HEADER_SIZE ≤ layout.offset i := layout.offset_mono (Nat.zero_le i)
  have hheader : WAL_HEADER_SIZE ≤ w.file.bytes.length := by omega
  have hheader' : WAL_HEADER_SIZE ≤ (w.spoiled i changed).file.bytes.length := by
    have hlong := length_overwrite (show layout.offset i ≤ w.file.bytes.length by omega) changed
    simp only [spoiled, hlong]
    omega
  have hspoiled := recognised_spoiled (show layout.offset i ≤ w.file.bytes.length by omega) hlen hbad
  refine ⟨?_, hspoiled, ?_, ?_, ?_⟩
  · simp only [WALHeader.accepts, Bool.and_eq_false_iff, decide_eq_false_iff_not] at hrejected
    rwa [or_assoc] at hrejected
  · intro faults
    rw [(countFrames_spec faults hheader').1, (countFrames_spec faults hheader).1, hspoiled,
      List.length_take, counted_min]
  · intro checks faults
    rw [checkpoint_pages, ← hspoiled]
    constructor
    · intro hf
      obtain ⟨v, hcopy, -⟩ := copyBack_readable checks hf hheader'
      rw [hcopy]
    · obtain ⟨k, hk, hpages⟩ := copyBack_pages checks faults hheader'
      rw [hspoiled, List.length_take] at hk
      refine ⟨k, by omega, ?_⟩
      rw [hpages, hspoiled, List.take_take, Nat.min_eq_left (by omega)]
  · intro faults v hopen hsame
    obtain ⟨v', hopen', hv', hbytes, hnum⟩ := reopen_spoiled hopen
      (show layout.offset i ≤ w.file.bytes.length by omega) changed
    obtain ⟨-, hb, -, -, -, -, hcount⟩ := reopen_spec hopen
    have hold : v.recognised = w.recognised := by
      simp only [recognised, hb, hsame]
    have hrec : v'.recognised = v.recognised.take i := by
      rw [hold, ← hspoiled]
      simp only [recognised, hbytes, hv', hsame]
      rfl
    exact ⟨v', hopen', hv', hrec, by rw [hnum, hcount, hrec, List.length_take, counted_min]⟩

section Sample

def sampleFrame : WALFrame := (create 1 2).header.frame 5 7 zeroPage

-- A log file with one frame.
def sampleLog : WALInner :=
  let bytes := (create 1 2).file.bytes ++ serializeFrame sampleFrame
  { create 1 2 with file := ⟨bytes, bytes, bytes.length⟩, frameNum := 1 }

theorem slot_sampleLog : layout.slot sampleLog.file.bytes 0 = serializeFrame sampleFrame := by
  change ((_ ++ serializeFrame sampleFrame).drop WAL_HEADER_SIZE).take WAL_FRAME_SIZE = _
  rw [List.drop_left' (length_create 1 2),
    List.take_of_length_le (Nat.le_of_eq (length_serializeFrame (length_filledPage 0)))]

theorem recognised_sampleLog : sampleLog.recognised = [sampleFrame] := by
  apply Layout.scan_eq (whole_decode _) frameSize_pos
  · intro i frame hi
    obtain ⟨rfl, rfl⟩ : i = 0 ∧ sampleFrame = frame := by simpa [List.getElem?_singleton] using hi
    rw [slot_sampleLog]
    exact decode_frame _ 5 7 (length_filledPage 0)
  · have hlen : sampleLog.file.bytes.length = WAL_HEADER_SIZE + WAL_FRAME_SIZE := by
      change (_ ++ serializeFrame sampleFrame).length = _
      rw [List.length_append, length_create, length_serializeFrame (length_filledPage 0)]
    rw [Layout.slot_short (Nat.le_of_eq hlen)]
    exact decode_nil _

theorem burst_sampleFrame :
    Crc.Burst 4 (serializeFrame sampleFrame) ((serializeFrame sampleFrame).set 0 99) := by
  have hlen : (serializeFrame sampleFrame).length = WAL_FRAME_SIZE :=
    length_serializeFrame (length_filledPage 0)
  have hfirst : (serializeFrame sampleFrame)[0]? = some 5 := rfl
  refine ⟨List.length_set, ?_, 0, ?_⟩
  · intro heq
    have hzero := congrArg (fun data : Bytes => data[0]?) heq
    simp only [hfirst] at hzero
    rw [List.getElem?_set_self (by rw [hlen]; decide)] at hzero
    cases hzero
  · intro i hi
    rw [List.getElem?_set_ne (by omega)]

theorem burst_left_out_first : (sampleLog.countFrames .none).1 = 1 ∧
    ((sampleLog.spoiled 0 ((serializeFrame sampleFrame).set 0 99)).countFrames .none).1 = 0 := by
  have hcount : (sampleLog.countFrames .none).1 = 1 := by
    have hheader : WAL_HEADER_SIZE ≤ sampleLog.file.bytes.length := by
      change _ ≤ (_ ++ serializeFrame sampleFrame).length
      rw [List.length_append, length_create]
      omega
    rw [(countFrames_spec .none hheader).1, recognised_sampleLog]
    rfl
  have hspoiled := burst_left_out (length_filledPage 0) slot_sampleLog burst_sampleFrame
  exact ⟨hcount, by rw [hspoiled.2.2.1 .none, Nat.zero_min]⟩

end Sample

end WALInner

end JasonDb.WalFile
