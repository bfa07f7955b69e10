import JasonDb.Wal.Inner
import Mathlib.Data.List.DropRight
import Mathlib.Data.List.TakeWhile

namespace JasonDb.WalFile

open Lib

namespace WALInner

variable {w w' : WALInner} {log : List WALFrame} {synced : Nat}

-- The file as it will be once the buffer is written out.
def image (w : WALInner) : Bytes := overwrite w.file.bytes w.file.cursor w.buffer

-- The log file and the buffer together hold the frames `log` and no frame right
-- after them; the first `synced` of them have left the buffer.
structure Logged (w : WALInner) (log : List WALFrame) (synced : Nat) : Prop where
  holds : layout.Holds w.header.decode w.image log
  ends : w.header.decode (layout.slot w.image log.length) = none
  count : w.frameNum = log.length
  header : WAL_HEADER_SIZE ≤ w.file.bytes.length
  placed : w.filePosition = layout.offset w.frameNum →
    w.file.cursor + w.buffer.length = layout.offset w.frameNum
  pending : w.buffer ≠ [] → w.filePosition = layout.offset w.frameNum
  within : w.buffer ≠ [] → w.file.cursor ≤ w.file.bytes.length
  kept : w.buffer ≠ [] → layout.offset synced ≤ w.file.cursor
  synced_le : synced ≤ log.length

theorem image_of_empty (h : w.buffer = []) : w.image = w.file.bytes := by
  unfold image
  rw [h, overwrite_nil]

-- Writing bytes out of the buffer leaves the file as it will be.
structure Drained (w w' : WALInner) : Prop where
  image_eq : w'.image = w.image
  header_eq : w'.header = w.header
  frameNum_eq : w'.frameNum = w.frameNum
  filePosition_eq : w'.filePosition = w.filePosition
  durable_eq : w'.file.durable = w.file.durable
  cursor_eq : w'.file.cursor + w'.buffer.length = w.file.cursor + w.buffer.length
  cursor_le : w.file.cursor ≤ w'.file.cursor
  within : w.file.cursor ≤ w.file.bytes.length → w'.file.cursor ≤ w'.file.bytes.length
  length_le : w.file.bytes.length ≤ w'.file.bytes.length
  emptied : w.buffer = [] → w'.buffer = []

theorem flush_drained (faults : Faults) (h : w.buffer ≠ [] → w.file.cursor ≤ w.file.bytes.length) :
    Drained w (w.flush faults).2 := by
  have hsnd : (w.flush faults).2 = { w with
      file := w.file.write (w.buffer.take (faults.flush.getD w.buffer.length)),
      buffer := w.buffer.drop (faults.flush.getD w.buffer.length) } := by
    simp only [flush]
    split <;> rfl
  rw [hsnd]
  generalize faults.flush.getD w.buffer.length = n
  by_cases hbuf : w.buffer = []
  · constructor <;> simp [image, hbuf, File.write]
  · have hle := h hbuf
    have hlen := length_overwrite hle (w.buffer.take n)
    constructor <;> simp only [image, File.write, List.length_drop, List.length_take]
    · have happ := overwrite_append hle (w.buffer.take n) (w.buffer.drop n)
      rwa [List.take_append_drop, List.length_take] at happ
    · omega
    · omega
    · intro _
      rw [hlen, List.length_take]
      omega
    · rw [hlen]
      omega
    · intro hnil
      exact absurd hnil hbuf

theorem flush_ok {faults : Faults} (h : (w.flush faults).1 = .ok ()) : (w.flush faults).2.buffer = [] := by
  simp only [flush] at h ⊢
  split_ifs at h ⊢ with hle
  exact List.drop_eq_nil_of_le hle

theorem Drained.logged (hd : Drained w w') (h : Logged w log synced) : Logged w' log synced := by
  have hback : w'.buffer ≠ [] → w.buffer ≠ [] := fun hne hnil => hne (hd.emptied hnil)
  constructor
  · rw [hd.header_eq, hd.image_eq]
    exact h.holds
  · rw [hd.header_eq, hd.image_eq]
    exact h.ends
  · rw [hd.frameNum_eq]
    exact h.count
  · exact Nat.le_trans h.header hd.length_le
  · intro hpos
    rw [hd.filePosition_eq, hd.frameNum_eq] at hpos
    rw [hd.frameNum_eq, hd.cursor_eq]
    exact h.placed hpos
  · intro hne
    rw [hd.filePosition_eq, hd.frameNum_eq]
    exact h.pending (hback hne)
  · intro hne
    exact hd.within (h.within (hback hne))
  · intro hne
    exact Nat.le_trans (h.kept (hback hne)) hd.cursor_le
  · exact h.synced_le

theorem Logged.synced_empty (h : Logged w log synced) (hbuf : w.buffer = []) :
    Logged w log log.length :=
  { h with kept := fun hne => absurd hbuf hne, synced_le := Nat.le_refl _ }

theorem Logged.weaken (h : Logged w log synced) : Logged w log 0 :=
  { h with
    kept := fun hne => Nat.le_trans (layout.offset_mono (Nat.zero_le _)) (h.kept hne)
    synced_le := Nat.zero_le _ }

theorem Logged.scan_image (h : Logged w log synced) : layout.scan w.header.decode w.image = log :=
  Layout.scan_eq (whole_decode _) frameSize_pos h.holds h.ends

theorem Logged.recognised_eq (h : Logged w log synced) (hbuf : w.buffer = []) :
    w.recognised = log := by
  have := h.scan_image
  rwa [image_of_empty hbuf] at this

theorem Logged.length_le (h : Logged w log synced) :
    layout.offset w.frameNum ≤ w.image.length := by
  rw [h.count]
  refine Layout.Holds.length_le (whole_decode _) h.holds ?_
  by_cases hbuf : w.buffer = []
  · rw [image_of_empty hbuf]
    exact h.header
  · have hlen := length_overwrite (h.within hbuf) w.buffer
    have := h.header
    simp only [image, hlen, layout]
    omega

-- What is synced has left the buffer, so it is in the file already.
theorem Logged.synced_recognised (h : Logged w log synced) : log.take synced <+: w.recognised := by
  apply Layout.Holds.prefix_scan (whole_decode _) frameSize_pos
  intro i frame hi
  have hlt : i < synced := by
    by_contra hge
    rw [List.getElem?_take_eq_none (by omega)] at hi
    cases hi
  rw [List.getElem?_take_of_lt hlt] at hi
  have hslot := h.holds i frame hi
  by_cases hbuf : w.buffer = []
  · rwa [image_of_empty hbuf] at hslot
  · unfold image at hslot
    rwa [Layout.slot_overwrite_before (h.within hbuf)] at hslot
    have hoff := layout.offset_lt hlt
    have hkept := h.kept hbuf
    omega

theorem Logged.slot_next (h : Logged w log synced) {i : Nat} (hi : w.frameNum ≤ i) :
    layout.slot w.image i = layout.slot w.file.bytes i := by
  by_cases hbuf : w.buffer = []
  · rw [image_of_empty hbuf]
  · apply Layout.slot_overwrite_after (h.within hbuf)
    rw [h.placed (h.pending hbuf)]
    exact layout.offset_mono hi

-- The cursor is where the next frame goes once the buffer is written out.
structure Ready (w : WALInner) (log : List WALFrame) (synced : Nat) : Prop where
  holds : layout.Holds w.header.decode w.image log
  count : w.frameNum = log.length
  header : WAL_HEADER_SIZE ≤ w.file.bytes.length
  next : w.file.cursor + w.buffer.length = layout.offset w.frameNum
  within : w.file.cursor ≤ w.file.bytes.length
  kept : w.buffer ≠ [] → layout.offset synced ≤ w.file.cursor
  synced_le : synced ≤ log.length

theorem Logged.ready (h : Logged w log synced)
    (hpos : w.filePosition = layout.offset w.frameNum) : Ready w log synced := by
  refine ⟨h.holds, h.count, h.header, h.placed hpos, ?_, h.kept, h.synced_le⟩
  by_cases hbuf : w.buffer = []
  · have hlen := h.length_le
    have hnext := h.placed hpos
    rw [image_of_empty hbuf] at hlen
    rw [hbuf, List.length_nil, Nat.add_zero] at hnext
    omega
  · exact h.within hbuf

theorem Logged.ready_seek (h : Logged w log synced) (hbuf : w.buffer = []) :
    Ready { w with file := w.file.seek (layout.offset w.frameNum) } log synced := by
  have hlen := h.length_le
  have hholds := h.holds
  rw [image_of_empty hbuf] at hlen hholds
  refine ⟨?_, h.count, h.header, ?_, hlen, fun hne => absurd hbuf hne, h.synced_le⟩
  · show layout.Holds w.header.decode (overwrite w.file.bytes _ w.buffer) log
    rw [hbuf, overwrite_nil]
    exact hholds
  · simp only [File.seek, hbuf, List.length_nil, Nat.add_zero]

theorem Drained.ready (hd : Drained w w') (h : Ready w log synced) : Ready w' log synced := by
  refine ⟨?_, ?_, Nat.le_trans h.header hd.length_le, ?_, hd.within h.within, ?_, h.synced_le⟩
  · rw [hd.header_eq, hd.image_eq]
    exact h.holds
  · rw [hd.frameNum_eq]
    exact h.count
  · rw [hd.cursor_eq, hd.frameNum_eq]
    exact h.next
  · intro hne
    exact Nat.le_trans (h.kept fun hnil => hne (hd.emptied hnil)) hd.cursor_le

-- The state in which `write_frame` returns: the frame is the buffer's last.
def pushed (w : WALInner) (frame : WALFrame) : WALInner :=
  { w with
    buffer := w.buffer ++ serializeFrame frame
    filePosition := (layout.offset w.frameNum + WAL_FRAME_SIZE : Nat)
    frameNum := w.frameNum + 1 }

theorem Ready.image_pushed (h : Ready w log synced) (frame : WALFrame) :
    (w.pushed frame).image =
      overwrite w.image (layout.offset w.frameNum) (serializeFrame frame) := by
  simp only [image, pushed]
  rw [← h.next, overwrite_append h.within]

theorem Ready.image_length (h : Ready w log synced) :
    layout.offset w.frameNum ≤ w.image.length := by
  have hlen := length_overwrite h.within w.buffer
  have hnext := h.next
  simp only [image]
  omega

theorem Ready.logged (h : Ready w log synced) {frame : WALFrame}
    (hframe : w.header.decode (serializeFrame frame) = some frame)
    (hnext : w.header.decode (layout.slot w.image (w.frameNum + 1)) = none) :
    Logged (w.pushed frame) (log ++ [frame]) synced := by
  have hsize : (serializeFrame frame).length = layout.size := whole_decode _ _ _ hframe
  have hlen := h.image_length
  have himage := h.image_pushed frame
  have hoff := layout.offset_succ w.frameNum
  constructor
  · intro i r hi
    rw [himage]
    rcases Nat.lt_trichotomy i w.frameNum with hlt | heq | hgt
    · rw [Layout.slot_overwrite_before hlen (layout.offset_lt hlt)]
      rw [List.getElem?_append_left (by rw [← h.count]; exact hlt)] at hi
      exact h.holds i r hi
    · rw [heq, Layout.slot_overwrite_self hlen hsize]
      rw [heq, h.count, List.getElem?_concat_length] at hi
      rw [← Option.some.inj hi]
      exact hframe
    · rw [List.getElem?_eq_none] at hi
      · cases hi
      · rw [List.length_append, List.length_singleton, ← h.count]
        omega
  · rw [himage, List.length_append, List.length_singleton, ← h.count,
      Layout.slot_overwrite_after hlen (by rw [hsize, hoff])]
    exact hnext
  · rw [List.length_append, List.length_singleton, ← h.count]
    rfl
  · exact h.header
  · intro _
    have hn := h.next
    simp only [pushed, List.length_append, hsize]
    omega
  · intro _
    simp only [pushed]
    rw [hoff]
    rfl
  · intro _
    exact h.within
  · intro _
    by_cases hbuf : w.buffer = []
    · have hn := h.next
      rw [hbuf, List.length_nil, Nat.add_zero] at hn
      simp only [pushed]
      rw [hn, h.count]
      exact layout.offset_mono h.synced_le
    · exact h.kept hbuf
  · rw [List.length_append]
    exact Nat.le_trans h.synced_le (Nat.le_add_right _ _)

theorem Drained.refl (w : WALInner) : Drained w w :=
  ⟨rfl, rfl, rfl, rfl, rfl, rfl, Nat.le_refl _, id, Nat.le_refl _, id⟩

theorem flush_of_empty (faults : Faults) (h : w.buffer = []) : w.flush faults = (.ok (), w) := by
  obtain ⟨⟨bytes, durable, cursor⟩, buffer, header, frameNum, filePosition⟩ := w
  subst h
  simp [flush, File.write]

-- A frame that is written out or still buffered, as the code leaves it: either
-- an error, with part of the buffer written out, or the frame pushed.
theorem writeFrame_cases (h : Logged w log synced) (faults : Faults) (txId pageNum : UInt64)
    (pageData : Bytes) :
    (∃ e w', w.writeFrame faults txId pageNum pageData = (.error e, w') ∧ Drained w w') ∨
    ∃ v, w.writeFrame faults txId pageNum pageData =
        (.ok (), v.pushed (w.header.frame txId pageNum pageData)) ∧
      pageData.length = PAGE_SIZE ∧ Ready v log synced ∧ v.image = w.image ∧
      v.header = w.header ∧ v.frameNum = w.frameNum ∧ v.file.durable = w.file.durable := by
  by_cases hsize : pageData.length = PAGE_SIZE
  swap
  · exact .inl ⟨.invalidPageSize, w, by simp [writeFrame, hsize], Drained.refl w⟩
  have hdata : (serializeFrame (w.header.frame txId pageNum pageData)).length = WAL_FRAME_SIZE :=
    length_serializeFrame hsize
  by_cases hpos : w.filePosition = layout.offset w.frameNum
  · have hready := h.ready hpos
    by_cases hroom : WAL_FRAME_SIZE ≤ WAL_BUFFER_SIZE - w.buffer.length
    · refine .inr ⟨w, ?_, hsize, hready, rfl, rfl, rfl, rfl⟩
      simp [writeFrame, hsize, moveTo, hpos, writeAll, hdata, hroom, pushed]
    · have hd := flush_drained faults h.within
      rcases hflush : w.flush faults with ⟨r, v⟩
      rw [hflush] at hd
      change Drained w v at hd
      cases r with
      | error e =>
        refine .inl ⟨e, v, ?_, hd⟩
        simp [writeFrame, hsize, moveTo, hpos, writeAll, hdata, hroom, hflush]
      | ok _ =>
        refine .inr ⟨v, ?_, hsize, hd.ready hready, hd.image_eq, hd.header_eq, hd.frameNum_eq,
          hd.durable_eq⟩
        simp [writeFrame, hsize, moveTo, hpos, writeAll, hdata, hroom, hflush, pushed,
          hd.frameNum_eq]
  · -- Away from its position the buffer is empty, so only the seek can fail.
    have hbuf : w.buffer = [] := by
      by_contra hne
      exact hpos (h.pending hne)
    by_cases hseek : faults.seek = true
    · refine .inl ⟨.io "seek failed", w, ?_, Drained.refl w⟩
      simp [writeFrame, hsize, moveTo, hpos, flush_of_empty faults hbuf, hseek]
    · refine .inr ⟨_, ?_, hsize, h.ready_seek hbuf, ?_, rfl, rfl, rfl⟩
      · have hroom : WAL_FRAME_SIZE ≤ WAL_BUFFER_SIZE := by decide
        simp [writeFrame, hsize, moveTo, hpos, flush_of_empty faults hbuf, hseek, writeAll, hdata,
          hbuf, hroom, pushed]
      · simp only [image, hbuf, overwrite_nil, File.seek]

theorem sync_cases (h : Logged w log synced) (faults : Faults) :
    (∃ e w', w.sync faults = (.error e, w') ∧ Drained w w') ∨
    ∃ v, w.sync faults = (.ok (), { v with file := v.file.syncAll }) ∧ Drained w v ∧
      v.buffer = [] := by
  have hd := flush_drained faults h.within
  rcases hflush : w.flush faults with ⟨r, v⟩
  have hempty := @flush_ok w faults
  rw [hflush] at hd hempty
  cases r with
  | error e => exact .inl ⟨e, v, by simp [sync, hflush], hd⟩
  | ok _ =>
    by_cases hsync : faults.sync = true
    · exact .inl ⟨.io "sync failed", v, by simp [sync, hflush, hsync], hd⟩
    · exact .inr ⟨v, by simp [sync, hflush, hsync], hd, hempty rfl⟩

-- Reading the file back moves the cursor and nothing else. A read that fails
-- moves it away from the position the log believes in.
structure Read (faults : Faults) (w w' : WALInner) : Prop where
  bytes_eq : w'.file.bytes = w.file.bytes
  durable_eq : w'.file.durable = w.file.durable
  buffer_eq : w'.buffer = w.buffer
  header_eq : w'.header = w.header
  frameNum_eq : w'.frameNum = w.frameNum
  position_eq : faults.slot = .none → w.filePosition = w.file.cursor → w'.filePosition = w'.file.cursor

theorem Read.refl (faults : Faults) (w : WALInner) : Read faults w w :=
  ⟨rfl, rfl, rfl, rfl, rfl, fun _ => id⟩

theorem unreadable_some {faults : Faults} {i : Nat} {file : File} (h : w.unreadable faults i = some file) :
    (∃ cursor, faults.slot = some (i, cursor)) ∧ file.bytes = w.file.bytes ∧
      file.durable = w.file.durable := by
  obtain ⟨⟨j, cursor⟩, hfault, hfile⟩ := Option.map_eq_some_iff.mp h
  obtain ⟨hslot, hj⟩ := Option.filter_eq_some_iff.mp hfault
  obtain rfl : j = i := by simpa using hj
  refine ⟨⟨cursor, hslot⟩, ?_⟩
  subst hfile
  cases cursor with
  | none => exact ⟨rfl, rfl⟩
  | some cursor => exact ⟨rfl, rfl⟩

theorem unreadable_none {faults : Faults} {i : Nat} (h : w.unreadable faults i = none)
    {fault : Nat × Option Nat} (hslot : faults.slot = some fault) : fault.1 ≠ i := by
  rintro rfl
  rw [unreadable, hslot] at h
  simp at h

theorem readExact_slot (w : WALInner) {i : Nat}
    (h : layout.offset (i + 1) ≤ w.file.bytes.length) :
    (w.file.seek (layout.offset i)).readExact WAL_FRAME_SIZE =
      (some (layout.slot w.file.bytes i), w.file.seek (layout.offset i + WAL_FRAME_SIZE)) := by
  have hoff : layout.offset (i + 1) = layout.offset i + WAL_FRAME_SIZE := layout.offset_succ i
  rw [hoff] at h
  have hin : (w.file.seek (layout.offset i)).cursor + WAL_FRAME_SIZE ≤
      (w.file.seek (layout.offset i)).bytes.length := h
  unfold File.readExact
  rw [if_pos hin]
  rfl

theorem decode_slot {i : Nat} (h : layout.offset (i + 1) ≤ w.file.bytes.length) :
    w.header.decode (layout.slot w.file.bytes i) =
      if w.header.accepts (parseFrame (layout.slot w.file.bytes i)) then
        some (parseFrame (layout.slot w.file.bytes i))
      else none := by
  have hlen : (layout.slot w.file.bytes i).length = WAL_FRAME_SIZE := by
    have hoff := layout.offset_succ i
    have hsize : layout.size = WAL_FRAME_SIZE := rfl
    rw [Layout.length_slot]
    omega
  simp only [WALHeader.decode, hlen, true_and]

-- Counting from slot `i` ends at the first slot that holds no valid frame or
-- cannot be read.
theorem countFrom_spec (faults : Faults) (fuel i : Nat) (w : WALInner)
    (h : layout.offset (i + fuel) ≤ w.file.bytes.length)
    (hfault : ∀ fault, faults.slot = some fault → i ≤ fault.1) :
    (countFrom faults fuel i w).1 = ((faults.slot.map fun fault =>
      min fault.1 (i + (layout.scanFrom w.header.decode w.file.bytes fuel i).length)).getD
        (i + (layout.scanFrom w.header.decode w.file.bytes fuel i).length)) ∧
    Read faults w (countFrom faults fuel i w).2 := by
  induction fuel generalizing i w with
  | zero =>
    refine ⟨?_, Read.refl faults w⟩
    simp only [countFrom, Layout.scanFrom, List.length_nil, Nat.add_zero]
    cases hs : faults.slot with
    | none => rfl
    | some fault => exact (Nat.min_eq_right (hfault fault hs)).symm
  | succ fuel ih =>
    cases hun : w.unreadable faults i with
    | some file =>
      obtain ⟨⟨cursor, hs⟩, hbytes, hdurable⟩ := unreadable_some hun
      simp only [countFrom, hun, hs]
      refine ⟨(Nat.min_eq_left (Nat.le_add_right _ _)).symm, hbytes, hdurable, rfl, rfl, rfl, ?_⟩
      intro hnone
      rw [hs] at hnone
      cases hnone
    | none =>
      have hslot : layout.offset (i + 1) ≤ w.file.bytes.length :=
        Nat.le_trans (layout.offset_mono (by omega)) h
      have hread := readExact_slot w hslot
      have hdecode := @decode_slot w i hslot
      have hfault' : ∀ fault, faults.slot = some fault → i + 1 ≤ fault.1 := by
        intro fault hs
        have hle := hfault fault hs
        have hne := unreadable_none hun hs
        omega
      simp only [countFrom, hun, hread, Layout.scanFrom, hdecode]
      by_cases hacc : w.header.accepts (parseFrame (layout.slot w.file.bytes i)) = true
      · simp only [hacc, if_true, List.length_cons]
        rw [← Nat.add_assoc, Nat.add_right_comm] at h
        obtain ⟨hcount, hr⟩ := ih (i + 1)
          { w with
            file := w.file.seek (layout.offset i + WAL_FRAME_SIZE)
            filePosition := (layout.offset i + WAL_FRAME_SIZE : Nat) }
          h hfault'
        refine ⟨?_, hr.bytes_eq, hr.durable_eq, hr.buffer_eq, hr.header_eq, hr.frameNum_eq,
          fun hs _ => hr.position_eq hs rfl⟩
        rw [hcount]
        simp only [File.seek, Nat.add_right_comm i 1, ← Nat.add_assoc]
      · simp only [hacc, if_false, List.length_nil, Nat.add_zero, Bool.false_eq_true]
        refine ⟨?_, rfl, rfl, rfl, rfl, rfl, fun _ _ => rfl⟩
        cases hs : faults.slot with
        | none => rfl
        | some fault => exact (Nat.min_eq_right (hfault fault hs)).symm

theorem countFrames_spec (faults : Faults) (h : WAL_HEADER_SIZE ≤ w.file.bytes.length) :
    (w.countFrames faults).1 = faults.counted w.recognised.length ∧
      Read faults w (w.countFrames faults).2 := by
  have hfit : layout.offset (layout.capacity w.file.bytes) ≤ w.file.bytes.length := by
    have hdiv := Nat.div_mul_le_self (w.file.bytes.length - layout.header) layout.size
    have hheader : layout.header = WAL_HEADER_SIZE := rfl
    simp only [Layout.offset, Layout.capacity]
    omega
  have hspec := countFrom_spec faults (layout.capacity w.file.bytes) 0 w (by rwa [Nat.zero_add])
    fun fault _ => Nat.zero_le fault.1
  unfold countFrames Faults.counted
  split
  · exact ⟨rfl, Read.refl faults w⟩
  · rw [if_neg (by omega)]
    rw [Nat.zero_add] at hspec
    exact hspec

-- `checkpoint` reads back exactly the frames that `count_frames` recognised.
theorem readFrames_eq {records : List WALFrame} (i : Nat)
    (h : ∀ k frame, records[k]? = some frame →
      w.header.decode (layout.slot w.file.bytes (i + k)) = some frame) :
    w.readFrames records.length i = records := by
  induction records generalizing i with
  | nil => rfl
  | cons frame records ih =>
    have hframe : w.header.decode (layout.slot w.file.bytes i) = some frame := h 0 frame rfl
    have hrest : w.readFrames records.length (i + 1) = records := by
      apply ih
      intro k frame' hk
      have := h (k + 1) frame' hk
      rwa [← Nat.add_assoc, Nat.add_right_comm] at this
    unfold WALHeader.decode at hframe
    split_ifs at hframe with hok
    obtain ⟨hlen, hacc⟩ := hok
    simp only [WALHeader.accepts, Bool.and_eq_true, decide_eq_true_eq] at hacc
    simp only [List.length_cons, readFrames, hlen, hacc.1.1, hacc.1.2, hrest]
    simpa using hframe

theorem checksum_of_decode {header : WALHeader} {data : Bytes} {frame : WALFrame}
    (h : header.decode data = some frame) : frame.checksum = calculateChecksum frame := by
  unfold WALHeader.decode at h
  split_ifs at h with hok
  have hacc := hok.2
  rw [Option.some.inj h] at hacc
  simp only [WALHeader.accepts, Bool.and_eq_true, decide_eq_true_eq] at hacc
  exact hacc.2

-- The last frame of a page is the one whose content is kept.
theorem get?_pageMap (frames : List WALFrame) {i : Nat} {frame : WALFrame}
    (hi : frames[i]? = some frame) (hpage : frame.pageNum ≠ 0) :
    ∃ j later, i ≤ j ∧ frames[j]? = some later ∧ later.pageNum = frame.pageNum ∧
      (pageMap frames).get? frame.pageNum = some later.pageData := by
  induction frames using List.reverseRecOn with
  | nil => cases hi
  | append_singleton frames last ih =>
    have hlt : i < frames.length + 1 := by
      have := (List.getElem?_eq_some_iff.mp hi).1
      rwa [List.length_append, List.length_singleton] at this
    by_cases hlast : last.pageNum = frame.pageNum
    · refine ⟨frames.length, last, by omega, List.getElem?_concat_length, hlast, ?_⟩
      simp only [pageMap, List.foldl_append, List.foldl_cons, List.foldl_nil, hlast, ne_eq, hpage,
        not_false_iff, if_true, HashMap.get?_insert_self]
    · have hne : i ≠ frames.length := by
        intro heq
        rw [heq, List.getElem?_concat_length] at hi
        exact hlast (congrArg WALFrame.pageNum (Option.some.inj hi))
      rw [List.getElem?_append_left (by omega)] at hi
      obtain ⟨j, later, hij, hj, hsame, hget⟩ := ih hi
      have hjlt := (List.getElem?_eq_some_iff.mp hj).1
      refine ⟨j, later, hij, by rwa [List.getElem?_append_left hjlt], hsame, ?_⟩
      simp only [pageMap, List.foldl_append, List.foldl_cons, List.foldl_nil]
      split
      · rw [HashMap.get?_insert_of_ne _ _ (Ne.symm hlast)]
        exact hget
      · exact hget

-- Every frame is in `written`, or a later frame of its page is.
def Covers (written : List DbPage) (frames : List WALFrame) : Prop :=
  ∀ (i : Nat) (frame : WALFrame), frames[i]? = some frame → frame.pageNum ≠ 0 →
    ∃ (j : Nat) (later : WALFrame), i ≤ j ∧ frames[j]? = some later ∧ later.pageNum = frame.pageNum ∧
      (later.pageNum, later.pageData) ∈ written

theorem covers_pageMap (frames : List WALFrame) :
    Covers ((pageMap frames).toList.mergeSort (fun p q => p.1 ≤ q.1)) frames := by
  intro i frame hi hpage
  obtain ⟨j, later, hij, hj, hsame, hget⟩ := get?_pageMap frames hi hpage
  refine ⟨j, later, hij, hj, hsame, ?_⟩
  rw [List.mem_mergeSort, HashMap.mem_toList, hsame]
  exact hget

theorem exists_of_mem_pageMap {frames : List WALFrame} {page : DbPage}
    (h : page ∈ (pageMap frames).toList) : ∃ frame ∈ frames, frame.pageNum = page.1 := by
  rw [HashMap.mem_toList] at h
  induction frames using List.reverseRecOn with
  | nil => cases h
  | append_singleton frames last ih =>
    by_cases hlast : last.pageNum = page.1
    · exact ⟨last, by simp, hlast⟩
    · have hrest : (pageMap frames).get? page.1 = some page.2 := by
        simp only [pageMap, List.foldl_append, List.foldl_cons, List.foldl_nil] at h
        split at h
        · rwa [HashMap.get?_insert_of_ne _ _ (Ne.symm hlast)] at h
        · exact h
      obtain ⟨frame, hframe, hnum⟩ := ih hrest
      exact ⟨frame, List.mem_append_left _ hframe, hnum⟩

-- A page in place ends up there.
theorem landAll_inPlace (checks : Bool) {pages : List DbPage} (h : ∀ page ∈ pages, InPlace page.1.toNat) :
    landAll checks pages = (.ok (), pages) := by
  induction pages with
  | nil => rfl
  | cons page pages ih =>
    have hland : land checks page = .ok page := by
      rw [land, landing_inPlace checks (h page List.mem_cons_self)]
      simp only [bind, Except.bind, UInt64.ofNat_toNat]
    rw [landAll, hland, ih fun p hp => h p (List.mem_cons_of_mem page hp)]

-- What `checkpoint` reads back are frames that `count_frames` recognised, and no checksum stops it.
theorem readFrames_recognised {v : WALInner} (hbytes : v.file.bytes = w.file.bytes)
    (hheader : v.header = w.header) {count : Nat} (hcount : count ≤ w.recognised.length) :
    (v.readFrames count 0).takeWhile (fun frame => frame.checksum = calculateChecksum frame) =
      w.recognised.take count := by
  have hholds : ∀ i frame, (w.recognised.take count)[i]? = some frame →
      v.header.decode (layout.slot v.file.bytes i) = some frame := by
    intro i frame hi
    rw [hheader, hbytes]
    have hlt : i < count := by
      have := (List.getElem?_eq_some_iff.mp hi).1
      rw [List.length_take] at this
      omega
    rw [List.getElem?_take_of_lt hlt] at hi
    exact Layout.scan_holds i frame hi
  have hread : v.readFrames count 0 = w.recognised.take count := by
    have hlen : (w.recognised.take count).length = count := by
      rw [List.length_take]
      exact Nat.min_eq_left hcount
    rw [← @readFrames_eq v (w.recognised.take count) 0 fun k frame hk => by
      rw [Nat.zero_add]
      exact hholds k frame hk, hlen]
  rw [hread, List.takeWhile_eq_self_iff]
  intro frame hmem
  obtain ⟨i, hi⟩ := List.mem_iff_getElem?.mp hmem
  exact decide_eq_true (checksum_of_decode (hholds i frame hi))

theorem counted_le (faults : Faults) (count : Nat) : faults.counted count ≤ count := by
  unfold Faults.counted
  split
  · exact Nat.zero_le count
  · cases faults.slot with
    | none => exact Nat.le_refl count
    | some fault => exact Nat.min_le_right fault.1 count

-- Whatever fails, a checkpoint moves frames that `count_frames` recognises from
-- the first on, and no others.
theorem copyBack_pages (checks : Bool) (faults : Faults) (hheader : WAL_HEADER_SIZE ≤ w.file.bytes.length) :
    ∃ k ≤ w.recognised.length, (w.copyBack checks faults).2.1 =
      (writePagesDirect checks faults (pageMap (w.recognised.take k)).toList).2 := by
  obtain ⟨hcount, hread⟩ := countFrames_spec faults hheader
  have hle : ∀ readable, min readable (w.countFrames faults).1 ≤ w.recognised.length := by
    intro readable
    rw [hcount]
    exact Nat.le_trans (Nat.min_le_right _ _) (counted_le _ _)
  unfold copyBack
  dsimp only
  split
  · refine ⟨0, Nat.zero_le _, ?_⟩
    have hnone : ([] : List DbPage).mergeSort (fun p q => p.1 ≤ q.1) = [] := List.mergeSort_nil
    have hpages : (pageMap []).toList = [] := rfl
    rw [List.take_zero, hpages, writePagesDirect, hnone]
    cases faults.pager with
    | none => rfl
    | some n =>
      dsimp only
      rw [List.take_nil]
      rfl
  · generalize faults.readBack.getD _ = back
    refine ⟨min back.1 (w.countFrames faults).1, hle back.1, ?_⟩
    have hframes := @readFrames_recognised w { (w.countFrames faults).2 with
      frameNum := (w.countFrames faults).1 } hread.bytes_eq hread.header_eq _ (hle back.1)
    dsimp only at hframes ⊢
    rw [hframes]

theorem copyBack_readable (checks : Bool) {faults : Faults} (hf : faults.Readable)
    (hheader : WAL_HEADER_SIZE ≤ w.file.bytes.length) :
    ∃ v, w.copyBack checks faults =
        ((writePagesDirect checks faults (pageMap w.recognised).toList).1,
          (writePagesDirect checks faults (pageMap w.recognised).toList).2, v) ∧
      v.file.bytes = w.file.bytes ∧ v.file.durable = w.file.durable ∧ v.buffer = w.buffer ∧
      v.header = w.header ∧ v.frameNum = w.recognised.length ∧ v.filePosition = -1 := by
  obtain ⟨hcount, hread⟩ := countFrames_spec faults hheader
  rw [hf.counted] at hcount
  have hframes := @readFrames_recognised w { (w.countFrames faults).2 with
    frameNum := (w.countFrames faults).1 } hread.bytes_eq hread.header_eq _ (Nat.le_refl _)
  rw [List.take_length] at hframes
  unfold copyBack
  simp only [hf.rewind, hf.readBack, Bool.false_eq_true, if_false, Option.getD_none, Nat.min_self]
  rw [hcount] at hframes ⊢
  rw [hframes]
  exact ⟨_, rfl, hread.bytes_eq, hread.durable_eq, hread.buffer_eq, hread.header_eq, rfl, rfl⟩

-- Pages in place that are written without an error cover the frames they are of.
theorem covers_written {checks : Bool} {faults : Faults} {frames : List WALFrame}
    (hplace : ∀ frame ∈ frames, InPlace frame.pageNum.toNat)
    (hok : (writePagesDirect checks faults (pageMap frames).toList).1 = .ok ()) :
    Covers (writePagesDirect checks faults (pageMap frames).toList).2 frames := by
  have hpages : ∀ page ∈ (pageMap frames).toList.mergeSort (fun p q => p.1 ≤ q.1), InPlace page.1.toNat := by
    intro page hpage
    obtain ⟨frame, hframe, hnum⟩ := exists_of_mem_pageMap (List.mem_mergeSort.mp hpage)
    rw [← hnum]
    exact hplace frame hframe
  unfold writePagesDirect at hok ⊢
  cases hpager : faults.pager with
  | some n =>
    rw [hpager] at hok
    cases hok
  | none =>
    dsimp only
    rw [landAll_inPlace checks hpages]
    exact covers_pageMap frames

-- A checkpoint that finds the buffer empty and reads the log back stops with the
-- log as it was, or truncates it after the pages of all its frames are written.
theorem checkpoint_cases (h : Logged w log synced) (hbuf : w.buffer = []) (checks : Bool)
    {faults : Faults} (hf : faults.Readable) :
    (∃ e written w', w.checkpoint checks faults = (.error e, written, w') ∧
      w.truncates checks faults = false ∧
      w'.file.bytes = w.file.bytes ∧ w'.file.durable = w.file.durable ∧ w'.buffer = [] ∧
      w'.header = w.header ∧ w'.frameNum = w.frameNum ∧ w'.filePosition = -1) ∨
    ∃ r written w', w.checkpoint checks faults = (r, written, w') ∧ w.truncates checks faults = true ∧
      ((∀ frame ∈ log, InPlace frame.pageNum.toNat) → Covers written log) ∧
      w'.file.bytes = w.file.bytes.take WAL_HEADER_SIZE ∧ w'.buffer = [] ∧
      w'.header = w.header ∧ w'.frameNum = 0 ∧ w'.filePosition = -1 ∧
      w'.file.durable = if faults.sync then w.file.durable else w'.file.bytes := by
  obtain ⟨v, hcopy, hbytes, hdurable, hbuffer, hheader, hnum, hpos⟩ := copyBack_readable checks hf h.header
  rw [h.recognised_eq hbuf] at hcopy hnum
  have hcovers := @covers_written checks faults log
  generalize writePagesDirect checks faults (pageMap log).toList = result at hcopy hcovers
  obtain ⟨result, written⟩ := result
  simp only [checkpoint, truncates, hcopy]
  cases result with
  | error e =>
    exact .inl ⟨e, written, v, rfl, rfl, hbytes, hdurable, hbuffer.trans hbuf, hheader,
      hnum.trans h.count.symm, hpos⟩
  | ok done =>
    cases done
    by_cases hlen : faults.setLen = true
    · simp only [hlen, if_true]
      exact .inl ⟨_, written, v, rfl, rfl, hbytes, hdurable, hbuffer.trans hbuf, hheader,
        hnum.trans h.count.symm, hpos⟩
    · refine .inr ?_
      have hcovered := fun hplace => hcovers hplace rfl
      rw [Bool.not_eq_true] at hlen
      have hreaches : (Except.isOk (.ok () : Except Error Unit) && !false) = true := rfl
      have htrunc : (v.file.setLen WAL_HEADER_SIZE).bytes = w.file.bytes.take WAL_HEADER_SIZE := by
        simp only [File.setLen, hbytes]
        rw [Nat.sub_eq_zero_of_le h.header, List.replicate_zero, List.append_nil]
      simp only [hlen, if_false, Bool.false_eq_true]
      by_cases hsync : faults.sync = true
      · simp only [hsync, if_true]
        exact ⟨_, _, _, rfl, hreaches, hcovered, htrunc, hbuffer.trans hbuf, hheader, rfl, hpos, hdurable⟩
      · simp only [hsync, if_false, Bool.false_eq_true]
        exact ⟨_, _, _, rfl, hreaches, hcovered, htrunc, hbuffer.trans hbuf, hheader, rfl, hpos, rfl⟩

-- With an empty buffer and the position forgotten, only the file matters.
theorem logged_of_file {frames : List WALFrame} (hbuf : w.buffer = [])
    (hholds : layout.Holds w.header.decode w.file.bytes frames)
    (hends : w.header.decode (layout.slot w.file.bytes frames.length) = none)
    (hcount : w.frameNum = frames.length) (hheader : WAL_HEADER_SIZE ≤ w.file.bytes.length)
    (hplaced : w.filePosition = layout.offset w.frameNum →
      w.file.cursor = layout.offset w.frameNum) : Logged w frames frames.length := by
  have himage := image_of_empty hbuf
  refine ⟨himage ▸ hholds, himage ▸ hends, hcount, hheader, ?_, fun hne => absurd hbuf hne,
    fun hne => absurd hbuf hne, fun hne => absurd hbuf hne, Nat.le_refl _⟩
  intro hpos
  rw [hbuf, List.length_nil, Nat.add_zero]
  exact hplaced hpos

theorem decode_nil (header : WALHeader) : header.decode [] = none := by
  unfold WALHeader.decode
  rw [if_neg]
  rintro ⟨hlen, -⟩
  cases hlen

theorem logged_truncated (hbuf : w.buffer = []) (hnum : w.frameNum = 0)
    (hpos : w.filePosition = -1) (hlen : w.file.bytes.length = WAL_HEADER_SIZE) :
    Logged w [] 0 := by
  refine logged_of_file hbuf ?_ ?_ hnum (by omega) ?_
  · intro i frame hi
    cases hi
  · rw [Layout.slot_short (by rw [hlen]; exact Nat.le_refl _)]
    exact decode_nil _
  · intro heq
    rw [hpos] at heq
    omega

theorem logged_opened (hheader : WAL_HEADER_SIZE ≤ w.file.bytes.length) (hbuf : w.buffer = [])
    (hcursor : w.filePosition = w.file.cursor) (hnum : w.frameNum = w.recognised.length) :
    Logged w w.recognised w.recognised.length := by
  refine logged_of_file hbuf Layout.scan_holds
    (Layout.scan_stops (whole_decode _) frameSize_pos) hnum hheader ?_
  intro hpos
  rw [hcursor] at hpos
  exact Int.ofNat.inj hpos

-- The log of a process that has just opened its file.
def Opened (w : WALInner) : Prop :=
  (∃ salt1 salt2, w = create salt1 salt2) ∨
    ∃ faults bytes, faults.Readable ∧ reopen faults bytes = .ok w

theorem reopen_spec {faults : Faults} {bytes : Bytes} (h : reopen faults bytes = .ok w) :
    WAL_HEADER_SIZE ≤ bytes.length ∧ w.file.bytes = bytes ∧ w.file.durable = bytes ∧
      w.buffer = [] ∧ w.header = WALHeader.parse (bytes.take WAL_HEADER_SIZE) ∧
      (faults.Readable → w.filePosition = w.file.cursor) ∧
      w.frameNum = faults.counted w.recognised.length := by
  simp only [reopen] at h
  split_ifs at h with hlen
  rw [Nat.not_lt] at hlen
  let v : WALInner := ⟨⟨bytes, bytes, WAL_HEADER_SIZE⟩, [],
    WALHeader.parse (bytes.take WAL_HEADER_SIZE), 0, WAL_HEADER_SIZE⟩
  obtain ⟨hcount, hread⟩ := @countFrames_spec v faults hlen
  have hw : { (v.countFrames faults).2 with frameNum := (v.countFrames faults).1 } = w := Except.ok.inj h
  subst hw
  refine ⟨hlen, hread.bytes_eq, hread.durable_eq, hread.buffer_eq, hread.header_eq,
    fun hf => hread.position_eq hf.slot rfl, ?_⟩
  simp only [recognised] at hcount ⊢
  rw [hread.header_eq, hread.bytes_eq]
  exact hcount

theorem reopen_ok (faults : Faults) {bytes : Bytes} (hlen : WAL_HEADER_SIZE ≤ bytes.length)
    (hmagic : (WALHeader.parse (bytes.take WAL_HEADER_SIZE)).magic = WAL_MAGIC) :
    ∃ w, reopen faults bytes = .ok w := by
  simp only [reopen]
  rw [if_neg (by omega), if_neg (by simpa using hmagic)]
  exact ⟨_, rfl⟩

theorem length_create (salt1 salt2 : UInt32) :
    (create salt1 salt2).file.bytes.length = WAL_HEADER_SIZE := by
  exact length_serialize rfl

theorem recognised_of_length (h : w.file.bytes.length = WAL_HEADER_SIZE) : w.recognised = [] := by
  apply Layout.scan_eq (whole_decode _) frameSize_pos
  · intro i frame hi
    cases hi
  · rw [List.length_nil, Layout.slot_short (Nat.le_of_eq h)]
    exact decode_nil _

theorem Opened.logged (h : w.Opened) : Logged w w.recognised w.recognised.length := by
  rcases h with ⟨salt1, salt2, rfl⟩ | ⟨faults, bytes, hf, hbytes⟩
  · have hlen := length_create salt1 salt2
    refine logged_opened (Nat.le_of_eq hlen.symm) rfl rfl ?_
    rw [recognised_of_length hlen]
    rfl
  · obtain ⟨hlen, hb, -, hbuf, -, hpos, hnum⟩ := reopen_spec hbytes
    rw [hf.counted] at hnum
    exact logged_opened (by rw [hb]; exact hlen) hbuf (hpos hf) hnum

theorem logged_create (salt1 salt2 : UInt32) : Logged (create salt1 salt2) [] 0 := by
  have hlogged := Opened.logged (w := create salt1 salt2) (.inl ⟨salt1, salt2, rfl⟩)
  rwa [recognised_of_length (length_create salt1 salt2)] at hlogged

section Undisturbed

-- The calls when no file operation fails.

variable {txId pageNum : UInt64} {pageData : Bytes}

theorem writeFrame_none (hbuf : w.buffer = []) (hpos : w.filePosition = layout.offset w.frameNum)
    (hsize : pageData.length = PAGE_SIZE) :
    w.writeFrame .none txId pageNum pageData =
      (.ok (), w.pushed (w.header.frame txId pageNum pageData)) := by
  have hdata : (serializeFrame (w.header.frame txId pageNum pageData)).length = WAL_FRAME_SIZE :=
    length_serializeFrame hsize
  have hroom : WAL_FRAME_SIZE ≤ WAL_BUFFER_SIZE := by decide
  simp [writeFrame, hsize, moveTo, hpos, writeAll, hdata, hbuf, hroom, pushed]

theorem writeFrame_none_seek (hbuf : w.buffer = [])
    (hpos : w.filePosition ≠ layout.offset w.frameNum) (hsize : pageData.length = PAGE_SIZE) :
    w.writeFrame .none txId pageNum pageData =
      (.ok (), pushed { w with file := w.file.seek (layout.offset w.frameNum) }
        (w.header.frame txId pageNum pageData)) := by
  have hdata : (serializeFrame (w.header.frame txId pageNum pageData)).length = WAL_FRAME_SIZE :=
    length_serializeFrame hsize
  have hroom : WAL_FRAME_SIZE ≤ WAL_BUFFER_SIZE := by decide
  simp [writeFrame, hsize, moveTo, hpos, flush_of_empty _ hbuf, Faults.none, writeAll, hdata, hbuf,
    hroom, pushed]

theorem sync_none (w : WALInner) :
    w.sync .none = (.ok (), { w with file := (w.file.write w.buffer).syncAll, buffer := [] }) := by
  simp [sync, flush, Faults.none]

theorem writeFrame_none_ok (w : WALInner) (txId pageNum : UInt64)
    (hsize : pageData.length = PAGE_SIZE) : (w.writeFrame .none txId pageNum pageData).1 = .ok () := by
  have hflush : ∀ w : WALInner, w.flush .none =
      (.ok (), { w with file := w.file.write w.buffer, buffer := [] }) := by
    intro w
    simp [flush, Faults.none]
  have hmove : ∃ v, w.moveTo .none (layout.offset w.frameNum) = (.ok (), v) := by
    unfold moveTo
    by_cases hpos : w.filePosition = layout.offset w.frameNum
    · rw [if_pos hpos]
      exact ⟨_, rfl⟩
    · rw [if_neg hpos, hflush]
      exact ⟨_, rfl⟩
  obtain ⟨v, hv⟩ := hmove
  have hwrite : ∀ data, ∃ u, v.writeAll .none data = (.ok (), u) := by
    intro data
    unfold writeAll
    split_ifs with hroom
    · exact ⟨_, rfl⟩
    · rw [hflush]
      exact ⟨_, rfl⟩
  obtain ⟨u, hu⟩ := hwrite (serializeFrame (w.header.frame txId pageNum pageData))
  simp [writeFrame, hsize, hv, hu]

-- A log file without frames is left as it is, whatever the buffer holds.
theorem checkpoint_none (checks : Bool) (hlen : w.file.bytes.length = WAL_HEADER_SIZE) :
    w.checkpoint checks .none = (.ok (), [], { w with
      file := ⟨w.file.bytes, w.file.bytes, WAL_HEADER_SIZE⟩, frameNum := 0, filePosition := -1 }) := by
  have hcount : w.countFrames .none = (0, w) := by
    unfold countFrames
    rw [hlen]
    rfl
  have hahead : ({ w with frameNum := 0 } : WALInner).readAhead 0 = WAL_HEADER_SIZE := by
    unfold readAhead
    rw [hlen]
    rfl
  have hcopy : w.copyBack checks .none =
      (.ok (), [], { w with file := w.file.seek WAL_HEADER_SIZE, frameNum := 0, filePosition := -1 }) := by
    have hsort : ([] : List DbPage).mergeSort (fun p q => p.1 ≤ q.1) = [] := List.mergeSort_nil
    have hpages : (pageMap []).toList = [] := rfl
    have hback : Faults.none.readBack = none := rfl
    have hrewind : Faults.none.rewind = false := rfl
    have hpager : Faults.none.pager = none := rfl
    simp only [copyBack, hcount, hrewind, hback, Option.getD_none, hahead, Bool.false_eq_true, if_false,
      Nat.min_self, readFrames, List.takeWhile_nil, hpages, writePagesDirect, hpager, hsort, landAll]
  have htake : w.file.bytes.take WAL_HEADER_SIZE = w.file.bytes :=
    List.take_of_length_le (Nat.le_of_eq hlen)
  have hsetLen : Faults.none.setLen = false := rfl
  have hsync : Faults.none.sync = false := rfl
  simp [checkpoint, hcopy, hsetLen, hsync, File.seek, File.setLen, File.syncAll, hlen, htake]

end Undisturbed

end WALInner

end JasonDb.WalFile
