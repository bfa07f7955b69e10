import JasonDb.Wal.Log

namespace JasonDb.WalFile

open Lib WALInner

inductive Call where
  | writeFrame (txId pageNum : UInt64) (pageData : Bytes)
  | sync
  | checkpoint

-- The log with what the calls so far have returned: the frames whose
-- `write_frame` returned, how many of them had returned before the last
-- successful `sync`, and the pages that checkpoints wrote to the database file.
structure History where
  wal : WALInner
  written : List WALFrame
  synced : Nat
  database : List DbPage

namespace History

def start (wal : WALInner) : History := ⟨wal, [], 0, []⟩

def step (checks : Bool) (faults : Faults) (h : History) : Call → History
  | .writeFrame txId pageNum pageData =>
    match h.wal.writeFrame faults txId pageNum pageData with
    | (.ok (), wal) =>
      { h with wal, written := h.written ++ [h.wal.header.frame txId pageNum pageData] }
    | (.error _, wal) => { h with wal }
  | .sync =>
    match h.wal.sync faults with
    | (.ok (), wal) => { h with wal, synced := h.written.length }
    | (.error _, wal) => { h with wal }
  | .checkpoint =>
    let (_, pages, wal) := h.wal.checkpoint checks faults
    { h with wal, database := h.database ++ pages }

def run (checks : Bool) (h : History) (calls : List (Call × Faults)) : History :=
  calls.foldl (fun h call => h.step checks call.2 call.1) h

-- Each frame synced, or a later frame of its page, is in the log file or has
-- been written to the database file.
def Recoverable (h : History) : Prop :=
  ∀ (i : Nat) (frame : WALFrame), i < h.synced → h.written[i]? = some frame →
    frame.pageNum ≠ 0 →
    frame ∈ h.wal.recognised ∨
    ∃ (j : Nat) (later : WALFrame), i ≤ j ∧ h.written[j]? = some later ∧
      later.pageNum = frame.pageNum ∧ (later.pageNum, later.pageData) ∈ h.database

-- A checkpoint finds the write buffer empty and only pages in place, and nothing
-- it reads back fails; a frame is written in front of a slot that holds no valid
-- frame.
def Undisturbed (h : History) (faults : Faults) : Call → Prop
  | .writeFrame _ _ _ =>
    h.wal.header.decode (layout.slot h.wal.file.bytes (h.wal.frameNum + 1)) = none
  | .sync => True
  | .checkpoint => h.wal.buffer = [] ∧ faults.Readable ∧
    ∀ frame ∈ h.wal.recognised, InPlace frame.pageNum.toNat

def AllUndisturbed (checks : Bool) (h : History) : List (Call × Faults) → Prop
  | [] => True
  | (call, faults) :: calls =>
    h.Undisturbed faults call ∧ (h.step checks faults call).AllUndisturbed checks calls

-- The frames written are those checkpoints have taken out of the log, whose
-- pages are in the database file, and those the log holds after the frames it
-- was opened with.
structure Tracked (h : History) (base archived current : List WALFrame) (kept : Nat) : Prop where
  written_eq : h.written = archived ++ current
  logged : Logged h.wal (base ++ current) kept
  synced_le : h.synced ≤ h.written.length
  kept_ge : h.synced - archived.length + base.length ≤ kept
  covered : Covers h.database archived

variable {h : History} {base archived current : List WALFrame} {kept : Nat}

theorem Covers.mono {written more : List DbPage} {frames : List WALFrame}
    (hc : Covers written frames) (hsub : ∀ page ∈ written, page ∈ more) : Covers more frames := by
  intro i frame hi hpage
  obtain ⟨j, later, hij, hj, hsame, hmem⟩ := hc i frame hi hpage
  exact ⟨j, later, hij, hj, hsame, hsub _ hmem⟩

theorem Covers.append {pages : List DbPage} (base : List WALFrame) (ha : Covers pages archived)
    (hc : Covers pages (base ++ current)) : Covers pages (archived ++ current) := by
  intro i frame hi hpage
  rcases Nat.lt_or_ge i archived.length with hlt | hge
  · rw [List.getElem?_append_left hlt] at hi
    obtain ⟨j, later, hij, hj, hsame, hmem⟩ := ha i frame hi hpage
    have hjlt := (List.getElem?_eq_some_iff.mp hj).1
    exact ⟨j, later, hij, by rwa [List.getElem?_append_left hjlt], hsame, hmem⟩
  · rw [List.getElem?_append_right hge] at hi
    obtain ⟨j, later, hij, hj, hsame, hmem⟩ := hc (base.length + (i - archived.length)) frame
      (by rwa [List.getElem?_append_right (by omega), Nat.add_sub_cancel_left]) hpage
    rw [List.getElem?_append_right (by omega)] at hj
    refine ⟨archived.length + (j - base.length), later, by omega, ?_, hsame, hmem⟩
    rwa [List.getElem?_append_right (by omega), Nat.add_sub_cancel_left]

theorem Tracked.recoverable (ht : Tracked h base archived current kept) : h.Recoverable := by
  intro i frame hsynced hi hpage
  rw [ht.written_eq] at hi ⊢
  rcases Nat.lt_or_ge i archived.length with hlt | hge
  · right
    rw [List.getElem?_append_left hlt] at hi
    obtain ⟨j, later, hij, hj, hsame, hmem⟩ := ht.covered i frame hi hpage
    have hjlt := (List.getElem?_eq_some_iff.mp hj).1
    exact ⟨j, later, hij, by rwa [List.getElem?_append_left hjlt], hsame, hmem⟩
  · left
    rw [List.getElem?_append_right hge] at hi
    have hkept := ht.kept_ge
    have hpre := ht.logged.synced_recognised
    apply hpre.subset
    apply List.mem_of_getElem? (i := base.length + (i - archived.length))
    rw [List.getElem?_take_of_lt (by omega), List.getElem?_append_right (by omega),
      Nat.add_sub_cancel_left]
    exact hi

theorem Tracked.step_writeFrame (ht : Tracked h base archived current kept) (checks : Bool)
    (faults : Faults) (txId pageNum : UInt64) (pageData : Bytes)
    (hu : h.Undisturbed faults (.writeFrame txId pageNum pageData)) :
    ∃ current', Tracked (h.step checks faults (.writeFrame txId pageNum pageData)) base archived
      current' kept := by
  rcases writeFrame_cases ht.logged faults txId pageNum pageData with
    ⟨e, w', heq, hd⟩ | ⟨v, heq, hsize, hready, himage, hheader, hnum, -⟩
  · refine ⟨current, ?_⟩
    simp only [step, heq]
    exact { ht with logged := hd.logged ht.logged }
  · let frame := h.wal.header.frame txId pageNum pageData
    refine ⟨current ++ [frame], ?_⟩
    simp only [step, heq]
    have hframe : v.header.decode (serializeFrame frame) = some frame := by
      rw [hheader]
      exact decode_frame _ _ _ hsize
    have hnext : v.header.decode (layout.slot v.image (v.frameNum + 1)) = none := by
      rw [hheader, himage, hnum, ht.logged.slot_next (Nat.le_succ _)]
      exact hu
    have hlogged := hready.logged hframe hnext
    rw [List.append_assoc] at hlogged
    refine ⟨?_, hlogged, ?_, ht.kept_ge, ht.covered⟩
    · simp only [ht.written_eq, List.append_assoc, frame]
    · rw [List.length_append]
      exact Nat.le_trans ht.synced_le (Nat.le_add_right _ _)

theorem Tracked.step_sync (ht : Tracked h base archived current kept) (checks : Bool) (faults : Faults) :
    ∃ kept', Tracked (h.step checks faults .sync) base archived current kept' := by
  rcases sync_cases ht.logged faults with ⟨e, w', heq, hd⟩ | ⟨v, heq, hd, hbuf⟩
  · refine ⟨kept, ?_⟩
    simp only [step, heq]
    exact { ht with logged := hd.logged ht.logged }
  · refine ⟨(base ++ current).length, ?_⟩
    simp only [step, heq]
    have hv := (hd.logged ht.logged).synced_empty hbuf
    refine ⟨ht.written_eq, ⟨hv.holds, hv.ends, hv.count, hv.header, hv.placed, hv.pending, hv.within,
      hv.kept, hv.synced_le⟩, Nat.le_refl _, ?_, ht.covered⟩
    simp only [ht.written_eq, List.length_append]
    omega

theorem Tracked.step_checkpoint (ht : Tracked h base archived current kept) (checks : Bool)
    (faults : Faults) (hu : h.Undisturbed faults .checkpoint) :
    ∃ base' archived' current' kept',
      Tracked (h.step checks faults .checkpoint) base' archived' current' kept' := by
  obtain ⟨hbuf, hf, hplace⟩ := hu
  have hl := ht.logged
  rw [hl.recognised_eq hbuf] at hplace
  rcases checkpoint_cases hl hbuf checks hf with
    ⟨e, written, w', heq, -, hbytes, -, hbuf', hheader, hnum, hpos⟩ |
    ⟨r, written, w', heq, -, hcovers, hbytes, hbuf', hheader, hnum, hpos, -⟩
  · refine ⟨base, archived, current, (base ++ current).length, ?_⟩
    simp only [step, heq]
    have hholds := hl.holds
    have hends := hl.ends
    rw [image_of_empty hbuf, ← hbytes, ← hheader] at hholds hends
    have hlogged := logged_of_file hbuf' hholds hends (hnum.trans hl.count)
      (by rw [hbytes]; exact hl.header) (fun heq => by rw [hpos] at heq; omega)
    have hkept := ht.kept_ge
    have hle := hl.synced_le
    refine ⟨ht.written_eq, hlogged, ht.synced_le, by simp only; omega, ?_⟩
    exact Covers.mono ht.covered fun page hmem => List.mem_append_left _ hmem
  · refine ⟨[], archived ++ current, [], 0, ?_⟩
    simp only [step, heq]
    have hlen : w'.file.bytes.length = WAL_HEADER_SIZE := by
      rw [hbytes, List.length_take]
      exact Nat.min_eq_left hl.header
    have hsynced := ht.synced_le
    rw [ht.written_eq] at hsynced
    refine ⟨by simp only [ht.written_eq, List.append_nil], logged_truncated hbuf' hnum hpos hlen,
      ht.synced_le, ?_, ?_⟩
    · simp only [List.length_nil]
      omega
    · apply Covers.append base
      · exact Covers.mono ht.covered fun page hmem => List.mem_append_left _ hmem
      · exact Covers.mono (hcovers hplace) fun page hmem => List.mem_append_right _ hmem

theorem Tracked.step (ht : Tracked h base archived current kept) (checks : Bool) (faults : Faults)
    (call : Call) (hu : h.Undisturbed faults call) :
    ∃ base' archived' current' kept',
      Tracked (h.step checks faults call) base' archived' current' kept' := by
  cases call with
  | writeFrame txId pageNum pageData =>
    obtain ⟨current', ht'⟩ := ht.step_writeFrame checks faults txId pageNum pageData hu
    exact ⟨_, _, _, _, ht'⟩
  | sync =>
    obtain ⟨kept', ht'⟩ := ht.step_sync checks faults
    exact ⟨_, _, _, _, ht'⟩
  | checkpoint => exact ht.step_checkpoint checks faults hu

theorem Tracked.run (ht : Tracked h base archived current kept) (checks : Bool)
    (calls : List (Call × Faults)) (hu : h.AllUndisturbed checks calls) :
    ∃ base' archived' current' kept',
      Tracked (h.run checks calls) base' archived' current' kept' := by
  induction calls generalizing h base archived current kept with
  | nil => exact ⟨_, _, _, _, ht⟩
  | cons call calls ih =>
    obtain ⟨_, _, _, _, ht'⟩ := ht.step checks call.2 call.1 hu.1
    exact ih ht' hu.2

theorem allUndisturbed_append {checks : Bool} {before after : List (Call × Faults)}
    (hu : h.AllUndisturbed checks (before ++ after)) : h.AllUndisturbed checks before := by
  induction before generalizing h with
  | nil => trivial
  | cons call before ih => exact ⟨hu.1, ih hu.2⟩

-- In every run in which no checkpoint finds frames in the buffer, fails to read
-- the log back or meets a page out of place, and no frame is written in front of
-- another, what is synced stays recoverable at every moment.
theorem synced_recoverable {w : WALInner} (hw : w.Opened) (checks : Bool)
    {calls seen : List (Call × Faults)} (hu : (start w).AllUndisturbed checks calls)
    (hseen : seen <+: calls) : ((start w).run checks seen).Recoverable := by
  have hstart : Tracked (start w) w.recognised [] [] w.recognised.length := by
    refine ⟨rfl, ?_, Nat.le_refl _, ?_, fun i frame hi => by cases hi⟩
    · rw [List.append_nil]
      exact hw.logged
    · simp [start]
  obtain ⟨rest, rfl⟩ := hseen
  obtain ⟨_, _, _, _, ht⟩ := hstart.run checks seen (allUndisturbed_append hu)
  exact ht.recoverable

section Runs

variable {w : WALInner} {a b : Bytes}

def orderly (a : Bytes) : List (Call × Faults) :=
  [(.writeFrame 1 5 a, .none), (.sync, .none), (.checkpoint, .none)]

-- Once it is synced the frame is what a checkpoint finds.
theorem recognised_orderly (hlog : Logged w [] 0) (hbuf : w.buffer = [])
    (hpos : w.filePosition = layout.offset w.frameNum) (hlen : w.file.bytes.length = layout.offset 0)
    (ha : a.length = PAGE_SIZE) :
    (((start w).step false .none (.writeFrame 1 5 a)).step false .none .sync).wal.recognised =
      [w.header.frame 1 5 a] := by
  have hnext : w.header.decode (layout.slot w.image (w.frameNum + 1)) = none := by
    rw [image_of_empty hbuf, Layout.slot_short (by rw [hlen]; exact layout.offset_mono (Nat.zero_le _))]
    exact decode_nil _
  have hlogged := (hlog.ready hpos).logged (decode_frame w.header 1 5 ha) hnext
  simp only [step, start, writeFrame_none hbuf hpos ha, sync_none]
  exact hlogged.scan_image

theorem undisturbed_orderly (hlog : Logged w [] 0) (hbuf : w.buffer = [])
    (hpos : w.filePosition = layout.offset w.frameNum) (hlen : w.file.bytes.length = layout.offset 0)
    (ha : a.length = PAGE_SIZE) : (start w).AllUndisturbed false (orderly a) := by
  refine ⟨?_, trivial, ⟨?_, Faults.readable_none, ?_⟩, trivial⟩
  · show w.header.decode (layout.slot w.file.bytes (w.frameNum + 1)) = none
    rw [Layout.slot_short (by rw [hlen]; exact layout.offset_mono (Nat.zero_le _))]
    exact decode_nil _
  · simp only [step, start, writeFrame_none hbuf hpos ha, sync_none]
  · rw [recognised_orderly hlog hbuf hpos hlen ha]
    intro frame hframe
    rw [List.mem_singleton.mp hframe]
    exact inPlace_iff.mpr (show (5 : UInt64).toNat < 2 ^ 51 - 1 by decide)

-- The checkpoint resets the position while the first frame is still buffered, so
-- the second frame takes its slot after the sync.
def overlapping (a b : Bytes) : List (Call × Faults) :=
  [(.writeFrame 1 5 a, .none), (.checkpoint, .none), (.sync, .none),
    (.writeFrame 2 6 b, .none), (.sync, .none)]

theorem run_overlapping (hbuf : w.buffer = [])
    (hpos : w.filePosition = layout.offset w.frameNum) (hlen : w.file.bytes.length = layout.offset 0)
    (ha : a.length = PAGE_SIZE)
    (hb : b.length = PAGE_SIZE) :
    ∃ w', w'.recognised = [w.header.frame 2 6 b] ∧
      (start w).run false (overlapping a b) =
        ⟨w', [w.header.frame 1 5 a, w.header.frame 2 6 b], 2, []⟩ := by
  generalize hfirst : w.header.frame 1 5 a = first
  generalize hsecond : w.header.frame 2 6 b = second
  have h₁ : w.writeFrame .none 1 5 a = (.ok (), w.pushed first) := by
    rw [writeFrame_none hbuf hpos ha, hfirst]
  let w₂ : WALInner := { w.pushed first with
    file := ⟨w.file.bytes, w.file.bytes, WAL_HEADER_SIZE⟩, frameNum := 0, filePosition := -1 }
  have h₂ : (w.pushed first).checkpoint false .none = (.ok (), [], w₂) := checkpoint_none false hlen
  let w₃ : WALInner := { w₂ with file := (w₂.file.write w₂.buffer).syncAll, buffer := [] }
  have h₃ : w₂.sync .none = (.ok (), w₃) := sync_none w₂
  have hpos₃ : w₃.filePosition ≠ layout.offset w₃.frameNum := by
    show (-1 : Int) ≠ _
    omega
  let w₄ := pushed { w₃ with file := w₃.file.seek (layout.offset w₃.frameNum) } second
  have h₄ : w₃.writeFrame .none 2 6 b = (.ok (), w₄) := by
    have hsecond₃ : w₃.header.frame 2 6 b = second := hsecond
    rw [writeFrame_none_seek rfl hpos₃ hb, hsecond₃]
  let w₅ : WALInner := { w₄ with file := (w₄.file.write w₄.buffer).syncAll, buffer := [] }
  have h₅ : w₄.sync .none = (.ok (), w₅) := sync_none w₄
  refine ⟨w₅, ?_, ?_⟩
  · have hfirstSize : (serializeFrame first).length = layout.size := by
      rw [← hfirst]
      exact length_serializeFrame ha
    have hdecode : w.header.decode (serializeFrame second) = some second := by
      rw [← hsecond]
      exact decode_frame _ _ _ hb
    have hsize : (serializeFrame second).length = layout.size := whole_decode _ _ _ hdecode
    have hle := Nat.le_of_eq hlen.symm
    have hoff := layout.offset_succ 0
    have hbytes₃ : w₃.file.bytes = overwrite w.file.bytes (layout.offset 0) (serializeFrame first) := by
      show overwrite w.file.bytes _ (w.buffer ++ serializeFrame first) = _
      rw [hbuf, List.nil_append]
      rfl
    have hbytes₅ : w₅.file.bytes =
        overwrite w₃.file.bytes (layout.offset 0) (serializeFrame second) := rfl
    have hlen₃ : layout.offset 0 ≤ w₃.file.bytes.length := by
      rw [hbytes₃, length_overwrite hle]
      omega
    apply Layout.scan_eq (whole_decode _) frameSize_pos
    · intro i frame hi
      have hzero : i = 0 := by
        have := (List.getElem?_eq_some_iff.mp hi).1
        rw [List.length_singleton] at this
        omega
      subst hzero
      rw [hbytes₅, Layout.slot_overwrite_self hlen₃ hsize, ← Option.some.inj hi]
      exact hdecode
    · rw [List.length_singleton, hbytes₅,
        Layout.slot_overwrite_after hlen₃ (Nat.le_of_eq (by rw [hsize, hoff])), hbytes₃,
        Layout.slot_overwrite_after hle (Nat.le_of_eq (by rw [hfirstSize, hoff])),
        Layout.slot_short (by rw [hlen, hoff]; omega)]
      exact decode_nil _
  · have hsecond₃ : w₃.header.frame 2 6 b = second := hsecond
    simp only [run, overlapping, List.foldl_cons, List.foldl_nil, step, start]
    simp only [h₁, h₂, h₃, h₄, h₅, hfirst, hsecond₃]
    rfl

end Runs

theorem synced_recoverable_orderly :
    ((start (create 1 1)).run false (orderly (filledPage 7))).Recoverable :=
  synced_recoverable (.inl ⟨1, 1, rfl⟩) false
    (undisturbed_orderly (logged_create 1 1) rfl rfl (length_create 1 1) (length_filledPage 7))
    (List.prefix_refl _)

theorem synced_lost :
    ¬ ((start (create 1 1)).run false (overlapping (filledPage 7) (filledPage 8))).Recoverable := by
  obtain ⟨w', hrecognised, hrun⟩ := run_overlapping (w := create 1 1) rfl rfl (length_create 1 1)
    (length_filledPage 7) (length_filledPage 8)
  intro hrec
  rw [hrun] at hrec
  have hlost := hrec 0 _ Nat.zero_lt_two rfl (show (5 : UInt64) ≠ 0 by decide)
  simp only [hrecognised] at hlost
  rcases hlost with hmem | ⟨j, later, -, -, -, hmem⟩
  · have htx : (1 : UInt64) = 2 := congrArg WALFrame.txId (List.mem_singleton.mp hmem)
    exact absurd htx (by decide)
  · cases hmem

end History

end JasonDb.WalFile
