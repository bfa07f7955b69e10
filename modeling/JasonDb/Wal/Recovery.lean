import JasonDb.Wal.Synced

namespace JasonDb.WalFile

open Lib WALInner

-- A process with the log file open, and the logical log: the frames recognised
-- when the file was opened, extended by each `write_frame` and emptied by each
-- checkpoint that truncates.
structure Session where
  wal : WALInner
  log : List WALFrame

namespace Session

-- `frame_num` frames are recognised: all there are, or those before a read failed.
def opened (wal : WALInner) : Session := ⟨wal, wal.recognised.take wal.frameNum⟩

def call (checks : Bool) (s : Session) (faults : Faults) : Call → Session
  | .writeFrame txId pageNum pageData =>
    match s.wal.writeFrame faults txId pageNum pageData with
    | (.ok (), wal) => ⟨wal, s.log ++ [s.wal.header.frame txId pageNum pageData]⟩
    | (.error _, wal) => { s with wal }
  | .sync => { s with wal := (s.wal.sync faults).2 }
  | .checkpoint =>
    let (_, _, wal) := s.wal.checkpoint checks faults
    ⟨wal, if s.wal.truncates checks faults then [] else s.log⟩

-- What a crash leaves of the file: the header, every slot that is the same as at
-- the last sync, and in each other slot its former bytes, the bytes written to
-- it since, or something that is not a valid frame.
def CrashLeaves (w : WALInner) (bytes : Bytes) : Prop :=
  bytes.take WAL_HEADER_SIZE = w.file.durable.take WAL_HEADER_SIZE ∧
  ∀ i, (layout.slot w.file.durable i = layout.slot w.image i →
      layout.slot bytes i = layout.slot w.file.durable i) ∧
    (layout.slot bytes i = layout.slot w.file.durable i ∨
      layout.slot bytes i = layout.slot w.image i ∨
      w.header.decode (layout.slot bytes i) = none)

-- The sessions of all histories whose calls meet `P` and whose opens meet `Q`, over
-- any number of crashes.
inductive Reached (checks : Bool) (P : Session → Call → Faults → Prop) (Q : Faults → Prop) :
    Session → Prop
  | created (salt1 salt2 : UInt32) : Reached checks P Q (opened (create salt1 salt2))
  | opened {faults : Faults} {bytes : Bytes} {w : WALInner} :
      Q faults → reopen faults bytes = .ok w → Reached checks P Q (opened w)
  | call {s : Session} {c : Call} {faults : Faults} :
      Reached checks P Q s → P s c faults → Reached checks P Q (s.call checks faults c)
  | crash {s : Session} {faults : Faults} {bytes : Bytes} {w : WALInner} :
      Reached checks P Q s → CrashLeaves s.wal bytes → Q faults → reopen faults bytes = .ok w →
      Reached checks P Q (opened w)

-- The next open that meets `Q` recognises a prefix of the logical log.
def SeesPrefix (Q : Faults → Prop) (s : Session) : Prop :=
  ∀ faults bytes w, Q faults → CrashLeaves s.wal bytes → reopen faults bytes = .ok w →
    (opened w).log <+: s.log

-- No file operation fails.
def Faultless (faults : Faults) : Prop := faults = .none

-- A checkpoint finds the write buffer empty, nothing it reads back fails, and its
-- truncation is synced; a frame is written in front of a slot that holds no valid
-- frame.
def Undisturbed (checks : Bool) (s : Session) (c : Call) (faults : Faults) : Prop :=
  match c with
  | .writeFrame _ _ _ =>
    s.wal.header.decode (layout.slot s.wal.file.bytes (s.wal.frameNum + 1)) = none
  | .sync => True
  | .checkpoint => s.wal.buffer = [] ∧ faults.Readable ∧
    (s.wal.truncates checks faults → faults.sync = false)

-- The bytes a crash cannot take away hold, up to the end of the log, nothing
-- but frames of the log, and beyond it what the file holds.
structure Sound (s : Session) : Prop where
  logged : Logged s.wal s.log 0
  header : s.wal.header = WALHeader.parse (s.wal.file.durable.take WAL_HEADER_SIZE)
  front : s.wal.image.take WAL_HEADER_SIZE = s.wal.file.durable.take WAL_HEADER_SIZE
  beyond : ∀ i, s.log.length < i →
    layout.slot s.wal.file.durable i = layout.slot s.wal.image i
  stable : ∀ i frame, i ≤ s.log.length →
    s.wal.header.decode (layout.slot s.wal.file.durable i) = some frame → s.log[i]? = some frame

variable {s : Session} {w : WALInner} {log : List WALFrame} {synced : Nat}

theorem logged_get (h : Logged w log synced) {i : Nat} {frame : WALFrame} (hi : i ≤ log.length)
    (hframe : w.header.decode (layout.slot w.image i) = some frame) : log[i]? = some frame := by
  rcases Nat.lt_or_ge i log.length with hlt | hge
  · have hget := List.getElem?_eq_getElem hlt
    have hholds := h.holds i _ hget
    rw [hframe] at hholds
    rw [hget, ← hholds]
  · have hlen : i = log.length := by omega
    rw [hlen, h.ends] at hframe
    cases hframe

-- When the whole file is durable, what the log says of it is all there is.
theorem sound_of_durable (h : Logged w log synced) (himage : w.image = w.file.durable)
    (hheader : w.header = WALHeader.parse (w.file.durable.take WAL_HEADER_SIZE)) :
    Sound ⟨w, log⟩ := by
  refine ⟨h.weaken, hheader, by rw [himage], fun i _ => by rw [himage], ?_⟩
  intro i frame hi hframe
  rw [← himage] at hframe
  exact logged_get h hi hframe

theorem Sound.seesPrefix (hs : Sound s) (Q : Faults → Prop) : s.SeesPrefix Q := by
  intro faults bytes w _ hcrash hopen
  obtain ⟨-, hbytes, -, -, hheader, -, -⟩ := reopen_spec hopen
  have hsame : w.header = s.wal.header := by
    rw [hheader, hcrash.1, hs.header]
  refine (List.take_prefix _ _).trans ?_
  unfold recognised
  rw [hsame, hbytes]
  apply Layout.scan_prefix
  intro i frame hi hframe
  rcases (hcrash.2 i).2 with hold | hnew | hbad
  · rw [hold] at hframe
    exact hs.stable i frame hi hframe
  · rw [hnew] at hframe
    exact logged_get hs.logged hi hframe
  · rw [hbad] at hframe
    cases hframe

theorem opened_eq (hw : w.Opened) : opened w = ⟨w, w.recognised⟩ := by
  have hcount := hw.logged.count
  rw [opened, hcount, List.take_length]

theorem sound_opened (hw : w.Opened) : Sound (opened w) := by
  have hl := hw.logged
  rw [opened_eq hw]
  rcases hw with ⟨salt1, salt2, rfl⟩ | ⟨faults, bytes, -, hbytes⟩
  · refine sound_of_durable hl (image_of_empty rfl) ?_
    have hlen := length_create salt1 salt2
    show _ = WALHeader.parse ((create salt1 salt2).file.bytes.take WAL_HEADER_SIZE)
    rw [List.take_of_length_le (Nat.le_of_eq hlen)]
    exact (WALHeader.parse_serialize rfl).symm
  · obtain ⟨-, hb, hd, hbuf, hheader, -, -⟩ := reopen_spec hbytes
    refine sound_of_durable hl ?_ ?_
    · rw [image_of_empty hbuf, hb, hd]
    · rw [hheader, hd]

theorem Sound.drained {w' : WALInner} (hs : Sound s) (hd : Drained s.wal w') :
    Sound { s with wal := w' } := by
  refine ⟨hd.logged hs.logged, ?_, ?_, ?_, ?_⟩
  · rw [hd.header_eq, hd.durable_eq]
    exact hs.header
  · rw [hd.image_eq, hd.durable_eq]
    exact hs.front
  · rw [hd.image_eq, hd.durable_eq]
    exact hs.beyond
  · rw [hd.header_eq, hd.durable_eq]
    exact hs.stable

theorem Sound.writeFrame (hs : Sound s) (checks : Bool) (faults : Faults) (txId pageNum : UInt64)
    (pageData : Bytes) (hu : s.Undisturbed checks (.writeFrame txId pageNum pageData) faults) :
    Sound (s.call checks faults (.writeFrame txId pageNum pageData)) := by
  rcases writeFrame_cases hs.logged faults txId pageNum pageData with
    ⟨e, w', heq, hd⟩ | ⟨v, heq, hsize, hready, himage, hheader, hnum, hdurable⟩
  · simp only [call, heq]
    exact hs.drained hd
  simp only [call, heq]
  generalize hframe : s.wal.header.frame txId pageNum pageData = frame
  have hdecode : v.header.decode (serializeFrame frame) = some frame := by
    rw [hheader, ← hframe]
    exact decode_frame _ _ _ hsize
  have hnone : s.wal.header.decode (layout.slot s.wal.image (s.wal.frameNum + 1)) = none := by
    rw [hs.logged.slot_next (Nat.le_succ _)]
    exact hu
  have hnext : v.header.decode (layout.slot v.image (v.frameNum + 1)) = none := by
    rw [hheader, himage, hnum]
    exact hnone
  have hlen := hs.logged.length_le
  have hcount := hs.logged.count
  have hpushed : (v.pushed frame).image =
      overwrite s.wal.image (layout.offset s.wal.frameNum) (serializeFrame frame) := by
    rw [hready.image_pushed, himage, hnum]
  have hdur : (v.pushed frame).file.durable = s.wal.file.durable := hdurable
  have hhead : (v.pushed frame).header = s.wal.header := hheader
  refine ⟨hready.logged hdecode hnext, ?_, ?_, ?_, ?_⟩
  · rw [hhead, hdur]
    exact hs.header
  · have hfront : WAL_HEADER_SIZE ≤ layout.offset s.wal.frameNum :=
      layout.offset_mono (Nat.zero_le _)
    show (v.pushed frame).image.take WAL_HEADER_SIZE = _
    rw [hdur, ← hs.front, hpushed, take_overwrite hlen hfront]
  · intro i hi
    simp only [List.length_append, List.length_singleton] at hi
    show layout.slot (v.pushed frame).file.durable i = layout.slot (v.pushed frame).image i
    rw [hdur, hpushed, Layout.slot_overwrite_after hlen]
    · exact hs.beyond i (by omega)
    · have hsz : (serializeFrame frame).length = layout.size := whole_decode _ _ _ hdecode
      rw [hsz]
      exact layout.offset_lt (by omega)
  · intro i f hi hf
    simp only [List.length_append, List.length_singleton] at hi
    simp only [hhead, hdur] at hf
    rcases Nat.lt_or_ge s.log.length i with hgt | hle
    · have heq : i = s.wal.frameNum + 1 := by omega
      rw [hs.beyond i hgt, heq, hnone] at hf
      cases hf
    · have hget := hs.stable i f hle hf
      have hlt := (List.getElem?_eq_some_iff.mp hget).1
      rw [List.getElem?_append_left hlt]
      exact hget

theorem Sound.sync (hs : Sound s) (checks : Bool) (faults : Faults) :
    Sound (s.call checks faults .sync) := by
  rcases sync_cases hs.logged faults with ⟨e, w', heq, hd⟩ | ⟨v, heq, hd, hbuf⟩
  · simp only [call, heq]
    exact hs.drained hd
  · simp only [call, heq]
    have hv := hs.drained hd
    have hl := hv.logged
    have himage : v.image = v.file.bytes := image_of_empty hbuf
    have hfront := hv.front
    have hheader := hv.header
    simp only [himage] at hfront
    have hl' : Logged { v with file := v.file.syncAll } s.log 0 := ⟨hl.holds, hl.ends, hl.count,
      hl.header, hl.placed, hl.pending, hl.within, hl.kept, hl.synced_le⟩
    refine sound_of_durable hl' himage ?_
    show v.header = WALHeader.parse (v.file.bytes.take WAL_HEADER_SIZE)
    rw [hfront]
    exact hheader

theorem Sound.checkpoint (hs : Sound s) (checks : Bool) (faults : Faults)
    (hu : s.Undisturbed checks .checkpoint faults) : Sound (s.call checks faults .checkpoint) := by
  obtain ⟨hbuf, hf, hsync⟩ := hu
  have hl := hs.logged
  have himage : s.wal.image = s.wal.file.bytes := image_of_empty hbuf
  rcases checkpoint_cases hl hbuf checks hf with
    ⟨e, written, w', heq, htr, hbytes, hdur, hbuf', hheader, hnum, hpos⟩ |
    ⟨r, written, w', heq, htr, -, hbytes, hbuf', hheader, hnum, hpos, hdur⟩
  · simp only [call, heq, htr, Bool.false_eq_true, if_false]
    have himage' : w'.image = s.wal.image := by
      rw [image_of_empty hbuf', hbytes, himage]
    have hholds := hl.holds
    have hends := hl.ends
    rw [himage, ← hbytes, ← hheader] at hholds hends
    have hlogged := logged_of_file hbuf' hholds hends (hnum.trans hl.count)
      (by rw [hbytes]; exact hl.header) (fun heq => by rw [hpos] at heq; omega)
    refine ⟨hlogged.weaken, ?_, ?_, ?_, ?_⟩
    · simp only [hheader, hdur]
      exact hs.header
    · simp only [himage', hdur]
      exact hs.front
    · simp only [himage', hdur]
      exact hs.beyond
    · simp only [hheader, hdur]
      exact hs.stable
  · simp only [call, heq, htr, if_true]
    have hlen : w'.file.bytes.length = WAL_HEADER_SIZE := by
      rw [hbytes, List.length_take]
      exact Nat.min_eq_left hl.header
    simp only [hsync htr, Bool.false_eq_true, if_false] at hdur
    refine sound_of_durable (logged_truncated hbuf' hnum hpos hlen) ?_ ?_
    · rw [image_of_empty hbuf', hdur]
    · rw [hheader, hdur, hbytes, List.take_take, Nat.min_self, ← himage, hs.front]
      exact hs.header

theorem Reached.sound {checks : Bool} (hr : Reached checks (Undisturbed checks) Faults.Readable s) :
    Sound s := by
  induction hr with
  | created salt1 salt2 => exact sound_opened (.inl ⟨salt1, salt2, rfl⟩)
  | opened hf hopen => exact sound_opened (.inr ⟨_, _, hf, hopen⟩)
  | @call s c faults _ hu ih =>
    cases c with
    | writeFrame txId pageNum pageData => exact ih.writeFrame checks faults txId pageNum pageData hu
    | sync => exact ih.sync checks faults
    | checkpoint => exact ih.checkpoint checks faults hu
  | crash _ _ hf hopen _ => exact sound_opened (.inr ⟨_, _, hf, hopen⟩)

-- In every history whose calls are undisturbed and whose opens read the whole log,
-- an open after a crash, whatever it fails to read, never recognises a frame that is
-- not in the logical log in that place.
theorem reopen_sees_prefix {checks : Bool}
    (hr : Reached checks (Undisturbed checks) Faults.Readable s) : s.SeesPrefix fun _ => True :=
  hr.sound.seesPrefix _

theorem reopen_sees_prefix_written :
    ((opened (create 1 1)).call false .none (.writeFrame 1 5 (filledPage 7))).SeesPrefix
      fun _ => True := by
  have hr : Reached false (Undisturbed false) Faults.Readable
      ((opened (create 1 1)).call false .none (.writeFrame 1 5 (filledPage 7))) := by
    apply Reached.call (.created 1 1)
    show (create 1 1).header.decode (layout.slot (create 1 1).file.bytes 1) = none
    rw [Layout.slot_short]
    · exact decode_nil _
    · rw [length_create]
      exact layout.offset_mono (Nat.zero_le 1)
  exact reopen_sees_prefix hr

section Stale

variable {a b c : Bytes}

def hole : Bytes := List.replicate WAL_FRAME_SIZE 0

theorem decode_hole (header : WALHeader) (h : header.salt1 ≠ 0) : header.decode hole = none := by
  have hsalt : (parseFrame hole).salt1 = 0 := by
    simp only [parseFrame, slice, hole, List.drop_replicate, List.take_replicate]
    rfl
  unfold WALHeader.decode
  rw [if_neg]
  rintro ⟨-, hacc⟩
  simp only [WALHeader.accepts, hsalt, Bool.and_eq_true, decide_eq_true_eq] at hacc
  exact h hacc.1.1.symm

theorem call_writeFrame (h : Logged w log synced) (txId pageNum : UInt64) (ha : a.length = PAGE_SIZE) :
    ∃ w', (⟨w, log⟩ : Session).call false .none (.writeFrame txId pageNum a) =
        ⟨w', log ++ [w.header.frame txId pageNum a]⟩ ∧
      w'.image = overwrite w.image (layout.offset w.frameNum)
        (serializeFrame (w.header.frame txId pageNum a)) ∧
      w'.header = w.header ∧ w'.file.durable = w.file.durable ∧
      (w.header.decode (layout.slot w.file.bytes (w.frameNum + 1)) = none →
        Logged w' (log ++ [w.header.frame txId pageNum a]) synced) := by
  rcases writeFrame_cases h .none txId pageNum a with
    ⟨e, w', heq, -⟩ | ⟨v, heq, -, hready, himage, hheader, hnum, hdurable⟩
  · have hok := writeFrame_none_ok w txId pageNum ha
    rw [heq] at hok
    cases hok
  · refine ⟨v.pushed (w.header.frame txId pageNum a), by simp only [call, heq], ?_, hheader,
      hdurable, ?_⟩
    · rw [hready.image_pushed, himage, hnum]
    · intro hnone
      rw [← h.slot_next (Nat.le_succ _)] at hnone
      apply hready.logged
      · rw [hheader]
        exact decode_frame _ _ _ ha
      · rw [hheader, himage, hnum]
        exact hnone

theorem slot_two {front x y : Bytes} (hfront : front.length = layout.offset 0)
    (hx : x.length = layout.size) (hy : y.length = layout.size) :
    let bytes := overwrite (overwrite front (layout.offset 0) x) (layout.offset 1) y
    layout.slot bytes 0 = x ∧ layout.slot bytes 1 = y ∧ (∀ i, 2 ≤ i → layout.slot bytes i = []) ∧
      bytes.take WAL_HEADER_SIZE = front ∧ WAL_HEADER_SIZE ≤ bytes.length := by
  have hle := Nat.le_of_eq hfront.symm
  have hheader : layout.offset 0 = WAL_HEADER_SIZE := layout.offset_zero
  have hoff : layout.offset 1 = layout.offset 0 + layout.size := layout.offset_succ 0
  have hoff₁ : layout.offset 2 = layout.offset 1 + layout.size := layout.offset_succ 1
  have hlen : (overwrite front (layout.offset 0) x).length = layout.offset 1 := by
    rw [length_overwrite hle, hfront, hx, ← hoff, Nat.max_eq_right (by omega)]
  have hle₁ := Nat.le_of_eq hlen.symm
  have hlen₁ : (overwrite (overwrite front (layout.offset 0) x) (layout.offset 1) y).length =
      layout.offset 2 := by
    rw [length_overwrite hle₁, hlen, hy, ← hoff₁, Nat.max_eq_right (by omega)]
  refine ⟨?_, Layout.slot_overwrite_self hle₁ hy, ?_, ?_, ?_⟩
  · rw [Layout.slot_overwrite_before hle₁ (Nat.le_of_eq hoff.symm), Layout.slot_overwrite_self hle hx]
  · intro i hi
    apply Layout.slot_short
    rw [hlen₁]
    exact layout.offset_mono hi
  · rw [← hheader, take_overwrite hle₁ (by omega), take_overwrite hle (Nat.le_refl _)]
    exact List.take_of_length_le (Nat.le_of_eq hfront)
  · omega

-- Two frames are written; a crash keeps the second and not the first.
theorem crash_keeps_second {front x y : Bytes} (hfront : front.length = layout.offset 0)
    (hx : x.length = layout.size) (hy : y.length = layout.size) (hdurable : w.file.durable = front)
    (himage : w.image = overwrite (overwrite front (layout.offset 0) x) (layout.offset 1) y)
    (hsalt : w.header.salt1 ≠ 0) :
    CrashLeaves w (overwrite (overwrite front (layout.offset 0) hole) (layout.offset 1) y) := by
  obtain ⟨hi₀, hi₁, hi₂, -, -⟩ := slot_two hfront hx hy
  obtain ⟨hc₀, hc₁, hc₂, htake, -⟩ := slot_two hfront (x := hole) List.length_replicate hy
  have hshort : ∀ i, layout.slot front i = [] := fun i =>
    Layout.slot_short (by rw [hfront]; exact layout.offset_mono (Nat.zero_le i))
  have hpos := frameSize_pos
  refine ⟨?_, ?_⟩
  · rw [htake, hdurable]
    exact (List.take_of_length_le (Nat.le_of_eq hfront)).symm
  · intro i
    rw [hdurable, hshort, himage]
    rcases i with _ | _ | i
    · rw [hi₀, hc₀]
      refine ⟨fun hnil => ?_, .inr (.inr (decode_hole _ hsalt))⟩
      rw [← hnil] at hx
      simp only [List.length_nil] at hx
      omega
    · rw [hi₁, hc₁]
      refine ⟨fun hnil => hnil.symm, .inr (.inl rfl)⟩
    · rw [hi₂ _ (by omega), hc₂ _ (by omega)]
      exact ⟨fun _ => rfl, .inl rfl⟩

-- The next open recognises neither frame.
theorem reached_torn (hlog : Logged w [] 0) (hr : Reached false (fun _ _ => Faultless) Faultless ⟨w, []⟩)
    (hlen : w.file.bytes.length = layout.offset 0) (hbuf : w.buffer = [])
    (hdurable : w.file.durable = w.file.bytes) (hsalt : w.header.salt1 ≠ 0)
    (hparse : WALHeader.parse w.file.bytes = w.header) (hmagic : w.header.magic = WAL_MAGIC)
    (ha : a.length = PAGE_SIZE) (hb : b.length = PAGE_SIZE) :
    ∃ w', Reached false (fun _ _ => Faultless) Faultless ⟨w', []⟩ ∧ Logged w' [] 0 ∧ w'.buffer = [] ∧
      w'.file.durable = w'.file.bytes ∧ w'.header = w.header ∧
      WAL_HEADER_SIZE ≤ w'.file.bytes.length ∧ w'.file.bytes.take WAL_HEADER_SIZE = w.file.bytes ∧
      layout.slot w'.file.bytes 1 = serializeFrame (w.header.frame 1 6 b) := by
  have hsize : ∀ {txId pageNum : UInt64} {data : Bytes}, data.length = PAGE_SIZE →
      (serializeFrame (w.header.frame txId pageNum data)).length = layout.size :=
    fun hdata => length_serializeFrame hdata
  obtain ⟨w₁, hcall₁, himage₁, hheader₁, hdur₁, hlog₁⟩ := call_writeFrame hlog 1 5 ha
  have hr₁ : Reached false (fun _ _ => Faultless) Faultless ((⟨w, []⟩ : Session).call false .none (.writeFrame 1 5 a)) :=
    hr.call rfl
  rw [hcall₁] at hr₁
  replace hlog₁ := hlog₁ (by
    rw [Layout.slot_short (by rw [hlen]; exact layout.offset_mono (Nat.zero_le _))]
    exact decode_nil _)
  obtain ⟨w₂, hcall₂, himage₂, hheader₂, hdur₂, -⟩ := call_writeFrame hlog₁ 1 6 hb
  have hr₂ : Reached false (fun _ _ => Faultless) Faultless (Session.call false _ .none (.writeFrame 1 6 b)) :=
    hr₁.call rfl
  rw [hcall₂] at hr₂
  rw [hlog₁.count, himage₁, hlog.count, image_of_empty hbuf, hheader₁] at himage₂
  -- The crash, and the open after it.
  have hcrash := crash_keeps_second hlen (hsize ha) (hsize hb)
    ((hdur₂.trans hdur₁).trans hdurable) himage₂ (by rw [hheader₂, hheader₁]; exact hsalt)
  obtain ⟨hs₀, hs₁, -, htake, hle⟩ :=
    slot_two hlen (x := hole) (y := serializeFrame (w.header.frame 1 6 b)) List.length_replicate
      (hsize hb)
  generalize overwrite (overwrite w.file.bytes (layout.offset 0) hole) (layout.offset 1)
    (serializeFrame (w.header.frame 1 6 b)) = torn at *
  obtain ⟨w₃, hopen⟩ := reopen_ok .none hle (by rw [htake, hparse]; exact hmagic)
  obtain ⟨-, hbytes, hdur, hbuf₃, hheader, -, -⟩ := reopen_spec hopen
  rw [htake, hparse] at hheader
  have hrec : w₃.recognised = [] := by
    apply Layout.scan_eq (whole_decode _) frameSize_pos
    · intro i frame hi
      cases hi
    · rw [List.length_nil, hbytes, hs₀, hheader]
      exact decode_hole _ hsalt
  have hr₃ : Reached false (fun _ _ => Faultless) Faultless (opened w₃) := hr₂.crash hcrash rfl hopen
  have hlog₃ : Logged w₃ w₃.recognised w₃.recognised.length := Opened.logged (.inr ⟨.none, torn, Faults.readable_none, hopen⟩)
  simp only [opened, hrec, List.take_nil] at hr₃ hlog₃
  rw [← hbytes] at htake hle hs₁
  exact ⟨w₃, hr₃, hlog₃, hbuf₃, hdur.trans hbytes.symm, hheader, hle, htake, hs₁⟩

-- A frame written in the place of the first brings the second back.
theorem stale_returns {front : Bytes} {stale : WALFrame}
    (hr : Reached false (fun _ _ => Faultless) Faultless ⟨w, []⟩) (hlog : Logged w [] 0)
    (hbuf : w.buffer = [])
    (hdurable : w.file.durable = w.file.bytes)
    (hle : WAL_HEADER_SIZE ≤ w.file.bytes.length)
    (htake : w.file.bytes.take WAL_HEADER_SIZE = front)
    (hparse : WALHeader.parse front = w.header) (hmagic : w.header.magic = WAL_MAGIC)
    (hstale : w.header.decode (layout.slot w.file.bytes 1) = some stale)
    (hc : c.length = PAGE_SIZE) : ∃ s, Reached false (fun _ _ => Faultless) Faultless s ∧ ¬ s.SeesPrefix Faultless := by
  obtain ⟨w₁, hcall, himage, -, hdur, -⟩ := call_writeFrame hlog 2 7 hc
  have hr₁ : Reached false (fun _ _ => Faultless) Faultless ((⟨w, []⟩ : Session).call false .none (.writeFrame 2 7 c)) :=
    hr.call rfl
  rw [hcall] at hr₁
  rw [hlog.count, image_of_empty hbuf, List.length_nil] at himage
  generalize hframe : w.header.frame 2 7 c = frame at *
  have hdecode : w.header.decode (serializeFrame frame) = some frame := by
    rw [← hframe]
    exact decode_frame _ _ _ hc
  have hsize : (serializeFrame frame).length = layout.size := whole_decode _ _ _ hdecode
  have hle₀ : layout.offset 0 ≤ w.file.bytes.length := hle
  have htake₁ : w₁.image.take WAL_HEADER_SIZE = front := by
    rw [himage, ← htake]
    exact take_overwrite hle₀ (Nat.le_refl _) _
  have hle₁ : WAL_HEADER_SIZE ≤ w₁.image.length := by
    rw [himage, length_overwrite hle₀]
    exact Nat.le_trans hle (Nat.le_max_left _ _)
  obtain ⟨w₂, hopen⟩ := reopen_ok .none hle₁ (by rw [htake₁, hparse]; exact hmagic)
  obtain ⟨-, hbytes, -, -, hheader, -, -⟩ := reopen_spec hopen
  rw [htake₁, hparse] at hheader
  refine ⟨_, hr₁, fun hsees => ?_⟩
  have hpre := hsees .none w₁.image w₂ rfl ⟨?_, fun i => ⟨fun heq => heq.symm, .inr (.inl rfl)⟩⟩ hopen
  rw [opened_eq (.inr ⟨.none, _, Faults.readable_none, hopen⟩)] at hpre
  · have hholds : layout.Holds w₂.header.decode w₂.file.bytes [frame, stale] := by
      intro i r hi
      rw [hbytes, himage, hheader]
      rcases i with _ | _ | i
      · rw [Layout.slot_overwrite_self hle₀ hsize, ← Option.some.inj hi]
        exact hdecode
      · have hoff : layout.offset (0 + 1) = layout.offset 0 + layout.size := layout.offset_succ 0
        rw [Layout.slot_overwrite_after hle₀ (Nat.le_of_eq (by rw [hsize, hoff])),
          ← Option.some.inj hi]
        exact hstale
      · cases hi
    have hlong := (hholds.prefix_scan (whole_decode _) frameSize_pos).length_le
    have hshort := hpre.length_le
    simp only [recognised, List.length_cons, List.length_nil, List.length_append] at hlong hshort
    omega
  · rw [htake₁, hdur, hdurable, htake]

end Stale

theorem reopen_sees_stale : ¬ ∀ s, Reached false (fun _ _ => Faultless) Faultless s → s.SeesPrefix Faultless := by
  have hrec := recognised_of_length (length_create 1 1)
  have hr : Reached false (fun _ _ => Faultless) Faultless (opened (create 1 1)) := .created 1 1
  have hlog := logged_create 1 1
  simp only [opened, hrec, List.take_nil] at hr
  intro h
  obtain ⟨w, hr', hlog', hbuf, hdur, hheader, hle, htake, hslot⟩ := reached_torn hlog hr
    (length_create 1 1) rfl rfl (by decide) (WALHeader.parse_serialize rfl) rfl
    (length_filledPage 7) (length_filledPage 8)
  obtain ⟨s, hs, hbad⟩ := stale_returns hr' hlog' hbuf hdur hle htake
    (by rw [hheader]; exact WALHeader.parse_serialize rfl) (by rw [hheader]; rfl)
    (by rw [hslot, hheader]; exact decode_frame _ _ _ (length_filledPage 8))
    (length_filledPage 9)
  exact hbad (h s hs)

end Session

end JasonDb.WalFile
