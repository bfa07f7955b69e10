import JasonDb.Checked
import JasonDb.Wal.Frame
import JasonDb.Lib.HashMap

namespace JasonDb.WalFile

open Lib

-- The log file, the bytes its buffered writer still holds, and what the process
-- believes about the file.
structure WALInner where
  file : File
  buffer : Bytes
  header : WALHeader
  frameNum : Nat
  filePosition : Int

-- What the environment does to the file operations of one call. A failing write
-- of the buffer takes `flush` of its bytes; a failing write of pages to the
-- database file takes `pager` of the pages. Of what is read back, `stat` is the
-- metadata of the file; `slot` the first slot that cannot be counted, since the
-- seek to it fails or the read does and leaves the cursor somewhere; `rewind` the
-- seek to the first frame; `readBack` the number of frames read from there before
-- a read fails, and where that leaves the cursor.
structure Faults where
  flush : Option Nat
  seek : Bool
  sync : Bool
  pager : Option Nat
  setLen : Bool
  stat : Bool
  slot : Option (Nat × Option Nat)
  rewind : Bool
  readBack : Option (Nat × Nat)

namespace Faults

def none : Faults := ⟨.none, false, false, .none, false, false, .none, false, .none⟩

-- Nothing that is read back fails.
structure Readable (faults : Faults) : Prop where
  stat : faults.stat = false
  slot : faults.slot = .none
  rewind : faults.rewind = false
  readBack : faults.readBack = .none

theorem readable_none : none.Readable := ⟨rfl, rfl, rfl, rfl⟩

-- How many of `count` frames are counted.
def counted (faults : Faults) (count : Nat) : Nat :=
  if faults.stat then 0 else (faults.slot.map fun fault => min fault.1 count).getD count

theorem Readable.counted {faults : Faults} (h : faults.Readable) (count : Nat) :
    faults.counted count = count := by
  rw [Faults.counted, h.stat, h.slot]
  rfl

end Faults

abbrev DbPage := UInt64 × Bytes

namespace WALInner

-- `BufWriter::flush`. What a failing write has not taken stays in the buffer.
def flush (faults : Faults) (w : WALInner) : Except Error Unit × WALInner :=
  let accepted := faults.flush.getD w.buffer.length
  let w' := { w with file := w.file.write (w.buffer.take accepted), buffer := w.buffer.drop accepted }
  if w.buffer.length ≤ accepted then (.ok (), w') else (.error (.io "write failed"), w')

-- `BufWriter::write_all` for data smaller than the buffer.
def writeAll (faults : Faults) (data : Bytes) (w : WALInner) : Except Error Unit × WALInner :=
  if data.length ≤ WAL_BUFFER_SIZE - w.buffer.length then
    (.ok (), { w with buffer := w.buffer ++ data })
  else
    match w.flush faults with
    | (.error e, w) => (.error e, w)
    | (.ok (), w) => (.ok (), { w with buffer := w.buffer ++ data })

-- Only seek when not at the expected position.
def moveTo (faults : Faults) (offset : Nat) (w : WALInner) : Except Error Unit × WALInner :=
  if w.filePosition = offset then (.ok (), w)
  else
    match w.flush faults with
    | (.error e, w) => (.error e, w)
    | (.ok (), w) =>
      if faults.seek then (.error (.io "seek failed"), w)
      else (.ok (), { w with file := w.file.seek offset })

def writeFrame (faults : Faults) (txId pageNum : UInt64) (pageData : Bytes) (w : WALInner) :
    Except Error Unit × WALInner :=
  if pageData.length ≠ PAGE_SIZE then (.error .invalidPageSize, w)
  else
    let data := serializeFrame (w.header.frame txId pageNum pageData)
    let offset := layout.offset w.frameNum
    match w.moveTo faults offset with
    | (.error e, w) => (.error e, w)
    | (.ok (), w) =>
      match w.writeAll faults data with
      | (.error e, w) => (.error e, w)
      | (.ok (), w) =>
        (.ok (), { w with
          filePosition := (offset + WAL_FRAME_SIZE : Nat), frameNum := w.frameNum + 1 })

def sync (faults : Faults) (w : WALInner) : Except Error Unit × WALInner :=
  match w.flush faults with
  | (.error e, w) => (.error e, w)
  | (.ok (), w) =>
    if faults.sync then (.error (.io "sync failed"), w)
    else (.ok (), { w with file := w.file.syncAll })

-- The file when slot `i` is to be counted and cannot be.
def unreadable (faults : Faults) (i : Nat) (w : WALInner) : Option File :=
  (faults.slot.filter fun fault => fault.1 = i).map fun fault =>
    (fault.2.map w.file.seek).getD w.file

-- The loop of `count_frames` over the slots from `i` on. A slot that cannot be
-- read is the end of the frames, and no error.
def countFrom (faults : Faults) : Nat → Nat → WALInner → Nat × WALInner
  | 0, i, w => (i, w)
  | fuel + 1, i, w =>
    match w.unreadable faults i with
    | some file => (i, { w with file })
    | none =>
      match (w.file.seek (layout.offset i)).readExact WAL_FRAME_SIZE with
      | (none, file) => (i, { w with file })
      | (some data, file) =>
        let w := { w with file, filePosition := (layout.offset i + WAL_FRAME_SIZE : Nat) }
        if w.header.accepts (parseFrame data) then countFrom faults fuel (i + 1) w else (i, w)

def countFrames (faults : Faults) (w : WALInner) : Nat × WALInner :=
  if faults.stat then (0, w)
  else if w.file.bytes.length < WAL_HEADER_SIZE then (0, w)
  else countFrom faults ((w.file.bytes.length - WAL_HEADER_SIZE) / WAL_FRAME_SIZE) 0 w

-- The frames `count_frames` recognises in the file.
def recognised (w : WALInner) : List WALFrame := layout.scan w.header.decode w.file.bytes

-- The frames `checkpoint` reads back, up to the first with other salts.
def readFrames (w : WALInner) : Nat → Nat → List WALFrame
  | 0, _ => []
  | count + 1, i =>
    let data := layout.slot w.file.bytes i
    let frame := parseFrame data
    if data.length ≠ WAL_FRAME_SIZE then []
    else if frame.salt1 ≠ w.header.salt1 ∨ frame.salt2 ≠ w.header.salt2 then []
    else frame :: readFrames w count (i + 1)

-- A buffered reader moves the shared cursor by whole buffers.
def readAhead (w : WALInner) (count : Nat) : Nat :=
  let consumed := count * WAL_FRAME_SIZE
  min (max WAL_HEADER_SIZE w.file.bytes.length)
    (WAL_HEADER_SIZE + (consumed + (WAL_BUFFER_SIZE - 1)) / WAL_BUFFER_SIZE * WAL_BUFFER_SIZE)

-- Later frames of a page replace earlier ones; frames of page 0 are skipped.
def pageMap (frames : List WALFrame) : HashMap UInt64 Bytes :=
  frames.foldl (fun pages frame =>
    if frame.pageNum ≠ 0 then pages.insert frame.pageNum frame.pageData else pages) ∅

-- A page of the database file under the number of the page in whose place it ends up.
def land (checks : Bool) (page : DbPage) : Except Error DbPage := do
  let block ← landing checks page.1
  .ok (UInt64.ofNat block, page.2)

def landAll (checks : Bool) : List DbPage → Except Error Unit × List DbPage
  | [] => (.ok (), [])
  | page :: pages =>
    match land checks page with
    | .error e => (.error e, [])
    | .ok landed =>
      let (result, written) := landAll checks pages
      (result, landed :: written)

-- `write_pages_direct` and the pager's `flush`, with the pages that reach the database file.
def writePagesDirect (checks : Bool) (faults : Faults) (pages : List DbPage) :
    Except Error Unit × List DbPage :=
  let sorted := pages.mergeSort (fun p q => p.1 ≤ q.1)
  match faults.pager with
  | .none => landAll checks sorted
  | some n => (.error (.io "write failed"), (landAll checks (sorted.take n)).2)

-- `checkpoint` as far as the truncation: the result, the pages written to the
-- database file, and the log. A panic poisons the lock of the log as well; the
-- calls after it, which then do nothing but return an error, are not followed.
def copyBack (checks : Bool) (faults : Faults) (w : WALInner) :
    Except Error Unit × List DbPage × WALInner :=
  let (count, w) := w.countFrames faults
  let w := { w with frameNum := count }
  if faults.rewind then (.error (.io "seek failed"), [], w)
  else
    let (readable, cursor) := faults.readBack.getD (count, w.readAhead count)
    let raw := w.readFrames (min readable count) 0
    let frames := raw.takeWhile fun frame => frame.checksum = calculateChecksum frame
    let (result, written) := writePagesDirect checks faults (pageMap frames).toList
    (result, written, { w with file := w.file.seek cursor, filePosition := -1 })

def truncates (checks : Bool) (faults : Faults) (w : WALInner) : Bool :=
  (w.copyBack checks faults).1.isOk && !faults.setLen

-- The result, the pages written to the database file, and the log afterwards.
def checkpoint (checks : Bool) (faults : Faults) (w : WALInner) :
    Except Error Unit × List DbPage × WALInner :=
  match w.copyBack checks faults with
  | (.error e, written, w) => (.error e, written, w)
  | (.ok (), written, w) =>
    if faults.setLen then (.error (.io "set_len failed"), written, w)
    else
      let w := { w with file := w.file.setLen WAL_HEADER_SIZE, frameNum := 0 }
      if faults.sync then (.error (.io "sync failed"), written, w)
      else (.ok (), written, { w with file := w.file.syncAll })

-- `WAL::open` where there is no log file yet: the header is written and synced.
def create (salt1 salt2 : UInt32) : WALInner :=
  let header : WALHeader := ⟨WAL_MAGIC, 1, salt1, salt2⟩
  ⟨⟨header.serialize, header.serialize, WAL_HEADER_SIZE⟩, [], header, 0, WAL_HEADER_SIZE⟩

-- `WAL::open` on the bytes of a log file.
def reopen (faults : Faults) (bytes : Bytes) : Except Error WALInner :=
  if bytes.length < WAL_HEADER_SIZE then .error (.io "failed to fill whole buffer")
  else
    let header := WALHeader.parse (bytes.take WAL_HEADER_SIZE)
    if header.magic ≠ WAL_MAGIC then .error .walCorrupted
    else
      let w : WALInner := ⟨⟨bytes, bytes, WAL_HEADER_SIZE⟩, [], header, 0, WAL_HEADER_SIZE⟩
      let (count, w) := w.countFrames faults
      .ok { w with frameNum := count }

end WALInner

end JasonDb.WalFile
