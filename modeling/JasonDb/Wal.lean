import JasonDb.Database.State

namespace JasonDb

open Lib

namespace WAL

-- A call whose file operations may fail, by the environment's choice.
def tick (w : WAL) : WAL := { w with calls := w.calls + 1 }

def failing (w : WAL) : Bool := w.fault w.calls

-- A frame goes to the buffered writer, which first empties a buffer that has no room for it.
def append (w : WAL) (frame : WALFrame) : WAL :=
  if w.buffer.length < WAL_BUFFER_FRAMES then { w with buffer := w.buffer ++ [frame] }
  else { w with frames := w.frames ++ w.buffer, buffer := [frame] }

def frameCount (w : WAL) : Nat := w.frames.length + w.buffer.length

def writeFrame (w : WAL) (txId : TransactionID) (pageNum : PageNum) (pageData : Page) :
    Except Error Unit × WAL :=
  if pageData.byteLen ≠ PAGE_SIZE then (.error .invalidPageSize, w)
  else if w.failing then (.error (.io "write failed"), w.tick)
  else (.ok (), (w.append ⟨txId, pageNum, pageData⟩).tick)

def sync (w : WAL) : Except Error Unit × WAL :=
  if w.failing then (.error (.io "sync failed"), w.tick)
  else
    let frames := w.frames ++ w.buffer
    (.ok (), { w with frames, synced := frames.length, buffer := [], calls := w.calls + 1 })

end WAL

section Actions

variable {ℓ : Type}

def writeFrame (txId : TransactionID) (pageNum : PageNum) (pageData : Page) : DbM ℓ Unit :=
  Proc.atomicE fun db =>
    let (r, wal) := db.wal.writeFrame txId pageNum pageData
    (r, { db with wal })

def syncWal : DbM ℓ Unit :=
  Proc.atomicE fun db =>
    let (r, wal) := db.wal.sync
    (r, { db with wal })

end Actions

end JasonDb
