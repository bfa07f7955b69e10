import Mathlib.Logic.Function.Basic
import Mathlib.Data.List.Basic

namespace JasonDb.Lib

-- A file of numbered blocks. Writes reach the medium in any order until the
-- next sync, so they are kept apart from the blocks that are already durable.
structure Disk (α : Type) where
  durable : Nat → Option α
  durableLen : Nat
  unsynced : List (Nat × α)

namespace Disk

variable {α : Type}

def empty : Disk α := ⟨fun _ => none, 0, []⟩

def applyWrites (blocks : Nat → Option α) (writes : List (Nat × α)) : Nat → Option α :=
  writes.foldl (fun blocks write => Function.update blocks write.1 (some write.2)) blocks

def extendLen (len : Nat) (writes : List (Nat × α)) : Nat :=
  writes.foldl (fun len write => max len (write.1 + 1)) len

-- What the process reads back: every write it made, synced or not.
def content (d : Disk α) : Nat → Option α := applyWrites d.durable d.unsynced

def len (d : Disk α) : Nat := extendLen d.durableLen d.unsynced

def write (d : Disk α) (block : Nat) (data : α) : Disk α :=
  { d with unsynced := d.unsynced ++ [(block, data)] }

def sync (d : Disk α) : Disk α := ⟨d.content, d.len, []⟩

@[simp] theorem content_write (d : Disk α) (block : Nat) (data : α) :
    (d.write block data).content = Function.update d.content block (some data) := by
  simp [content, write, applyWrites]

@[simp] theorem len_write (d : Disk α) (block : Nat) (data : α) :
    (d.write block data).len = max d.len (block + 1) := by
  simp [len, write, extendLen]

@[simp] theorem content_sync (d : Disk α) : d.sync.content = d.content := rfl

@[simp] theorem len_sync (d : Disk α) : d.sync.len = d.len := rfl

end Disk

end JasonDb.Lib
