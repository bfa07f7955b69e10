import JasonDb.Database.Catalog
import JasonDb.Database.Maintain
import JasonDb.Lib.Commutes
import JasonDb.Transaction.Begin

namespace JasonDb

open Lib

-- What a reader can find out about a database.
structure Observed where
  metadata : Metadata
  pages : PageNum → Option Page
  freeList : List PageNum
  numPages : Nat

def Database.observed (db : Database) : Observed :=
  ⟨db.metadata, db.pager.view, db.pager.freeList, db.pager.numPages⟩

-- The database shows `O`, and no page waits to be written.
structure Database.Shows (O : Observed) (db : Database) : Prop where
  observed : db.observed = O
  clean : db.pager.dirty = ∅

-- The same for a database that was opened to be read.
structure Database.Frozen (O : Observed) (db : Database) : Prop where
  shows : db.Shows O
  readOnly : db.readOnly = true
  pager : db.pager.readOnly = true

-- The database as if it had been opened to be written.
def Database.writable (db : Database) : Database :=
  { db with readOnly := false, pager := { db.pager with readOnly := false } }

variable {ℓ α : Type} {O : Observed} {I : ℓ → Prop} {db : Database}

theorem Database.Frozen.writable (h : db.Frozen O) : db.writable.Shows O :=
  ⟨h.shows.observed, h.shows.clean⟩

theorem unattached_shows : Unattached (Database.Shows O) where
  txIdCounter _ _ h := ⟨h.observed, h.clean⟩
  txManager _ _ h := ⟨h.observed, h.clean⟩

theorem unattached_frozen : Unattached (Database.Frozen O) where
  txIdCounter _ _ h := ⟨⟨h.shows.observed, h.shows.clean⟩, h.readOnly, h.pager⟩
  txManager _ _ h := ⟨⟨h.shows.observed, h.shows.clean⟩, h.readOnly, h.pager⟩

theorem Database.Frozen.withWal (h : db.Frozen O) (wal : WAL) : Database.Frozen O { db with wal } :=
  ⟨⟨h.shows.observed, h.shows.clean⟩, h.readOnly, h.pager⟩

-- A computation that never succeeds on a frozen database and leaves it as it is.
def Refused (O : Observed) (I : ℓ → Prop) (m : DbM ℓ α) : Prop :=
  Proc.Safe (Database.Frozen O) I (fun _ => False) m

section Pages

theorem refused_allocPageMinimum (min : PageNum) :
    Refused O I (allocPageMinimum min : DbM ℓ PageNum) := by
  refine Proc.safe_atomicE fun db h => ?_
  have halloc : db.pager.allocPageMinimum min =
      (.error (.other "cannot allocate page: database is read-only"), db.pager) :=
    if_pos h.pager
  simp only [halloc]
  exact ⟨h, by simp⟩

theorem refused_writePageTransfer (p : PageNum) (page : Page) :
    Refused O I (writePageTransfer p page : DbM ℓ Unit) := by
  refine Proc.safe_atomicE fun db h => ?_
  have hwrite : db.pager.writePageTransfer p page =
      (.error (.other "cannot write page: database is read-only"), db.pager) :=
    if_pos h.pager
  simp only [hwrite]
  exact ⟨h, by simp⟩

theorem refused_freePage (p : PageNum) : Refused O I (freePage p : DbM ℓ Unit) := by
  refine Proc.safe_atomicE fun db h => ?_
  have hfree : db.pager.freePage p =
      (.error (.other "cannot free page: database is read-only"), db.pager) :=
    if_pos h.pager
  simp only [hfree]
  exact ⟨h, by simp⟩

theorem Refused.bind {β : Type} {m : DbM ℓ α} (h : Refused O I m) (f : α → DbM ℓ β) :
    Refused O I (m >>= f) := Proc.Safe.bind h fun _ hfalse => hfalse.elim

theorem Refused.safe {m : DbM ℓ α} {Q : α → Prop} (h : Refused O I m) :
    Proc.Safe (Database.Frozen O) I Q m := h.mono fun _ hfalse => hfalse.elim

end Pages

section Calls

theorem safe_isReadOnly_frozen :
    Proc.Safe (Database.Frozen O) I (· = true) (isReadOnly : DbM ℓ Bool) :=
  Proc.safe_atomic fun _ h => ⟨h, h.readOnly⟩

-- `if self.read_only { return Err(..) }`
theorem refused_guard (e : Error) (m : DbM ℓ α) :
    Refused O I (do if ← isReadOnly then Proc.fail e else m) := by
  refine safe_isReadOnly_frozen.bind fun readOnly h => ?_
  rw [if_pos h]
  exact Proc.safe_fail e

theorem refused_updateMetadata (f : Metadata → Metadata) :
    Refused O I (updateMetadata f : DbM ℓ Unit) := refused_guard _ _

theorem refused_checkpoint : Refused O I (checkpoint : DbM ℓ Unit) := refused_guard _ _

theorem refused_backup : Refused O I (backup : DbM ℓ Unit) := refused_guard _ _

theorem refused_garbageCollect : Refused O I (garbageCollect : DbM ℓ GarbageCollectionStats) :=
  refused_guard _ _

theorem refused_catalogCall [SerdeJson] (u : Unicode) (call : CatalogCall) :
    Refused O I (call.run u : DbM ℓ Unit) := by
  have hname : ∀ name, Proc.Safe (Database.Frozen O) I (fun _ => True) (Proc.ofExcept
      (validateCollectionName u.isAlphabetic u.isAlphanumeric name) : DbM ℓ Unit) :=
    fun name => Proc.safe_ofExcept fun _ _ => trivial
  have hcompound : ∀ name index fields unique, Refused O I (createCompoundIndex u.isAlphabetic
      u.isAlphanumeric name index fields unique : DbM ℓ Unit) := by
    intro name index fields unique
    refine (hname name).bind fun _ _ => ?_
    split
    · exact Proc.safe_fail _
    · exact refused_guard _ _
  have hcheck : ∀ name action, Refused O I
      (checkCall u.isAlphabetic u.isAlphanumeric name action : DbM ℓ Unit) := by
    intro name action
    exact (hname name).bind fun _ _ => refused_guard _ _
  cases call with
  | createIndex name index field unique => exact hcompound name index [field] unique
  | createCompoundIndex name index fields unique => exact hcompound name index fields unique
  | createTextIndex name index fields =>
    refine (hname name).bind fun _ _ => ?_
    split
    · exact Proc.safe_fail _
    · exact refused_guard _ _
  | dropIndex name index => exact (hcheck name _).bind _
  | setSchema name schema => exact (hname name).bind fun _ _ => refused_guard _ _
  | removeSchema name => exact (hcheck name _).bind _

theorem Database.Shows.flush (h : db.Shows O) :
    Database.Shows O { db with pager := db.pager.flush } := by
  unfold Pager.flush
  split
  · exact h
  · refine ⟨?_, rfl⟩
    rw [← h.observed, h.clean]
    rfl

theorem shows_close : Proc.Safe (Database.Shows O) I (fun _ => True) (close : DbM ℓ Unit) := by
  refine (Proc.safe_atomic (Q := fun _ => True) fun _ h => ⟨h.flush, trivial⟩).bind fun _ _ => ?_
  exact Proc.safe_atomicE fun _ h => ⟨⟨h.observed, h.clean⟩, fun _ _ => trivial⟩

theorem frozen_close : Proc.Safe (Database.Frozen O) I (fun _ => True) (close : DbM ℓ Unit) := by
  refine (Proc.safe_atomic (Q := fun _ => True) fun db h => ⟨?_, trivial⟩).bind fun _ _ => ?_
  · have hflush : db.pager.flush = db.pager := if_pos h.pager
    rw [hflush]
    exact h
  · exact Proc.safe_atomicE fun _ h => ⟨h.withWal _, fun _ _ => trivial⟩

end Calls

end JasonDb
