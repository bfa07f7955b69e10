import JasonDb.Metadata
import Mathlib.Logic.Relation

namespace JasonDb

open Lib

-- `cache` holds the pages in memory and `dirty` those not yet in the file. Which
-- clean pages are cached is up to the replacement policy.
structure Pager where
  cache : PageNum → Option Page
  dirty : HashSet PageNum
  file : Disk Page
  numPages : Nat
  metadataPage : PageNum
  nextTxId : TransactionID
  freeList : List PageNum
  readOnly : Bool

namespace Pager

-- A page that lies inside the file and was never written reads as zeros.
def filePage (p : Pager) (pageNum : PageNum) : Option Page :=
  if pageNum < p.file.len then some ((p.file.content pageNum).getD .zero) else none

-- What a reader sees: the cached page, or the one in the file.
def view (p : Pager) (pageNum : PageNum) : Option Page :=
  (p.cache pageNum).or (p.filePage pageNum)

def readPage (p : Pager) (pageNum : PageNum) : Except Error Page :=
  match p.view pageNum with
  | some page => .ok page
  | none => .error (.io "failed to fill whole buffer")

def writePageTransfer (p : Pager) (pageNum : PageNum) (page : Page) : Except Error Unit × Pager :=
  if p.readOnly then (.error (.other "cannot write page: database is read-only"), p)
  else if page.byteLen ≠ PAGE_SIZE then (.error .invalidPageSize, p)
  else (.ok (), { p with
    cache := Function.update p.cache pageNum (some page)
    dirty := p.dirty.insert pageNum () })

-- The free list is a stack that grows at its end. Pages below the minimum are
-- popped on the way and dropped.
def allocPageMinimum (p : Pager) (minPage : PageNum) : Except Error PageNum × Pager :=
  if p.readOnly then (.error (.other "cannot allocate page: database is read-only"), p)
  else match p.freeList.reverse.dropWhile (· < minPage) with
    | pageNum :: rest => (.ok pageNum, { p with freeList := rest.reverse })
    | [] => (.ok p.numPages, { p with freeList := [], numPages := p.numPages + 1 })

def freePage (p : Pager) (pageNum : PageNum) : Except Error Unit × Pager :=
  if p.readOnly then (.error (.other "cannot free page: database is read-only"), p)
  else (.ok (), { p with
    freeList := p.freeList ++ [pageNum]
    cache := Function.update p.cache pageNum none
    dirty := if (p.cache pageNum).isSome then p.dirty.erase pageNum else p.dirty })

def headerData (p : Pager) : Header := ⟨p.numPages, p.metadataPage, p.nextTxId, p.freeList⟩

def writeHeaderNoSync (p : Pager) : Except Error Unit × Pager :=
  if p.readOnly then (.error (.other "cannot write header: database is read-only"), p)
  else (.ok (), { p with file := p.file.write 0 (.header p.headerData) })

def writeHeader (p : Pager) : Except Error Unit × Pager :=
  if p.readOnly then (.error (.other "cannot write header: database is read-only"), p)
  else (.ok (), { p with file := (p.file.write 0 (.header p.headerData)).sync })

-- Dirty pages that are no longer cached are skipped.
def writeDirty (p : Pager) : List PageNum → Disk Page → Disk Page
  | [], file => file
  | pageNum :: rest, file => match p.cache pageNum with
    | some page => writeDirty p rest (file.write pageNum page)
    | none => writeDirty p rest file

def flushNoSync (p : Pager) : Pager :=
  if p.readOnly then p
  else { p with file := p.writeDirty p.dirty.keys p.file, dirty := ∅ }

def flush (p : Pager) : Pager :=
  if p.readOnly then p
  else { p with file := (p.writeDirty p.dirty.keys p.file).sync, dirty := ∅ }

def syncDataOnly (p : Pager) : Pager :=
  if p.readOnly then p else { p with file := p.file.sync }

end Pager

-- The pages a page points to. Links between leaves are not among them: they are only hints.
def Page.links : Page → List PageNum
  | .node n => n.children ++ n.entries.map LeafEntry.value
  | .doc d => if d.overflow = 0 then [] else [d.overflow]
  | .overflow o => if o.next = 0 then [] else [o.next]
  | _ => []

def Links (v : PageNum → Option Page) (p q : PageNum) : Prop := ∃ page, v p = some page ∧ q ∈ page.links

def Reaches (v : PageNum → Option Page) : PageNum → PageNum → Prop := Relation.ReflTransGen (Links v)

end JasonDb
