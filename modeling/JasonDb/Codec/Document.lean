import JasonDb.Checked
import JasonDb.Codec.Node
import JasonDb.Document

namespace JasonDb.Codec

open Lib

def OVERFLOW_SIZE : Nat := 8

def MAX_DOCUMENT_SIZE : Nat := 1024 * 1024 * 1024

-- The pager with pages as bytes: what is in the cache, and behind it the file by the places of
-- its pages. `checks` says whether the build has overflow checks.
structure PageStore where
  cache : PageNum → Option Bytes
  file : PageNum → Option Bytes
  numPages : Nat
  freeList : List PageNum
  readOnly : Bool
  checks : Bool

namespace PageStore

variable (s : PageStore)

-- What a seek to the page and a read of one page there give.
def readAt (pageNum : PageNum) : Except Error Bytes := do
  let offset ← seekPage s.checks (UInt64.ofNat pageNum)
  match s.file (offset / PAGE_SIZE) with
  | some data => .ok data
  | none => .error (.io "failed to fill whole buffer")

def readPage (pageNum : PageNum) : Except Error Bytes :=
  match s.cache pageNum with
  | some data => .ok data
  | none => s.readAt pageNum

-- The page, where it can be read.
def view (pageNum : PageNum) : Option Bytes := (s.readPage pageNum).toOption

def writePageTransfer (pageNum : PageNum) (data : Bytes) : Except Error Unit × PageStore :=
  if s.readOnly then (.error (.other "cannot write page: database is read-only"), s)
  else if data.length ≠ PAGE_SIZE then (.error .invalidPageSize, s)
  else (.ok (), { s with cache := Function.update s.cache pageNum (some data) })

-- No page is below the minimum, which is 0.
def allocPage : Except Error PageNum × PageStore :=
  if s.readOnly then (.error (.other "cannot allocate page: database is read-only"), s)
  else match s.freeList.getLast? with
    | some pageNum => (.ok pageNum, { s with freeList := s.freeList.dropLast })
    | none => (.ok s.numPages, { s with numPages := s.numPages + 1 })

def freePage (pageNum : PageNum) : Except Error Unit × PageStore :=
  if s.readOnly then (.error (.other "cannot free page: database is read-only"), s)
  else (.ok (), { s with
    freeList := s.freeList ++ [pageNum]
    cache := Function.update s.cache pageNum none })

end PageStore

-- Code on a page store. The local state is what a caller passes as `&mut`.
abbrev PageM (ℓ α : Type) := Proc PageStore ℓ Error α

section Calls

variable {ℓ α : Type}

def readPage (pageNum : PageNum) : PageM ℓ Bytes := Proc.atomicE fun s => (s.readPage pageNum, s)

def writePageTransfer (pageNum : PageNum) (data : Bytes) : PageM ℓ Unit :=
  Proc.atomicE fun s => s.writePageTransfer pageNum data

def allocPage : PageM ℓ PageNum := Proc.atomicE PageStore.allocPage

def freePage (pageNum : PageNum) : PageM ℓ Unit := Proc.atomicE fun s => s.freePage pageNum

-- `.map_err(..)`: the pages allocated so far are given back before the error goes on.
def orFree (allocated : List PageNum) (m : PageM ℓ α) : PageM ℓ α := do
  match ← Proc.attempt m with
  | .ok a => pure a
  | .error e => do
    Proc.forEach (fun p => do let _ ← Proc.attempt (freePage p); pure ()) allocated
    Proc.fail e

end Calls

-- `data[offset..offset + src.len()].copy_from_slice(src)`
def copyAt (data : Bytes) (offset : Nat) (src : Bytes) : Except Error Bytes :=
  match (Cursor.mk data offset).write src with
  | some c => .ok c.data
  | none => .error outOfRange

-- `a - b` on `usize`
def sub (a b : Nat) : Except Error Nat :=
  if b ≤ a then .ok (a - b) else .error (.panic "attempt to subtract with overflow")

structure VersionedDocument where
  id : String
  data : Bytes
  xmin : TransactionID
  xmax : TransactionID
deriving DecidableEq

section Write

abbrev WriteM (α : Type) := PageM (HashMap PageNum Bytes) α

-- What `write_versioned_document` keeps between two turns of its loop. The page that was
-- filled last is written when the number of the next one is known.
structure Pending where
  firstPage : Bytes
  allocated : List PageNum
  prevPageNum : PageNum
  prevOverflowOffset : Nat
  prevOverflowPage : Option Bytes

-- The first page with what fits of the data, and where its overflow pointer is.
def fillFirstPage (id : String) (data : Bytes) (xmin xmax : TransactionID) : Except Error (Bytes × Nat) := do
  let fields := [leBytes 8 xmin, leBytes 8 xmax, leBytes 2 (utf8 id).length, utf8 id,
    leBytes 4 data.length, data.take (firstPageCapacity id)]
  match (Cursor.mk zeroPage 0).writeAll fields with
  | none => .error outOfRange
  | some c => do
    let page ← copyAt c.data c.offset (leBytes 8 0)
    .ok (page, c.offset)

def fillOverflowPage (chunk : Bytes) : Except Error Bytes := do
  let page ← copyAt zeroPage 0 chunk
  copyAt page (PAGE_SIZE - OVERFLOW_SIZE) (leBytes 8 0)

-- The page before gets its overflow pointer. If it is not the first page, it is then written.
def linkPage (firstPageNum overflowPageNum : PageNum) (p : Pending) : WriteM Bytes :=
  if p.prevPageNum = firstPageNum then
    Proc.ofExcept (copyAt p.firstPage p.prevOverflowOffset (leBytes 8 overflowPageNum))
  else match p.prevOverflowPage with
    | none => pure p.firstPage
    | some prev => do
      let prev ← Proc.ofExcept (copyAt prev p.prevOverflowOffset (leBytes 8 overflowPageNum))
      Proc.modifyLocal fun txWrites => txWrites.insert p.prevPageNum prev
      orFree (p.allocated ++ [overflowPageNum]) (writePageTransfer p.prevPageNum prev)
      pure p.firstPage

-- The overflow pages for the data that is left.
def writeOverflow (firstPageNum : PageNum) (data : Bytes) (p : Pending) : WriteM Pending :=
  if _ : data = [] then pure p
  else do
    let overflowPageNum ← orFree p.allocated allocPage
    let page ← Proc.ofExcept (fillOverflowPage (data.take MAX_OVERFLOW_DATA))
    let firstPage ← linkPage firstPageNum overflowPageNum p
    writeOverflow firstPageNum (data.drop MAX_OVERFLOW_DATA)
      ⟨firstPage, p.allocated ++ [overflowPageNum], overflowPageNum, PAGE_SIZE - OVERFLOW_SIZE, some page⟩
termination_by data.length
decreasing_by
  have hpos := List.length_pos_iff.mpr ‹data ≠ []›
  rw [List.length_drop]
  unfold MAX_OVERFLOW_DATA PAGE_SIZE
  omega

-- The last overflow page if there is one.
def writeLastPage (p : Pending) : WriteM Unit :=
  match p.prevOverflowPage with
  | none => pure ()
  | some last => do
    Proc.modifyLocal fun txWrites => txWrites.insert p.prevPageNum last
    orFree p.allocated (writePageTransfer p.prevPageNum last)

def writeVersionedDocument (id : String) (data : Bytes) (xmin xmax : TransactionID) :
    WriteM (PageNum × Bytes) :=
  if id.utf8ByteSize > 255 then Proc.fail .invalidDocument
  else do
    let firstPageNum ← allocPage
    let (firstPage, overflowOffset) ← Proc.ofExcept (fillFirstPage id data xmin xmax)
    let p ← writeOverflow firstPageNum (data.drop (firstPageCapacity id))
      ⟨firstPage, [firstPageNum], firstPageNum, overflowOffset, none⟩
    writeLastPage p
    Proc.modifyLocal fun txWrites => txWrites.insert firstPageNum p.firstPage
    orFree p.allocated (writePageTransfer firstPageNum p.firstPage)
    pure (firstPageNum, p.firstPage)

end Write

section Read

variable {ℓ : Type} (txWrites : HashMap PageNum Bytes)

def readThrough (pageNum : PageNum) : PageM ℓ Bytes :=
  match txWrites.get? pageNum with
  | some data => pure data
  | none => readPage pageNum

-- The first page of a document: the data it holds and the page that goes on.
structure FirstPage where
  id : String
  xmin : TransactionID
  xmax : TransactionID
  dataLen : Nat
  data : Bytes
  overflow : PageNum

def readFirstPage (page : Bytes) : Except Error FirstPage := do
  let xmin ← readNat page 0 8
  let xmax ← readNat page 8 8
  let idLen ← readNat page 16 2
  let room ← sub page.length 18
  if idLen = 0 ∨ idLen > room then .error .invalidDocument
  else do
    let bytes ← slice page 18 (18 + idLen)
    match fromUtf8 bytes with
    | none => .error .invalidDocument
    | some id => do
      let dataLen ← readNat page (18 + idLen) 4
      if dataLen > MAX_DOCUMENT_SIZE then .error .invalidDocument
      else do
        let capacity ← sub PAGE_SIZE (FIRST_PAGE_HEADER + idLen)
        let offset := 22 + idLen
        let data ← slice page offset (offset + min capacity dataLen)
        let overflow ← readNat page (offset + min capacity dataLen) 8
        .ok ⟨id, xmin, xmax, dataLen, data, overflow⟩

-- The chain from a page on, when `left` more pages are allowed. `data` is what was read so far.
def readOverflow (dataLen left : Nat) (visited : List PageNum) (data : Bytes) (pageNum : PageNum) :
    PageM ℓ Bytes :=
  if pageNum = 0 ∨ dataLen ≤ data.length then pure data
  else if pageNum ∈ visited then
    Proc.fail (.other s!"Overflow chain cycle detected at page {pageNum}. Versioned document is corrupted.")
  else match left with
    | 0 => Proc.fail (.other s!"Overflow chain too long (>{MAX_OVERFLOW_CHAIN_LENGTH} pages). Versioned document may be corrupted.")
    | left + 1 => do
      let page ← readThrough txWrites pageNum
      let chunk ← Proc.ofExcept (slice page 0 (min MAX_OVERFLOW_DATA (dataLen - data.length)))
      let next ← Proc.ofExcept (readNat page (PAGE_SIZE - OVERFLOW_SIZE) 8)
      readOverflow dataLen left (pageNum :: visited) (data ++ chunk) next

def readVersionedDocument (pageNum : PageNum) : PageM ℓ VersionedDocument := do
  let page ← readThrough txWrites pageNum
  let first ← Proc.ofExcept (readFirstPage page)
  let data ← readOverflow txWrites first.dataLen MAX_OVERFLOW_CHAIN_LENGTH [] first.data first.overflow
  if data.length ≠ first.dataLen then
    let expected := first.dataLen
    let got := data.length
    Proc.fail (.other s!"Versioned document size mismatch: expected {expected} bytes, got {got} bytes. Document may be corrupted.")
  else pure ⟨first.id, data, first.xmin, first.xmax⟩

end Read

section Delete

variable {ℓ : Type}

-- The chain from a page on is freed, when `left` more pages are allowed.
def freeOverflow (left : Nat) (visited : List PageNum) (pageNum : PageNum) : PageM ℓ Unit :=
  if pageNum = 0 then pure ()
  else if pageNum ∈ visited then
    Proc.fail (.other s!"Overflow chain cycle detected at page {pageNum} during delete. Document is corrupted.")
  else match left with
    | 0 => Proc.fail (.other s!"Overflow chain too long (>{MAX_OVERFLOW_CHAIN_LENGTH} pages) during delete. Document may be corrupted.")
    | left + 1 => do
      let page ← readPage pageNum
      let next ← Proc.ofExcept (readNat page (PAGE_SIZE - 8) 8)
      freePage pageNum
      freeOverflow left (pageNum :: visited) next

-- The pointer is taken from the end of the first page, wherever the data ended.
def deleteDocument (pageNum : PageNum) : PageM ℓ Unit := do
  let page ← readPage pageNum
  let overflow ← Proc.ofExcept (readNat page (PAGE_SIZE - 8) 8)
  freeOverflow MAX_OVERFLOW_CHAIN_LENGTH [] overflow
  freePage pageNum

end Delete

end JasonDb.Codec
