import JasonDb.Database.State

namespace JasonDb

open Lib

-- How many entries of the free list there is room for in the header page.
def FREE_LIST_CAPACITY : Nat := (PAGE_SIZE - 40) / 8

def Header.deserialize : Page → Except Error Header
  | .header header => .ok { header with freeList := header.freeList.take FREE_LIST_CAPACITY }
  | _ => .error .invalidMagic

namespace Pager

-- A pager on a file, before the header is read.
def start (file : Disk Page) (readOnly : Bool) : Pager := ⟨fun _ => none, ∅, file, 1, 0, 1, [], readOnly⟩

-- The entries of the free list lie in the file and are not the header.
def checkFreeList (numPages : Nat) : Nat → List PageNum → Except Error Unit
  | _, [] => .ok ()
  | i, pageNum :: rest =>
    if pageNum ≥ numPages then
      .error (.dataCorruption s!"invalid free_list entry at index {i}: page {pageNum} (must be < num_pages {numPages})")
    else if pageNum = 0 then
      .error (.dataCorruption s!"invalid free_list entry at index {i}: page 0 (header page) cannot be free")
    else checkFreeList numPages (i + 1) rest

def checkDuplicates : Nat → List PageNum → List PageNum → Except Error Unit
  | _, _, [] => .ok ()
  | i, seen, pageNum :: rest =>
    if pageNum ∈ seen then
      .error (.dataCorruption s!"duplicate page {pageNum} in free_list at index {i} (same page cannot be free twice)")
    else checkDuplicates (i + 1) (pageNum :: seen) rest

def checkHeader (fileLen : Nat) (header : Header) : Except Error Unit :=
  let numPages := header.numPages
  let bytes := numPages * PAGE_SIZE
  let fileSize := fileLen * PAGE_SIZE
  let metadataPage := header.metadataPage
  if numPages < 1 then
    .error (.dataCorruption s!"invalid num_pages: {numPages} (must be at least 1 for header page)")
  else if fileSize < bytes then
    .error (.dataCorruption s!"file truncated: header claims {numPages} pages ({bytes} bytes) but file is only {fileSize} bytes")
  else if metadataPage ≠ 0 ∧ metadataPage ≥ numPages then
    .error (.dataCorruption s!"invalid metadata_page: {metadataPage} (must be < num_pages {numPages})")
  else do
    checkFreeList numPages 0 header.freeList
    checkDuplicates 0 [] header.freeList
    if metadataPage ≠ 0 ∧ metadataPage ∈ header.freeList then
      .error (.dataCorruption s!"metadata_page {metadataPage} is in free_list (metadata page is in use, cannot be free)")
    else .ok ()

def readHeader (p : Pager) : Except Error Pager :=
  match p.filePage 0 with
  | none => .error (.io "failed to fill whole buffer")
  | some page => do
    let header ← Header.deserialize page
    checkHeader p.file.len header
    .ok { p with
      numPages := header.numPages
      metadataPage := header.metadataPage
      nextTxId := header.nextTxId
      freeList := header.freeList }

-- `Pager::open`. The argument is the file, if there is one.
def openFile (file : Option (Disk Page)) (readOnly : Bool) : Except Error Pager :=
  match file with
  | some file => readHeader (start file readOnly)
  | none =>
    if readOnly then .error (.io "No such file or directory")
    else .ok (start .empty false).writeHeader.2

-- `write_pages_direct`: past the cache, into the file.
def writePagesDirect (p : Pager) (pages : List (PageNum × Page)) : Except Error Pager :=
  if p.readOnly then .error (.other "cannot write pages: database is read-only")
  else if pages.isEmpty then .ok p
  else if pages.any (fun entry => entry.2.byteLen ≠ PAGE_SIZE) then .error .invalidPageSize
  else .ok { p with
    file := (pages.foldl (fun file entry => file.write entry.1 entry.2) p.file).sync }

end Pager

-- The last content of each page in the log. Header frames are left out.
def latestPages (frames : List WALFrame) : HashMap PageNum Page :=
  frames.foldl (fun pages frame =>
    if frame.pageNum ≠ 0 then pages.insert frame.pageNum frame.pageData else pages) ∅

def headerFrames (frames : List WALFrame) : List Header :=
  frames.filterMap fun frame => match frame.pageNum, frame.pageData with
    | 0, .header header => some header
    | _, _ => none

def latestNumPages (frames : List WALFrame) : Option Nat :=
  (headerFrames frames).getLast?.map Header.numPages

def latestMetadataPage (frames : List WALFrame) : Option PageNum :=
  (((headerFrames frames).map Header.metadataPage).filter (· > 0)).getLast?

def maxPage (frames : List WALFrame) : PageNum := (frames.map WALFrame.pageNum).foldl max 0

def replayNumPages (p : Pager) (frames : List WALFrame) : Nat :=
  match latestNumPages frames with
  | some numPages => numPages
  | none => if maxPage frames ≥ p.numPages then maxPage frames + 1 else p.numPages

-- The frames left in the log are written to the file. Of the header they restore the number of
-- pages and the place of the metadata.
def replay (p : Pager) (frames : List WALFrame) : Except Error Pager := do
  let p := { p with numPages := replayNumPages p frames }
  let p ← p.writePagesDirect (latestPages frames).toList
  let p := p.flush
  match latestMetadataPage frames with
  | some metadataPage =>
    match ({ p with metadataPage } : Pager).writeHeader with
    | (.ok _, p) => .ok p
    | (.error e, _) => .error e
  | none => .ok p

-- `initialize_from_pager`
def TransactionManager.initializeFromPager (currentTxId : TransactionID) : TransactionManager :=
  ⟨currentTxId, if currentTxId > 0 then currentTxId - 1 else 0, ∅⟩

def Metadata.deserialize : Page → Except Error Metadata
  | .metadata m => .ok m
  | _ => .error (.other "EOF while parsing a value")

-- The metadata of a file that has none yet.
def createMetadata (p : Pager) : Except Error (Metadata × Pager) :=
  match p.allocPageMinimum 0 with
  | (.error e, _) => .error e
  | (.ok metaPage, p) => match p.writePageTransfer metaPage (.metadata .new) with
    | (.error e, _) => .error e
    | (.ok _, p) => match ({ p with metadataPage := metaPage } : Pager).writeHeader with
      | (.error e, _) => .error e
      | (.ok _, p) => .ok (.new, p.flush)

def loadMetadata (p : Pager) : Except Error (Metadata × Pager) :=
  if p.metadataPage > 0 then do
    let page ← p.readPage p.metadataPage
    let metadata ← Metadata.deserialize page
    .ok (metadata, p)
  else createMetadata p

-- The database on a pager that is up to date.
def Database.load (p : Pager) (wal : WAL) (readOnly : Bool) : Except Error Database :=
  match loadMetadata p with
  | .error e => .error e
  | .ok (metadata, pager) => .ok {
      pager
      wal
      metadata
      txManager := TransactionManager.initializeFromPager p.nextTxId
      versionChains := ∅
      txIdCounter := 1
      pendingWrites := []
      batchConfig := .default
      readOnly }

-- `Database::open_with_options` on the file and the frames that are found in the log.
def Database.openWithOptions (file : Option (Disk Page)) (wal : WAL) (readOnly : Bool) :
    Except Error Database :=
  match Pager.openFile file readOnly with
  | .error e => .error e
  | .ok p =>
    if !readOnly && !wal.frames.isEmpty then
      match replay p wal.frames with
      | .error e => .error e
      | .ok p => load p { wal with frames := [], synced := 0 } readOnly
    else load p wal readOnly

-- `close`, then `open`: pages are flushed, the header is not written again. Frames that are
-- still buffered go to the log when its writer is dropped.
def Database.reopen (db : Database) : Except Error Database :=
  openWithOptions (some db.pager.flush.file)
    { db.wal with frames := db.wal.frames ++ db.wal.buffer, buffer := [] } db.readOnly

end JasonDb
