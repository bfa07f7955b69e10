import JasonDb.Codec.Node
import JasonDb.Database.Opened

namespace JasonDb.Codec

open Lib

def VERSION : Nat := 1

def MAGIC : Bytes := [68, 69, 86, 73]

-- The header page, field by field.
structure Header where
  magic : Bytes
  version : UInt32
  pageSize : UInt32
  numPages : UInt64
  freeCount : UInt32
  metadataPage : UInt64
  nextTxId : UInt64
  freeList : List UInt64
deriving DecidableEq

namespace Header

section Write

def fields (header : Header) : List Bytes :=
  [header.magic, leBytes 4 header.version.toNat, leBytes 4 header.pageSize.toNat,
    leBytes 8 header.numPages.toNat, leBytes 4 header.freeCount.toNat,
    leBytes 8 header.metadataPage.toNat, leBytes 8 header.nextTxId.toNat]

-- The entries of the free list, as far as there is room for them.
def writeFreeList (c : Cursor) : List UInt64 → Option Cursor
  | [] => some c
  | pageNum :: rest =>
    if c.offset + 8 > PAGE_SIZE then some c
    else (c.write (leBytes 8 pageNum.toNat)).bind fun c => writeFreeList c rest

-- `none` where it writes out of range.
def serialize (header : Header) : Option Bytes :=
  ((Cursor.mk (List.replicate PAGE_SIZE 0) 0).writeAll header.fields).bind fun c =>
    (writeFreeList c header.freeList).map Cursor.data

end Write

section Read

variable (data : Bytes)

def readU32 (offset : Nat) : Except Error UInt32 := do
  let n ← readNat data offset 4
  .ok (UInt32.ofNat n)

def readU64 (offset : Nat) : Except Error UInt64 := do
  let n ← readNat data offset 8
  .ok (UInt64.ofNat n)

def readFreeList : Nat → Nat → Except Error (List UInt64)
  | 0, _ => .ok []
  | count + 1, offset =>
    if offset + 8 > PAGE_SIZE then .ok []
    else do
      let pageNum ← readU64 data offset
      let rest ← readFreeList count (offset + 8)
      .ok (pageNum :: rest)

def deserialize : Except Error Header :=
  if data.length < PAGE_SIZE then .error .invalidPageSize
  else do
    let magic ← slice data 0 4
    if magic ≠ MAGIC then .error .invalidMagic
    else do
      let version ← readU32 data 4
      if version.toNat ≠ VERSION then .error .invalidVersion
      else do
        let pageSize ← readU32 data 8
        if pageSize.toNat ≠ PAGE_SIZE then .error .invalidPageSize
        else do
          let numPages ← readU64 data 12
          let freeCount ← readU32 data 20
          let metadataPage ← readU64 data 24
          let nextTxId ← readU64 data 32
          let freeList ← readFreeList data freeCount.toNat 40
          .ok ⟨magic, version, pageSize, numPages, freeCount, metadataPage, nextTxId, freeList⟩

end Read

section RoundTrip

variable {front back data : Bytes} {offset : Nat}

theorem readU32_middle (n : UInt32) (hoffset : offset = front.length)
    (hdata : data = front ++ (leBytes 4 n.toNat ++ back)) : readU32 data offset = .ok n := by
  have hn : n.toNat < 256 ^ 4 := n.toNat_lt
  subst hdata
  simp only [readU32, readNat_middle hoffset hn, bind, Except.bind, UInt32.ofNat_toNat]

theorem readU64_middle (n : UInt64) (hoffset : offset = front.length)
    (hdata : data = front ++ (leBytes 8 n.toNat ++ back)) : readU64 data offset = .ok n := by
  have hn : n.toNat < 256 ^ 8 := n.toNat_lt
  subst hdata
  simp only [readU64, readNat_middle hoffset hn, bind, Except.bind, UInt64.ofNat_toNat]

-- A field stands after those before it.
theorem flatten_append_eq {fields : List Bytes} {i : Nat} {field : Bytes} (h : fields[i]? = some field)
    (back : Bytes) : fields.flatten ++ back =
      (fields.take i).flatten ++ (field ++ ((fields.drop (i + 1)).flatten ++ back)) := by
  obtain ⟨hi, hfield⟩ := List.getElem?_eq_some_iff.mp h
  have hsplit : fields = fields.take i ++ field :: fields.drop (i + 1) := by
    rw [← hfield, List.getElem_cons_drop, List.take_append_drop]
  conv_lhs => rw [hsplit]
  simp

def entryBytes (pages : List UInt64) : Bytes := pages.flatMap fun pageNum => leBytes 8 pageNum.toNat

theorem length_entryBytes (pages : List UInt64) : (entryBytes pages).length = 8 * pages.length := by
  induction pages with
  | nil => rfl
  | cons pageNum rest ih =>
    rw [entryBytes, List.flatMap_cons, List.length_append, length_leBytes, List.length_cons]
    change 8 + (entryBytes rest).length = _
    omega

-- The entries that are written are those there is room for.
theorem writeFreeList_after {written : Bytes} (hdata : data.length = PAGE_SIZE)
    (h : written.length ≤ PAGE_SIZE) (pages : List UInt64) :
    writeFreeList (Cursor.after data written) pages = some (Cursor.after data
      (written ++ entryBytes (pages.take ((PAGE_SIZE - written.length) / 8)))) := by
  induction pages generalizing written with
  | nil => simp [writeFreeList, entryBytes]
  | cons pageNum rest ih =>
    have hoffset : (Cursor.after data written).offset = written.length := rfl
    unfold writeFreeList
    rw [hoffset]
    by_cases hroom : written.length + 8 > PAGE_SIZE
    · have hzero : (PAGE_SIZE - written.length) / 8 = 0 := by omega
      rw [if_pos hroom, hzero]
      simp [entryBytes]
    · have hwrite : (Cursor.after data written).write (leBytes 8 pageNum.toNat) =
          some (Cursor.after data (written ++ leBytes 8 pageNum.toNat)) := by
        rw [Cursor.write_after (by omega), length_leBytes, if_pos (by omega)]
      have hlen : (written ++ leBytes 8 pageNum.toNat).length = written.length + 8 := by
        rw [List.length_append, length_leBytes]
      have hroom' : (PAGE_SIZE - written.length) / 8 = (PAGE_SIZE - (written.length + 8)) / 8 + 1 := by
        omega
      rw [if_neg hroom, hwrite, Option.bind_some, ih (by omega), hlen, hroom', List.take_succ_cons,
        List.append_assoc]
      rfl

-- Reading stops at the count or at the end of the page.
theorem readFreeList_middle {pages : List UInt64} {count : Nat} (hoffset : offset = front.length)
    (hend : count ≤ pages.length ∨ PAGE_SIZE < offset + 8 * pages.length + 8)
    (hfit : offset + 8 * pages.length ≤ PAGE_SIZE) :
    readFreeList (front ++ (entryBytes pages ++ back)) count offset = .ok (pages.take count) := by
  induction pages generalizing front offset count with
  | nil =>
    rw [List.length_nil] at hend
    cases count with
    | zero => rfl
    | succ count =>
      rw [readFreeList, if_pos (by omega)]
      rfl
  | cons pageNum rest ih =>
    cases count with
    | zero => rfl
    | succ count =>
      rw [List.length_cons] at hend hfit
      have hbytes : front ++ (entryBytes (pageNum :: rest) ++ back) =
          front ++ (leBytes 8 pageNum.toNat ++ (entryBytes rest ++ back)) := by
        simp [entryBytes]
      have hnext : offset + 8 = (front ++ leBytes 8 pageNum.toNat).length := by
        rw [List.length_append, length_leBytes, hoffset]
      have hend' : count ≤ rest.length ∨ PAGE_SIZE < offset + 8 + 8 * rest.length + 8 := by omega
      have hrest := ih hnext hend' (by omega)
      rw [List.append_assoc, ← hbytes] at hrest
      rw [readFreeList, if_neg (by omega), readU64_middle pageNum hoffset hbytes]
      simp only [bind, Except.bind, hrest, List.take_succ_cons]

theorem length_fields {header : Header} (hmagic : header.magic = MAGIC) :
    header.fields.flatten.length = 40 := by
  simp [fields, hmagic, MAGIC]

-- The fields before the free list are read back.
theorem deserialize_fields {header : Header} (hmagic : header.magic = MAGIC)
    (hversion : header.version.toNat = VERSION) (hsize : header.pageSize.toNat = PAGE_SIZE)
    (hdata : PAGE_SIZE ≤ (header.fields.flatten ++ back).length) {freeList : List UInt64}
    (hfree : readFreeList (header.fields.flatten ++ back) header.freeCount.toNat 40 = .ok freeList) :
    deserialize (header.fields.flatten ++ back) = .ok { header with freeList } := by
  obtain ⟨magic, version, pageSize, numPages, freeCount, metadataPage, nextTxId, freeList'⟩ := header
  simp only at hmagic hversion hsize hfree
  subst hmagic
  generalize hheader : (⟨MAGIC, version, pageSize, numPages, freeCount, metadataPage, nextTxId,
    freeList'⟩ : Header) = header at hdata hfree ⊢
  have hfields : header.fields = [MAGIC, leBytes 4 version.toNat, leBytes 4 pageSize.toNat,
      leBytes 8 numPages.toNat, leBytes 4 freeCount.toNat, leBytes 8 metadataPage.toNat,
      leBytes 8 nextTxId.toNat] := by
    rw [← hheader]
    rfl
  have hmagic : slice (header.fields.flatten ++ back) 0 4 = .ok MAGIC := by
    rw [flatten_append_eq (i := 0) (by rw [hfields]; rfl) back]
    exact slice_middle MAGIC rfl rfl
  have hversion' : readU32 (header.fields.flatten ++ back) 4 = .ok version :=
    readU32_middle version (by rw [hfields]; rfl) (flatten_append_eq (i := 1) (by rw [hfields]; rfl) back)
  have hsize' : readU32 (header.fields.flatten ++ back) 8 = .ok pageSize :=
    readU32_middle pageSize (by rw [hfields]; rfl) (flatten_append_eq (i := 2) (by rw [hfields]; rfl) back)
  have hpages : readU64 (header.fields.flatten ++ back) 12 = .ok numPages :=
    readU64_middle numPages (by rw [hfields]; rfl) (flatten_append_eq (i := 3) (by rw [hfields]; rfl) back)
  have hcount : readU32 (header.fields.flatten ++ back) 20 = .ok freeCount :=
    readU32_middle freeCount (by rw [hfields]; rfl) (flatten_append_eq (i := 4) (by rw [hfields]; rfl) back)
  have hmeta : readU64 (header.fields.flatten ++ back) 24 = .ok metadataPage :=
    readU64_middle metadataPage (by rw [hfields]; rfl)
      (flatten_append_eq (i := 5) (by rw [hfields]; rfl) back)
  have htx : readU64 (header.fields.flatten ++ back) 32 = .ok nextTxId :=
    readU64_middle nextTxId (by rw [hfields]; rfl) (flatten_append_eq (i := 6) (by rw [hfields]; rfl) back)
  unfold deserialize
  rw [if_neg (Nat.not_lt.mpr hdata), hmagic]
  simp only [bind, Except.bind, ne_eq, not_true_eq_false, if_false, hversion', hversion, hsize', hsize,
    hpages, hcount, hmeta, htx, hfree]
  rw [← hheader]

-- A header is read back with the entries that fit into its page, and of these no more than its
-- count says.
theorem deserialize_serialize {header : Header} (hmagic : header.magic = MAGIC)
    (hversion : header.version.toNat = VERSION) (hsize : header.pageSize.toNat = PAGE_SIZE)
    (hcount : header.freeCount.toNat ≤ header.freeList.length) :
    ∃ page, header.serialize = some page ∧ page.length = PAGE_SIZE ∧
      deserialize page = .ok { header with
        freeList := header.freeList.take (min header.freeCount.toNat FREE_LIST_CAPACITY) } := by
  have hcap : FREE_LIST_CAPACITY = 507 := rfl
  have hpage : PAGE_SIZE = 4096 := rfl
  have hlen := length_fields hmagic
  have hzeros : (List.replicate PAGE_SIZE (0 : UInt8)).length = PAGE_SIZE := List.length_replicate
  have hroom : (PAGE_SIZE - header.fields.flatten.length) / 8 = FREE_LIST_CAPACITY := by
    rw [hlen]
    rfl
  let entries := entryBytes (header.freeList.take FREE_LIST_CAPACITY)
  let zeros := (List.replicate PAGE_SIZE (0 : UInt8)).drop (header.fields.flatten ++ entries).length
  have hwrite : header.serialize = some (header.fields.flatten ++ (entries ++ zeros)) := by
    rw [serialize, Cursor.writeAll_start, if_pos (by rw [hlen, hzeros]; decide), Option.bind_some,
      writeFreeList_after hzeros (by rw [hlen]; decide), hroom, Option.map_some, Cursor.after,
      List.append_assoc]
  have htake : (header.freeList.take FREE_LIST_CAPACITY).length =
      min FREE_LIST_CAPACITY header.freeList.length := List.length_take
  have hentries : entries.length = 8 * (header.freeList.take FREE_LIST_CAPACITY).length :=
    length_entryBytes _
  have hlength : (header.fields.flatten ++ (entries ++ zeros)).length = PAGE_SIZE := by
    rw [List.length_append, List.length_append, List.length_drop, List.length_append, hzeros]
    omega
  refine ⟨_, hwrite, hlength, ?_⟩
  have hfree : readFreeList (header.fields.flatten ++ (entries ++ zeros)) header.freeCount.toNat 40 =
      .ok ((header.freeList.take FREE_LIST_CAPACITY).take header.freeCount.toNat) :=
    readFreeList_middle hlen.symm (by omega) (by omega)
  rw [List.take_take] at hfree
  exact deserialize_fields hmagic hversion hsize (Nat.le_of_eq hlength.symm) hfree

end RoundTrip

end Header

-- What the pager keeps in memory of the header.
structure PagerFields where
  numPages : UInt64
  metadataPage : UInt64
  nextTxId : UInt64
  freeList : List UInt64
  readOnly : Bool

-- The calls that change it.
inductive FieldOp where
  | allocPage
  | freePage (pageNum : UInt64)
  | setMetadataPage (pageNum : UInt64)
  | setNextTransactionId (txId : UInt64)

namespace PagerFields

-- A pager on a new file.
def new : PagerFields := ⟨1, 0, 1, [], false⟩

def allocPage (p : PagerFields) : Except Error UInt64 × PagerFields :=
  if p.readOnly then (.error (.other "cannot allocate page: database is read-only"), p)
  else match p.freeList.getLast? with
    | some pageNum => (.ok pageNum, { p with freeList := p.freeList.dropLast })
    | none => (.ok p.numPages, { p with numPages := p.numPages + 1 })

def freePage (p : PagerFields) (pageNum : UInt64) : Except Error Unit × PagerFields :=
  if p.readOnly then (.error (.other "cannot free page: database is read-only"), p)
  else (.ok (), { p with freeList := p.freeList ++ [pageNum] })

def step (p : PagerFields) : FieldOp → PagerFields
  | .allocPage => p.allocPage.2
  | .freePage pageNum => (p.freePage pageNum).2
  | .setMetadataPage pageNum => { p with metadataPage := pageNum }
  | .setNextTransactionId txId => { p with nextTxId := txId }

def run (p : PagerFields) (ops : List FieldOp) : PagerFields := ops.foldl step p

-- The header as it is written. The count is cut to 32 bits.
def header (p : PagerFields) : Header :=
  ⟨MAGIC, UInt32.ofNat VERSION, UInt32.ofNat PAGE_SIZE, p.numPages, UInt32.ofNat p.freeList.length,
    p.metadataPage, p.nextTxId, p.freeList⟩

def getHeaderData (p : PagerFields) : Option Bytes := p.header.serialize

-- What is read from the page that was written is what the pager has.
def Restores (p : PagerFields) : Prop :=
  ∃ page header, p.getHeaderData = some page ∧ Header.deserialize page = .ok header ∧
    header.numPages = p.numPages ∧ header.metadataPage = p.metadataPage ∧
    header.nextTxId = p.nextTxId ∧ header.freeList = p.freeList

theorem deserialize_header (p : PagerFields) :
    ∃ page, p.getHeaderData = some page ∧ page.length = PAGE_SIZE ∧ Header.deserialize page = .ok
      { p.header with freeList := p.freeList.take (min (p.freeList.length % 2 ^ 32) FREE_LIST_CAPACITY) } := by
  have hcount : p.header.freeCount.toNat = p.freeList.length % 2 ^ 32 := UInt32.toNat_ofNat'
  have hle : p.header.freeCount.toNat ≤ p.header.freeList.length := by
    rw [hcount]
    exact Nat.mod_le _ _
  have h := @Header.deserialize_serialize p.header rfl rfl rfl hle
  rw [hcount] at h
  exact h

theorem restores_iff_le (p : PagerFields) : p.Restores ↔ p.freeList.length ≤ FREE_LIST_CAPACITY := by
  have hcap : FREE_LIST_CAPACITY = 507 := rfl
  obtain ⟨page, hpage, -, hread⟩ := p.deserialize_header
  constructor
  · rintro ⟨page', header, hpage', hread', -, -, -, hfree⟩
    obtain rfl : page = page' := Option.some.inj (hpage.symm.trans hpage')
    obtain rfl := Except.ok.inj (hread.symm.trans hread')
    have hlen := congrArg List.length hfree
    rw [List.length_take] at hlen
    omega
  · intro hle
    have hmod : p.freeList.length % 2 ^ 32 = p.freeList.length := Nat.mod_eq_of_lt (by omega)
    refine ⟨page, _, hpage, hread, rfl, rfl, rfl, ?_⟩
    rw [hmod]
    exact List.take_of_length_le (by omega)

-- In every state the calls lead to, the header is restored exactly when the free list fits into
-- its page.
theorem restores_run_iff (p : PagerFields) (ops : List FieldOp) :
    (p.run ops).Restores ↔ (p.run ops).freeList.length ≤ FREE_LIST_CAPACITY :=
  restores_iff_le (p.run ops)

theorem readOnly_step (p : PagerFields) (op : FieldOp) : (p.step op).readOnly = p.readOnly := by
  cases op with
  | allocPage =>
    simp only [step, allocPage]
    split
    · rfl
    · split
      · rfl
      · rfl
  | freePage pageNum =>
    simp only [step, freePage]
    split
    · rfl
    · rfl
  | setMetadataPage pageNum => rfl
  | setNextTransactionId txId => rfl

theorem readOnly_run (p : PagerFields) (ops : List FieldOp) : (p.run ops).readOnly = p.readOnly := by
  induction ops generalizing p with
  | nil => rfl
  | cons op ops ih => exact (ih (p.step op)).trans (readOnly_step p op)

theorem freeList_run_freePage {p : PagerFields} (h : p.readOnly = false) (pages : List UInt64) :
    (p.run (pages.map .freePage)).freeList = p.freeList ++ pages := by
  induction pages generalizing p with
  | nil => exact (List.append_nil _).symm
  | cons pageNum rest ih =>
    have hfree : (p.step (.freePage pageNum)).freeList = p.freeList ++ [pageNum] := by
      simp [step, freePage, h]
    have hrest := ih ((readOnly_step p (.freePage pageNum)).trans h)
    rw [hfree, List.append_assoc, List.singleton_append] at hrest
    exact hrest

-- As many pages as one more than there is room for are taken and given back.
theorem long_freeList_cut :
    ¬ (new.run (List.replicate 508 .allocPage ++
      ((List.range 508).map fun n => UInt64.ofNat (n + 1)).map .freePage)).Restores := by
  have hlen : (new.run (List.replicate 508 .allocPage ++
      ((List.range 508).map fun n => UInt64.ofNat (n + 1)).map .freePage)).freeList.length ≥ 508 := by
    rw [run, List.foldl_append]
    have hfree := freeList_run_freePage (readOnly_run new (List.replicate 508 .allocPage))
      ((List.range 508).map fun n => UInt64.ofNat (n + 1))
    unfold run at hfree
    rw [hfree, List.length_append, List.length_map, List.length_range]
    omega
  have hcap : FREE_LIST_CAPACITY = 507 := rfl
  rw [restores_iff_le]
  omega

-- The pager of the database and its fields in 64 bits.
structure Mirrors (p : Pager) (f : PagerFields) : Prop where
  numPages : p.numPages = f.numPages.toNat
  metadataPage : p.metadataPage = f.metadataPage.toNat
  nextTxId : p.nextTxId = f.nextTxId.toNat
  freeList : p.freeList = f.freeList.map UInt64.toNat

-- The page of the header reads as the bytes do.
theorem Mirrors.deserialize {p : Pager} {f : PagerFields} (h : Mirrors p f)
    (hlen : f.freeList.length < 2 ^ 32) :
    ∃ page header, f.getHeaderData = some page ∧ Header.deserialize page = .ok header ∧
      JasonDb.Header.deserialize (.header p.headerData) =
        .ok ⟨header.numPages.toNat, header.metadataPage.toNat, header.nextTxId.toNat,
          header.freeList.map UInt64.toNat⟩ := by
  obtain ⟨page, hpage, -, hread⟩ := f.deserialize_header
  refine ⟨page, _, hpage, hread, ?_⟩
  have htake : f.freeList.take (min (f.freeList.length % 2 ^ 32) FREE_LIST_CAPACITY) =
      f.freeList.take FREE_LIST_CAPACITY := by
    rw [Nat.mod_eq_of_lt hlen, List.take_eq_take_iff]
    omega
  rw [htake, List.map_take, ← h.freeList]
  simp only [JasonDb.Header.deserialize, Pager.headerData, header, h.numPages, h.metadataPage, h.nextTxId]

end PagerFields

end JasonDb.Codec
