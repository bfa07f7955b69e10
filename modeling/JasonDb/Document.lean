import JasonDb.Database.State

namespace JasonDb

open Lib

def FIRST_PAGE_HEADER : Nat := 8 + 8 + 2 + 4 + 8

def MAX_OVERFLOW_DATA : Nat := PAGE_SIZE - 8

-- A version read back. `data` is `none` when the parts of its text do not belong together,
-- which is not the text of a document any more.
structure VersionedDocument where
  id : String
  data : Option Json
  xmin : TransactionID
  xmax : TransactionID
deriving DecidableEq

def VersionedDocument.isVisible (doc : VersionedDocument) (snapshotId : TransactionID) : Bool :=
  if doc.xmin > snapshotId then false
  else if doc.xmax ≠ 0 ∧ doc.xmax ≤ snapshotId then false
  else true

-- `serde_json::from_slice`, by the value whose text it is given. It refuses a text with too many
-- levels, and may read a float as one next to it.
class SerdeJson where
  fromSlice : Json → Except String Json

-- All texts are read as they were written.
abbrev SerdeJson.exact : SerdeJson := ⟨.ok⟩

-- The text of the value is read as it was written.
def Json.ReadBack [SerdeJson] (data : Json) : Prop := SerdeJson.fromSlice data = .ok data

namespace VersionedDocument

variable [SerdeJson] (doc : VersionedDocument)

-- `serde_json::from_slice` on the data of a version.
def parse : Except Error Json :=
  match doc.data with
  | some data => (SerdeJson.fromSlice data).mapError .other
  | none => .error (.other "expected value")

-- `if let Ok(doc) = serde_json::from_slice(..)`
def parsed : Option Json := doc.parse.toOption

variable {doc} {data : Json}

theorem parse_of_readBack (hdata : doc.data = some data) (h : data.ReadBack) : doc.parse = .ok data := by
  unfold parse
  rw [hdata]
  exact congrArg (Except.mapError Error.other) h

theorem parsed_of_readBack (hdata : doc.data = some data) (h : data.ReadBack) : doc.parsed = some data := by
  rw [parsed, parse_of_readBack hdata h]
  rfl

end VersionedDocument

def firstPageCapacity (id : String) : Nat := PAGE_SIZE - FIRST_PAGE_HEADER - id.utf8ByteSize

-- How many overflow pages the text of a document takes.
def overflowCount (id : String) (data : Json) : Nat :=
  (data.byteLen - firstPageCapacity id + MAX_OVERFLOW_DATA - 1) / MAX_OVERFLOW_DATA

section Codec

variable {ℓ : Type}

-- The overflow pages from number `index` on, of which `page` is the first. A page is written
-- when the number of the next one is known.
def writeOverflow (data : Json) :
    Nat → Nat → PageNum → HashMap PageNum Page → DbM ℓ (HashMap PageNum Page)
  | 0, index, page, txWrites => do
    let content := Page.overflow ⟨data, index, 0⟩
    writePageTransfer page content
    pure (txWrites.insert page content)
  | more + 1, index, page, txWrites => do
    let next ← allocPage
    let content := Page.overflow ⟨data, index, next⟩
    writePageTransfer page content
    writeOverflow data more (index + 1) next (txWrites.insert page content)

-- `write_versioned_document`. It frees what it allocated when a later step fails; past the
-- first allocation no step can.
def writeVersionedDocument (id : String) (data : Json) (xmin xmax : TransactionID)
    (txWrites : HashMap PageNum Page) : DbM ℓ (PageNum × HashMap PageNum Page) := do
  if id.utf8ByteSize > 255 then Proc.fail .invalidDocument
  else
    let firstPage ← allocPage
    let (overflow, txWrites) ← match overflowCount id data with
      | 0 => pure (0, txWrites)
      | more + 1 => do
        let page ← allocPage
        let txWrites ← writeOverflow data more 0 page txWrites
        pure (page, txWrites)
    let content := Page.doc ⟨xmin, xmax, id, data, overflow⟩
    writePageTransfer firstPage content
    pure (firstPage, txWrites.insert firstPage content)

def readThrough (txWrites : HashMap PageNum Page) (pageNum : PageNum) : DbM ℓ Page :=
  match txWrites.get? pageNum with
  | some page => pure page
  | none => readPage pageNum

-- The parts that are still missing, from number `index` on; `start` bytes were in the first
-- page. The result says whether all pages held the parts they were read for.
def readOverflow (txWrites : HashMap PageNum Page) (data : Json) (start : Nat) :
    Nat → Nat → PageNum → List PageNum → DbM ℓ Bool
  | 0, _, _, _ => pure true
  | more + 1, index, page, visited =>
    if page = 0 then
      let expected := data.byteLen
      let got := start + index * MAX_OVERFLOW_DATA
      Proc.fail (.other s!"Versioned document size mismatch: expected {expected} bytes, got {got} bytes. Document may be corrupted.")
    else if page ∈ visited then
      Proc.fail (.other s!"Overflow chain cycle detected at page {page}. Versioned document is corrupted.")
    else if visited.length + 1 > MAX_OVERFLOW_CHAIN_LENGTH then
      Proc.fail (.other s!"Overflow chain too long (>{MAX_OVERFLOW_CHAIN_LENGTH} pages). Versioned document may be corrupted.")
    else do
      let content ← readThrough txWrites page
      match content with
      | .overflow part =>
        let rest ← readOverflow txWrites data start more (index + 1) part.next (page :: visited)
        pure (rest && part.data = data && part.index = index)
      | _ => pure false

def readVersionedDocument (pageNum : PageNum) (txWrites : HashMap PageNum Page) :
    DbM ℓ VersionedDocument := do
  let content ← readThrough txWrites pageNum
  match content with
  | .doc page =>
    if page.id = "" then Proc.fail .invalidDocument
    else
      let start := firstPageCapacity page.id
      let whole ← readOverflow txWrites page.data start (overflowCount page.id page.data) 0
        page.overflow []
      pure ⟨page.id, if whole then some page.data else none, page.xmin, page.xmax⟩
  | _ => Proc.fail .invalidDocument

end Codec

end JasonDb
