import JasonDb.Schema
import JasonDb.Transaction.Commit

namespace JasonDb

open Lib

variable {ℓ : Type}

def isReadOnly : DbM ℓ Bool := Proc.atomic fun db => (db.readOnly, db)

def writeHeader : DbM ℓ Unit :=
  Proc.atomicE fun db =>
    let (r, pager) := db.pager.writeHeader
    (r, { db with pager })

def flush : DbM ℓ Unit := Proc.atomic fun db => ((), { db with pager := db.pager.flush })

-- The metadata as they are go to their page, which is taken when there is none yet.
def storeMetadata : DbM ℓ Unit := do
  let metadata ← getMetadata
  let page ← metadataPage
  if page > 0 then writePageTransfer page (.metadata metadata)
  else
    let newPage ← allocPage
    writePageTransfer newPage (.metadata metadata)
    setMetadataPage newPage
    writeHeader

-- `update_metadata`, which ends with all dirty pages in the file.
def updateMetadata (f : Metadata → Metadata) : DbM ℓ Unit := do
  if ← isReadOnly then Proc.fail (.other "database is read-only")
  else
    updateMetadataNoFlush f
    storeMetadata
    flush

def reservedCollectionNames : List String := ["_metadata", "_internal", "_system"]

section SetSchema

-- `char::is_alphabetic` and `char::is_alphanumeric`
variable (isAlphabetic isAlphanumeric : Char → Bool)

def validateCollectionName (name : String) : Except Error Unit :=
  match name.toList with
  | [] => .error .collectionNameEmpty
  | first :: rest =>
    if name.utf8ByteSize > 64 then .error .collectionNameTooLong
    else if !isAlphabetic first && first ≠ '_' then .error .collectionNameInvalidStart
    else if (first :: rest).any fun c => !isAlphanumeric c && c ≠ '_' then
      .error .collectionNameInvalidChar
    else if name ∈ reservedCollectionNames then .error .collectionNameReserved
    else .ok ()

def withSchema (name : String) (schema : Schema) (m : Metadata) : Metadata :=
  m.modifyCollection name fun coll => { coll with schema := some schema }

-- `set_schema`. The schema is in force before it is stored.
def setSchema (name : String) (schema : Schema) : DbM ℓ Unit := do
  Proc.ofExcept (validateCollectionName isAlphabetic isAlphanumeric name)
  if ← isReadOnly then Proc.fail (.other "cannot set schema: database is in read-only mode")
  else
    updateMetadataNoFlush (withSchema name schema)
    updateMetadata id
    flush

end SetSchema

end JasonDb
