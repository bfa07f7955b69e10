import JasonDb.Aggregation
import JasonDb.Database.Index
import JasonDb.QueryBuilder.Count
import Std.Data.ExtTreeMap.Lemmas

namespace JasonDb

open Lib

-- What the database is for: named collections of documents, which have ids, with the schemas the
-- documents are checked against.
abbrev Docs := Std.ExtTreeMap String Json.Map

structure Contents where
  schema : Option Schema
  docs : Docs
  -- whether a document has been deleted: from then on a scan may not come to all of them
  gaps : Bool

abbrev Store := Std.ExtTreeMap String Contents

abbrev StoreM (ℓ α : Type) := Proc Store ℓ Error α

namespace Store

variable {ℓ α : Type} (M : Store)

def schema (name : String) : Option Schema := M[name]?.bind Contents.schema

def docs (name : String) : Docs := (M[name]?.map Contents.docs).getD ∅

def gaps (name : String) : Bool := (M[name]?.map Contents.gaps).getD false

def withDocs (name : String) (docs : Docs) (gaps : Bool) : Store := M.insert name ⟨M.schema name, docs, gaps⟩

def withSchema (name : String) (schema : Option Schema) : Store :=
  M.insert name ⟨schema, M.docs name, M.gaps name⟩

def validate (name : String) (doc : Json) : Except Error Unit :=
  match M.schema name with
  | some schema => schema.validate doc
  | none => .ok ()

-- A document with the empty id is kept, but not given out.
def lookup (name id : String) : Except Error Json.Map :=
  match M[name]? with
  | none => .error (.other s!"collection {name} not found")
  | some coll => match coll.docs[id]? with
    | none => .error .notFound
    | some fields => if id = "" then .error .invalidDocument else .ok fields

def inserted (name generatedId : String) (doc : Json) : Except Error (String × Store) :=
  match doc.asObject with
  | none => .error (.other "document must be an object")
  | some fields => do
    M.validate name (.obj fields)
    let (docId, fields) ← Collection.docIdOf generatedId doc
    if docId ∈ M.docs name then .error (.other s!"document with ID {docId} already exists")
    else if docId.utf8ByteSize > 255 then .error .invalidDocument
    else .ok (docId, M.withDocs name ((M.docs name).insert docId fields) (M.gaps name))

def updated (name id : String) (updates : Json) : Except Error (Unit × Store) :=
  match updates.asObject with
  | none => .error (.other "updates must be an object")
  | some updates => do
    let fields ← M.lookup name id
    let fields := TxCollection.applyUpdates id fields updates
    M.validate name (.obj fields)
    .ok ((), M.withDocs name ((M.docs name).insert id fields) (M.gaps name))

def deleted (name id : String) : Except Error (Unit × Store) :=
  match M[name]? with
  | none => .error (.other s!"collection {name} not found")
  | some coll =>
    if id ∈ coll.docs then .ok ((), M.withDocs name (coll.docs.erase id) true) else .error .notFound

section Schemas

-- `char::is_alphabetic` and `char::is_alphanumeric`
variable (isAlphabetic isAlphanumeric : Char → Bool)

def withSchemaSet (name : String) (schema : Schema) : Except Error (Unit × Store) := do
  validateCollectionName isAlphabetic isAlphanumeric name
  .ok ((), M.withSchema name (some schema))

def withSchemaRemoved (name : String) : Except Error (Unit × Store) := do
  validateCollectionName isAlphabetic isAlphanumeric name
  .ok ((), if name ∈ M then M.withSchema name none else M)

end Schemas

-- The documents in the order of their ids, or only the first `reach` of them where some are deleted.
def scanned (reach : Nat) (name : String) : Except Error (List Json) :=
  match M[name]? with
  | none => .error (.other s!"collection {name} not found")
  | some coll =>
    let docs := if coll.gaps then coll.docs.toList.take reach else coll.docs.toList
    .ok (docs.filterMap fun entry => if entry.1 = "" then none else some (.obj entry.2))

section Calls

-- A call that changes the store when it succeeds.
def change (f : Store → Except Error (α × Store)) : StoreM ℓ α :=
  Proc.atomicE fun M => match f M with
    | .ok (a, M) => (.ok a, M)
    | .error e => (.error e, M)

def ask (f : Store → Except Error α) : StoreM ℓ α := Proc.atomicE fun M => (f M, M)

variable (reach : Nat)

def insert (name generatedId : String) (doc : Json) : StoreM ℓ String :=
  change fun M => M.inserted name generatedId doc

def findById (name id : String) : StoreM ℓ Json := ask fun M => (M.lookup name id).map .obj

def updateById (name id : String) (updates : Json) : StoreM ℓ Unit :=
  change fun M => M.updated name id updates

def deleteById (name id : String) : StoreM ℓ Unit := change fun M => M.deleted name id

def setSchema (isAlphabetic isAlphanumeric : Char → Bool) (name : String) (schema : Schema) :
    StoreM ℓ Unit :=
  change fun M => M.withSchemaSet isAlphabetic isAlphanumeric name schema

def removeSchema (isAlphabetic isAlphanumeric : Char → Bool) (name : String) : StoreM ℓ Unit :=
  change fun M => M.withSchemaRemoved isAlphabetic isAlphanumeric name

def findAll (name : String) : StoreM ℓ (List Json) := ask fun M => M.scanned reach name

def count (name : String) : StoreM ℓ Nat := do
  let docs ← findAll reach name
  pure docs.length

def checkQuery (query : Query) : StoreM ℓ Unit := do
  let _ ← Proc.ofExcept (Collection.select query [])

def find (name : String) (query : Query) : StoreM ℓ (List Json) := do
  checkQuery query
  let docs ← findAll reach name
  Proc.ofExcept (Collection.select query docs)

def findOne (name : String) (query : Query) : StoreM ℓ (Option Json) := do
  let docs ← find reach name query
  pure docs.head?

-- One call for each document, up to the first failure.
def forDocs (f : String → StoreM ℓ Unit) : List Json → StoreM ℓ Nat
  | [] => pure 0
  | doc :: rest => match Collection.idOf doc with
    | some id => do
      f id
      let count ← forDocs f rest
      pure (count + 1)
    | none => forDocs f rest

def update (name : String) (query : Query) (updates : Json) : StoreM ℓ Nat :=
  if !updates.isObject then Proc.fail (.other "updates must be an object")
  else do
    let docs ← find reach name query
    forDocs (fun id => updateById name id updates) docs

def updateOne (name : String) (query : Query) (updates : Json) : StoreM ℓ Bool := do
  match (← findOne reach name query).bind Collection.idOf with
  | some id => do
    updateById name id updates
    pure true
  | none => pure false

def delete (name : String) (query : Query) : StoreM ℓ Nat := do
  let docs ← find reach name query
  forDocs (deleteById name) docs

def deleteOne (name : String) (query : Query) : StoreM ℓ Bool := do
  match (← findOne reach name query).bind Collection.idOf with
  | some id => do
    deleteById name id
    pure true
  | none => pure false

def upsertById (name id generatedId : String) (doc : Json) : StoreM ℓ UpsertResult :=
  match doc.asObject with
  | none => Proc.fail (.other "document must be an object")
  | some fields => do
    let found ← Proc.attempt (findById name id)
    if found.isOk then
      updateById name id doc
      pure (.updated id)
    else
      let _ ← insert name generatedId (.obj (Json.Map.insert "_id" (.str id) fields))
      pure (.inserted id)

def upsert (name : String) (query : Query) (generatedId : String) (doc : Json) :
    StoreM ℓ UpsertResult :=
  if !doc.isObject then Proc.fail (.other "document must be an object")
  else do
    let found ← Proc.attempt (findOne reach name query)
    let existing ← Proc.ofExcept (Collection.orMissing found)
    match existing.bind Collection.idOf with
    | some id => do
      updateById name id doc
      pure (.updated id)
    | none => do
      let id ← insert name generatedId doc
      pure (.inserted id)

def allDocs (name : String) : StoreM ℓ (List Json) := do
  let found ← Proc.attempt (findAll reach name)
  Proc.ofExcept (QueryBuilder.orEmpty found)

def matching (tools : QueryTools) (builder : QueryBuilder) : StoreM ℓ (List Json) :=
  match builder.query with
  | some query => do
    checkQuery (Query.compile tools query)
    let docs ← allDocs reach builder.collection
    Proc.ofExcept (Collection.select (Query.compile tools query) docs)
  | none => allDocs reach builder.collection

def search (tools : QueryTools) (sorter : Sorter Error Json) (builder : QueryBuilder) :
    StoreM ℓ (List Json) := do
  let results ← matching reach tools builder
  let results ← Proc.ofExcept (builder.sortResults sorter results)
  pure (builder.present results)

def aggregate (tools : QueryTools) (floats : FloatTools) (sorter : Sorter Error Json)
    (pipeline : AggregationPipeline) : StoreM ℓ (List Json) := do
  let documents ← allDocs reach pipeline.collection
  Proc.ofExcept (pipeline.stages.foldlM (AggregationPipeline.executeStage tools floats sorter) documents)

end Calls

end Store

end JasonDb
