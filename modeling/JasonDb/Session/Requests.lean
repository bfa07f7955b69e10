import JasonDb.Collection
import JasonDb.Session

namespace JasonDb

open Lib

namespace Collection

-- The calls on a collection outside explicit transactions. `maxBulkOperations` is the limit the
-- database was opened with.
inductive Call where
  | insert (generatedId : String) (doc : Json)
  | findById (id : String)
  | findAll
  | find (query : Query)
  | updateById (id : String) (updates : Json)
  | update (query : Query) (updates : Json)
  | updateOne (query : Query) (updates : Json)
  | deleteById (id : String)
  | delete (query : Query)
  | deleteOne (query : Query)
  | upsertById (id generatedId : String) (doc : Json)
  | upsert (query : Query) (generatedId : String) (doc : Json)
  | insertMany (maxBulkOperations : Nat) (docs : List (String × Json))
  | bulkWrite (maxBulkOperations : Nat) (ordered : Bool) (operations : List BulkOperation)

variable {ℓ α : Type}

def discard (m : DbM ℓ α) : DbM ℓ Unit := do
  let _ ← m

def Call.run [SerdeJson] (name : String) : Call → DbM ℓ Unit
  | .insert generatedId doc => discard (Collection.insert name generatedId doc)
  | .findById id => discard (Collection.findById name id)
  | .findAll => discard (Collection.findAll name)
  | .find query => discard (Collection.find name query)
  | .updateById id updates => Collection.updateById name id updates
  | .update query updates => discard (Collection.update name query updates)
  | .updateOne query updates => discard (Collection.updateOne name query updates)
  | .deleteById id => Collection.deleteById name id
  | .delete query => discard (Collection.delete name query)
  | .deleteOne query => discard (Collection.deleteOne name query)
  | .upsertById id generatedId doc => discard (Collection.upsertById name id generatedId doc)
  | .upsert query generatedId doc => discard (Collection.upsert name query generatedId doc)
  | .insertMany maxBulkOperations docs => discard (Collection.insertMany name maxBulkOperations docs)
  | .bulkWrite maxBulkOperations ordered operations =>
    discard (Collection.bulkWrite name maxBulkOperations ordered operations)

end Collection

-- A call of a client: in an explicit transaction, or on a collection.
inductive Request where
  | event (e : Event)
  | collection (name : String) (call : Collection.Call)

namespace Session

def serve [SerdeJson] (s : Session) : Request → Session
  | .event e => s.step e
  | .collection name call => ⟨(Proc.exec (call.run name) () s.db).2.2, s.parties⟩

-- A call on the database itself, with its result.
def onDatabase (s : Session) (call : DbM Unit Unit) : Except Error Unit × Session :=
  let (r, _, db) := Proc.exec call () s.db
  (r, ⟨db, s.parties⟩)

theorem onDatabase_eq {s : Session} {call : DbM Unit Unit} {r : Except Error Unit} {db : Database}
    (he : Proc.exec call () s.db = (r, (), db)) : s.onDatabase call = (r, ⟨db, s.parties⟩) := by
  rw [onDatabase, he]

end Session

end JasonDb
