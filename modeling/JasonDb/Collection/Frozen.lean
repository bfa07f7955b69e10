import JasonDb.Collection.Commutes
import JasonDb.Collection.Grants
import JasonDb.TxCollection.Frozen

namespace JasonDb

open Lib

variable {ℓ α : Type} {O : Observed} {I : ℓ → Prop} {name : String}

theorem safe_freeOverflow_frozen (fuel : Nat) (page : PageNum) (visited : List PageNum) :
    Proc.Safe (Database.Frozen O) I (fun _ => True) (freeOverflow fuel page visited : DbM ℓ Unit) := by
  unfold freeOverflow
  split
  · exact Proc.safe_pure trivial
  · split
    · exact Proc.safe_fail _
    · split
      · exact Proc.safe_fail _
      · exact (safe_readPage _).bind fun _ _ => ((refused_freePage _).bind _).safe

theorem refused_deleteDocument (p : PageNum) : Refused O I (deleteDocument p : DbM ℓ Unit) :=
  (safe_readPage _).bind fun _ _ => (safe_freeOverflow_frozen _ _ _).bind fun _ _ =>
    refused_freePage _

namespace Collection

section Work

theorem refused_insertDocument (id : String) (fields : Json.Map) :
    Refused O (fun _ => True) (insertDocument name id fields) := by
  refine (safe_catching (safe_search (P := fun _ => True) id)).bind fun found _ => ?_
  split
  · exact Proc.safe_fail _
  · refine Refused.bind (m := writeVersion _ _) ?_ _
    exact Proc.safe_getLocal.bind fun _ _ => refused_writeVersionedDocument _ _ _ _ _

theorem refused_updateDocument [SerdeJson] (id : String) (updates : Json) :
    Refused O (fun _ => True) (updateDocument name id updates) := by
  refine (safe_readVisible (P := fun _ => True) id).bind fun doc _ => ?_
  refine (Proc.safe_ofExcept (Q := fun _ => True) fun _ _ => trivial).bind fun fields _ => ?_
  split
  · exact Proc.safe_fail _
  · refine (safe_validateDocument_any _).bind fun _ _ => ?_
    refine Refused.bind (m := writeVersion _ _) ?_ _
    exact Proc.safe_getLocal.bind fun _ _ => refused_writeVersionedDocument _ _ _ _ _

theorem refused_deleteVersion (id : String) : Refused O (fun _ => True) (deleteVersion id) :=
  (safe_search (P := fun _ => True) id).bind fun _ _ => (refused_deleteDocument _).bind _

theorem safe_openOrCreate_frozen :
    Proc.Safe (Database.Frozen O) (fun _ => True) (fun _ => True) (openOrCreate name) := by
  refine safe_getMetadata.bind fun metadata _ => ?_
  split
  · exact ((refused_allocPageMinimum _).bind _).bind _ |>.safe
  · exact safe_openTree (P := fun _ => True) _

end Work

section Calls

theorem refused_inTransaction {body : WorkM α} (h : Refused O (fun _ => True) body) :
    Refused O I (inTransaction body : DbM ℓ α) :=
  safe_inTransaction_any unattached_frozen h

theorem refused_onExisting {body : WorkM α} (h : Refused O (fun _ => True) body) :
    Refused O I (onExisting name body : DbM ℓ α) :=
  safe_onExisting_any unattached_frozen name h

theorem refused_insert (generatedId : String) (doc : Json) :
    Refused O I (insert name generatedId doc : DbM ℓ String) := by
  unfold insert
  split
  · exact Proc.safe_fail _
  · refine (safe_validateDocument_any _).bind fun _ _ => ?_
    refine (Proc.safe_ofExcept (Q := fun _ => True) fun _ _ => trivial).bind fun r _ => ?_
    exact refused_inTransaction (safe_openOrCreate_frozen.bind fun _ _ =>
      (refused_insertDocument _ _).bind _)

theorem refused_updateById [SerdeJson] (id : String) (updates : Json) :
    Refused O I (updateById name id updates : DbM ℓ Unit) := by
  unfold updateById
  split
  · exact Proc.safe_fail _
  · exact refused_onExisting ((refused_updateDocument _ _).bind _)

theorem refused_deleteById (id : String) : Refused O I (deleteById name id : DbM ℓ Unit) :=
  refused_onExisting ((refused_deleteVersion _).bind _)

theorem refused_upsertById [SerdeJson] (id generatedId : String) (doc : Json) :
    Refused O I (upsertById name id generatedId doc : DbM ℓ UpsertResult) := by
  unfold upsertById
  split
  · exact Proc.safe_fail _
  · refine (safe_catching (safe_findById unattached_frozen name id)).bind fun found _ => ?_
    split
    · exact (refused_updateById _ _).bind _
    · exact (refused_insert _ _).bind _

theorem refused_upsert [SerdeJson] (query : Query) (generatedId : String) (doc : Json) :
    Refused O I (upsert name query generatedId doc : DbM ℓ UpsertResult) := by
  unfold upsert
  split
  · exact Proc.safe_fail _
  · refine (safe_catching (safe_findOne unattached_frozen name query)).bind fun found _ => ?_
    refine (Proc.safe_ofExcept (Q := fun _ => True) fun _ _ => trivial).bind fun existing _ => ?_
    split
    · exact (refused_updateById _ _).bind _
    · exact (refused_insert _ _).bind _

theorem refused_executeInsert (generatedId : String) (doc : Json) :
    Refused O (fun _ => True) (executeInsert name generatedId doc) := by
  refine (Proc.safe_ofExcept (Q := fun _ => True) fun _ _ => trivial).bind fun r _ => ?_
  exact (refused_insertDocument _ _).bind _

theorem refused_insertMany (maxBulkOperations : Nat) {docs : List (String × Json)} (h : docs ≠ []) :
    Refused O I (insertMany name maxBulkOperations docs : DbM ℓ (List String)) := by
  unfold insertMany
  rw [if_neg (by simpa using h)]
  split
  · exact Proc.safe_fail _
  · refine refused_inTransaction (safe_openOrCreate_frozen.bind fun _ _ => ?_)
    cases docs with
    | nil => exact absurd rfl h
    | cons entry rest => exact ((refused_executeInsert _ _).bind _).bind _

-- Failures of single operations are collected; the root of the tree is refused at the end.
theorem safe_executeOperation_frozen [SerdeJson] (operation : BulkOperation) :
    Proc.Safe (Database.Frozen O) (fun _ => True) (fun _ => True)
      (executeOperation name operation) := by
  have hupdates : ∀ query updates choose, Proc.Safe (Database.Frozen O) (fun _ => True)
      (fun _ => True) (executeUpdates name query updates choose) := by
    intro query updates choose
    unfold executeUpdates
    split
    · exact Proc.safe_fail _
    · exact (safe_findInTx (P := fun _ => True) query).bind fun docs _ =>
        safe_forDocs (fun id => (refused_updateDocument id updates).safe) _
  have hdeletes : ∀ query choose, Proc.Safe (Database.Frozen O) (fun _ => True)
      (fun _ => True) (executeDeletes query choose) := fun query choose =>
    (safe_findInTx (P := fun _ => True) query).bind fun docs _ =>
      safe_forDocs (fun id => (refused_deleteVersion id).safe) _
  cases operation with
  | insert generatedId doc => exact ((refused_executeInsert _ _).bind _).safe
  | updateOne query updates => exact (hupdates _ _ _).bind fun _ _ => Proc.safe_pure trivial
  | updateMany query updates => exact (hupdates _ _ _).bind fun _ _ => Proc.safe_pure trivial
  | deleteOne query => exact (hdeletes _ _).bind fun _ _ => Proc.safe_pure trivial
  | deleteMany query => exact (hdeletes _ _).bind fun _ _ => Proc.safe_pure trivial

theorem safe_executeOperations_frozen [SerdeJson] (ordered : Bool) (index : Nat)
    (operations : List BulkOperation) (result : BulkWriteResult) :
    Proc.Safe (Database.Frozen O) (fun _ => True) (fun _ => True)
      (executeOperations name ordered index operations result) := by
  induction operations generalizing index result with
  | nil => exact Proc.safe_pure trivial
  | cons operation rest ih =>
    refine (safe_catching (safe_executeOperation_frozen operation)).bind fun r _ => ?_
    split
    · exact ih _ _
    · simp only
      split
      · exact Proc.safe_fail _
      · exact ih _ _

theorem refused_bulkWrite [SerdeJson] (maxBulkOperations : Nat) (ordered : Bool)
    {operations : List BulkOperation} (h : operations ≠ []) :
    Refused O I (bulkWrite name maxBulkOperations ordered operations : DbM ℓ BulkWriteResult) := by
  unfold bulkWrite
  rw [if_neg (by simpa using h)]
  split
  · exact Proc.safe_fail _
  · refine refused_inTransaction (safe_openOrCreate_frozen.bind fun _ _ => ?_)
    refine (safe_executeOperations_frozen _ _ _ _).bind fun result _ => ?_
    refine Refused.bind (m := installRoot name) ?_ _
    exact Proc.safe_getLocal.bind fun _ _ => refused_updateMetadata _

theorem mirrors_forDocs {f : String → DbM ℓ Unit} (hf : ∀ id, Refused O (fun _ => True) (f id))
    (docs : List Json) :
    Proc.Mirrors Database.writable (Database.Frozen O) (forDocs f docs) := by
  induction docs with
  | nil => exact (Proc.commutes_pure _).mirrors
  | cons doc rest ih =>
    unfold forDocs
    split
    · exact Proc.mirrors_of_never ((hf _).bind _)
    · exact ih

theorem mirrors_update [SerdeJson] (query : Query) (updates : Json) : Proc.Mirrors Database.writable
    (Database.Frozen O) (update name query updates : DbM ℓ Nat) := by
  unfold update
  split
  · exact (Proc.commutes_fail _).mirrors
  · exact (commutes_find name query).mirrors.bind (safe_find unattached_frozen name query)
      fun docs _ => mirrors_forDocs (fun id => refused_updateById id updates) docs

theorem mirrors_delete [SerdeJson] (query : Query) : Proc.Mirrors Database.writable
    (Database.Frozen O) (delete name query : DbM ℓ Nat) :=
  (commutes_find name query).mirrors.bind (safe_find unattached_frozen name query)
    fun docs _ => mirrors_forDocs refused_deleteById docs

theorem mirrors_updateOne [SerdeJson] (query : Query) (updates : Json) : Proc.Mirrors Database.writable
    (Database.Frozen O) (updateOne name query updates : DbM ℓ Bool) := by
  refine (commutes_findOne name query).mirrors.bind (safe_findOne unattached_frozen name query)
    fun doc _ => ?_
  split
  · exact Proc.mirrors_of_never ((refused_updateById _ _).bind _)
  · exact (Proc.commutes_pure _).mirrors

theorem mirrors_deleteOne [SerdeJson] (query : Query) : Proc.Mirrors Database.writable
    (Database.Frozen O) (deleteOne name query : DbM ℓ Bool) := by
  refine (commutes_findOne name query).mirrors.bind (safe_findOne unattached_frozen name query)
    fun doc _ => ?_
  split
  · exact Proc.mirrors_of_never ((refused_deleteById _).bind _)
  · exact (Proc.commutes_pure _).mirrors

end Calls

end Collection

end JasonDb
