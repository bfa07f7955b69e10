import JasonDb.BTree.Grants
import JasonDb.Collection
import JasonDb.Transaction.Robust
import JasonDb.TxCollection.Grants

namespace JasonDb

open Lib

variable {ℓ α : Type} {J : Database → Prop} {I : ℓ → Prop} {Q : α → Prop} {W : Page → Prop}

theorem safe_freeOverflow (hr : Robust J) (fuel : Nat) (page : PageNum) (visited : List PageNum) :
    Proc.Safe J I (fun _ => True) (freeOverflow fuel page visited : DbM ℓ Unit) := by
  induction fuel generalizing page visited with
  | zero =>
    unfold freeOverflow
    split
    · exact Proc.safe_pure trivial
    · split <;> exact Proc.safe_fail _
  | succ fuel ih =>
    unfold freeOverflow
    split
    · exact Proc.safe_pure trivial
    · split
      · exact Proc.safe_fail _
      · refine (safe_readPage _).bind fun content _ => ?_
        exact (Proc.safe_atomicE (Q := fun _ => True) fun db hs =>
          ⟨hr.free db _ hs, fun _ _ => trivial⟩).bind fun _ _ => ih _ _

theorem safe_deleteDocument (hr : Robust J) (p : PageNum) :
    Proc.Safe J I (fun _ => True) (deleteDocument p : DbM ℓ Unit) :=
  (safe_readPage _).bind fun _ _ => (safe_freeOverflow hr _ _ _).bind fun _ _ =>
    Proc.safe_atomicE fun db hs => ⟨hr.free db _ hs, fun _ _ => trivial⟩

namespace Collection

variable {A : Json → Prop} {name : String}

def Work.Writes (W : Page → Prop) (work : Work) : Prop := work.tx.Writes W

-- What the schema of the collection lets through.
def Passes (m : Metadata) (name : String) (doc : Json) : Prop :=
  ∀ schema, (m.collections.get? name).bind CollectionMeta.schema = some schema →
    schema.validate doc = .ok ()

-- `J` is kept by a call on the collection that stores documents of `A` only, which are all that
-- the schema lets through.
structure Admits (J : Database → Prop) (W : Page → Prop) (name : String) (A : Json → Prop) :
    Prop where
  grants : Grants J (fun _ => True) W
  robust : Robust J
  node : ∀ n, W (.node n)
  overflow : ∀ part, W (.overflow part)
  metadata : ∀ m, W (.metadata m)
  doc : ∀ xmin id data overflow, A data → W (.doc ⟨xmin, 0, id, data, overflow⟩)
  check : ∀ db data, J db → Passes db.metadata name data → A data

section Reading

-- What is said of the transaction of a call does not depend on the tree it has open.
variable {P : Transaction → Prop}

theorem safe_onTree {m : BTree.TreeM α} (h : Proc.Safe J (fun _ => True) Q m) :
    Proc.Safe J (fun work => P work.tx) Q (onTree m) :=
  h.zoom (fun _ _ => trivial) fun _ _ hw _ => hw

theorem safe_search (id : String) :
    Proc.Safe J (fun work => P work.tx) (fun _ => True) (onTree (BTree.search id)) :=
  safe_onTree (BTree.safe_search id)

theorem safe_readVisible (id : String) :
    Proc.Safe J (fun work => P work.tx) (fun _ => True) (readVisible id) := by
  refine (safe_search id).bind fun p _ => ?_
  refine Proc.Safe.bind (Q := fun _ => True) (m := readVersion p) ?_ fun doc _ => ?_
  · exact Proc.safe_getLocal.bind fun _ _ => safe_readVersionedDocument _ _
  · refine Proc.safe_getLocal.bind fun work _ => ?_
    split
    · exact Proc.safe_pure trivial
    · exact Proc.safe_fail _

theorem safe_visit [SerdeJson] (tx : Transaction) (entry : LeafEntry) :
    Proc.Safe J (fun _ => True) (fun _ => True) (visit tx entry) := by
  refine (safe_catching (safe_readVersionedDocument _ _)).bind fun r _ => ?_
  split
  · exact Proc.safe_pure trivial
  · exact Proc.safe_pure trivial

theorem safe_findAllInTx [SerdeJson] :
    Proc.Safe J (fun work => P work.tx) (fun _ => True) findAllInTx :=
  Proc.safe_getLocal.bind fun _ _ =>
    safe_onTree (BTree.safe_iterate (safe_visit _))

theorem safe_checkQuery (query : Query) :
    Proc.Safe J I (fun _ => True) (checkQuery query : DbM ℓ Unit) :=
  (Proc.safe_ofExcept (Q := fun _ => True) fun _ _ => trivial).bind fun _ _ =>
    Proc.safe_pure trivial

theorem safe_findInTx [SerdeJson] (query : Query) :
    Proc.Safe J (fun work => P work.tx) (fun _ => True) (findInTx query) :=
  (safe_checkQuery query).bind fun _ _ => safe_findAllInTx.bind fun _ _ =>
    Proc.safe_ofExcept fun _ _ => trivial

theorem safe_openTree (root : PageNum) :
    Proc.Safe J (fun work => P work.tx) (fun _ => True) (openTree root) :=
  Proc.safe_modifyLocal fun _ hw => hw

end Reading

theorem safe_modifyTx {f : Transaction → Transaction} (hf : ∀ tx, tx.Writes W → (f tx).Writes W) :
    Proc.Safe J (Work.Writes W) (fun _ => True) (modifyTx f) :=
  Proc.safe_modifyLocal fun work hw => hf work.tx hw

theorem safe_recordWrite (name id : String) (p : PageNum) {pages : HashMap PageNum Page}
    (h : PagesIn (fun _ => True) W pages) :
    Proc.Safe J (Work.Writes W) (fun _ => True) (recordWrite name id p pages) :=
  Proc.Safe.bind (safe_modifyTx fun _ hw => PagesIn.insertAll hw h) fun _ _ =>
    safe_modifyTx fun _ hw => hw

theorem safe_setCollectionRoot (name : String) :
    Proc.Safe J (Work.Writes W) (fun _ => True) (setCollectionRoot name) :=
  Proc.safe_modifyLocal fun _ hw => hw

theorem safe_forDocs {f : String → DbM ℓ Unit} (hf : ∀ id, Proc.Safe J I (fun _ => True) (f id))
    (docs : List Json) : Proc.Safe J I (fun _ => True) (forDocs f docs) := by
  induction docs with
  | nil => exact Proc.safe_pure trivial
  | cons doc rest ih =>
    unfold forDocs
    split
    · exact (hf _).bind fun _ _ => ih.bind fun _ _ => Proc.safe_pure trivial
    · exact ih

theorem safe_rootOf (other : String) : Proc.Safe J I (fun _ => True) (rootOf other : DbM ℓ _) := by
  refine safe_getMetadata.bind fun metadata _ => ?_
  split
  · exact Proc.safe_pure trivial
  · exact Proc.safe_fail _

theorem safe_validateDocument_any (doc : Json) :
    Proc.Safe J I (fun _ => True) (validateDocument name doc : DbM ℓ Unit) := by
  refine safe_getMetadata.bind fun metadata _ => ?_
  split
  · exact Proc.safe_ofExcept fun _ _ => trivial
  · exact Proc.safe_pure trivial

section Calls

variable (hJ : Unattached J)

include hJ

theorem safe_inTransaction_of {P : Transaction → Prop} (hblank : ∀ tx, tx.Blank → P tx)
    (habandon : ∀ tx, P tx → P tx.abandoned) {body : WorkM α}
    (h : Proc.Safe J (fun work => P work.tx) Q body) :
    Proc.Safe J I Q (inTransaction body : DbM ℓ α) := by
  refine hJ.safe_begin.bind fun tx htx => ?_
  refine (h.attempt.within (hblank tx htx)).bind fun r hr => ?_
  exact ((hJ.safe_dropTransaction habandon).within hr.2).bind fun _ _ => Proc.safe_ofExcept hr.1

-- A body that keeps to itself what it does in the transaction.
theorem safe_inTransaction_any {body : WorkM α} (h : Proc.Safe J (fun _ => True) Q body) :
    Proc.Safe J I Q (inTransaction body : DbM ℓ α) :=
  safe_inTransaction_of hJ (P := fun _ => True) (fun _ _ => trivial) (fun _ _ => trivial) h

theorem safe_onExisting_any (name : String) {body : WorkM α}
    (h : Proc.Safe J (fun _ => True) Q body) :
    Proc.Safe J I Q (onExisting name body : DbM ℓ α) := by
  refine safe_inTransaction_any hJ ((safe_rootOf name).bind fun root _ => ?_)
  split
  · exact Proc.safe_fail _
  · exact (safe_openTree (P := fun _ => True) _).bind fun _ _ => h

theorem safe_findById [SerdeJson] (name id : String) :
    Proc.Safe J I (fun _ => True) (findById name id : DbM ℓ Json) :=
  safe_onExisting_any hJ name ((safe_readVisible (P := fun _ => True) id).bind fun _ _ =>
    Proc.safe_ofExcept fun _ _ => trivial)

theorem safe_findAll [SerdeJson] (name : String) :
    Proc.Safe J I (fun _ => True) (findAll name : DbM ℓ (List Json)) := by
  refine safe_inTransaction_any hJ ((safe_rootOf name).bind fun root _ => ?_)
  split
  · exact Proc.safe_pure trivial
  · exact (safe_openTree (P := fun _ => True) _).bind fun _ _ => safe_findAllInTx (P := fun _ => True)

theorem safe_find [SerdeJson] (name : String) (query : Query) :
    Proc.Safe J I (fun _ => True) (find name query : DbM ℓ (List Json)) :=
  (safe_checkQuery query).bind fun _ _ => (safe_findAll hJ name).bind fun _ _ =>
    Proc.safe_ofExcept fun _ _ => trivial

theorem safe_findOne [SerdeJson] (name : String) (query : Query) :
    Proc.Safe J I (fun _ => True) (findOne name query : DbM ℓ (Option Json)) :=
  (safe_find hJ name query).bind fun _ _ => Proc.safe_pure trivial

end Calls

section Writing

variable (ha : Admits J W name A)

include ha

theorem safe_inTransaction {body : WorkM α} (h : Proc.Safe J (Work.Writes W) Q body) :
    Proc.Safe J I Q (inTransaction body : DbM ℓ α) := by
  refine safe_inTransaction_of ha.robust.unattached (P := Transaction.Writes W) (fun tx htx => ?_)
    (fun _ _ => pagesIn_empty) h
  rw [Transaction.Writes, htx.writes]
  exact pagesIn_empty

theorem safe_openOrCreate (other : String) :
    Proc.Safe J (Work.Writes W) (fun _ => True) (openOrCreate other) := by
  refine safe_getMetadata.bind fun metadata _ => ?_
  split
  · exact (BTree.safe_new ha.grants ha.node).bind fun _ _ => Proc.safe_modifyLocal fun _ hw => hw
  · exact safe_openTree _

theorem safe_commit : Proc.Safe J (Work.Writes W) (fun _ => True) commit := by
  refine Proc.safe_getLocal.bind fun work hwork => ?_
  split
  · exact (safe_commitEmpty ha.robust).zoom (fun _ hw => hw) fun _ _ _ hw => hw
  · refine (safe_executeBatchCommit ha.grants ha.robust ha.metadata ha.node _ ?_).bind fun _ _ =>
      safe_modifyTx fun _ hw => hw
    intro pending hmem
    obtain rfl := List.mem_singleton.mp hmem
    exact hwork

omit ha in
-- A document with an id of its own is stored as it is.
theorem docIdOf_own {generatedId id : String} {fields fields' : Json.Map}
    (h : (fields.get "_id").isSome) (hid : docIdOf generatedId (.obj fields) = .ok (id, fields')) :
    fields' = fields := by
  obtain ⟨value, hvalue⟩ := Option.isSome_iff_exists.mp h
  simp only [docIdOf, Json.asObject, TxCollection.docIdOf, hvalue] at hid
  cases hstr : value.asStr with
  | none => simp [hstr] at hid
  | some text =>
    simp only [hstr, Option.map_some, Except.ok.injEq, Prod.mk.injEq] at hid
    exact hid.2.symm

theorem safe_validateDocument (doc : Json) :
    Proc.Safe J I (fun _ => A doc) (validateDocument name doc : DbM ℓ Unit) := by
  refine Proc.Safe.bind (Q := fun m => Passes m name doc → A doc) (m := getMetadata)
    (Proc.safe_atomic fun db hs => ⟨hs, ha.check db doc hs⟩) fun metadata hm => ?_
  split
  case h_1 schema hschema =>
    refine Proc.safe_ofExcept fun _ hok => hm ?_
    intro schema' hschema'
    obtain rfl : schema = schema' := Option.some.inj (hschema.symm.trans hschema')
    exact hok
  case h_2 hnone =>
    refine Proc.safe_pure (hm ?_)
    intro schema hschema
    rw [hschema] at hnone
    cases hnone

theorem safe_writeVersion (id : String) {data : Json} (hdata : A data) :
    Proc.Safe J (Work.Writes W) (fun r => PagesIn (fun _ => True) W r.2) (writeVersion id data) :=
  Proc.safe_getLocal.bind fun _ _ =>
    (safe_writeVersionedDocument ha.grants ha.overflow (fun _ => ha.doc _ _ _ _ hdata)
      pagesIn_empty).mono fun _ h => h.2

theorem safe_insertDocument (other : String) (id : String) {fields : Json.Map}
    (hdata : A (.obj fields)) :
    Proc.Safe J (Work.Writes W) (fun _ => True) (insertDocument other id fields) := by
  refine (safe_catching (safe_search id)).bind fun found _ => ?_
  split
  · exact Proc.safe_fail _
  · refine (safe_writeVersion ha id hdata).bind fun r hr => ?_
    exact (safe_onTree (BTree.safe_insert ha.grants ha.node _ _)).bind fun _ _ =>
      safe_recordWrite _ _ _ hr

theorem safe_updateDocument [SerdeJson] (id : String) (updates : Json) :
    Proc.Safe J (Work.Writes W) (fun _ => True) (updateDocument name id updates) := by
  refine (safe_readVisible id).bind fun doc _ => ?_
  refine (Proc.safe_ofExcept (Q := fun _ => True) fun _ _ => trivial).bind fun fields _ => ?_
  split
  · exact Proc.safe_fail _
  · refine (safe_validateDocument ha _).bind fun _ hdata => ?_
    refine (safe_writeVersion ha id hdata).bind fun r hr => ?_
    refine (safe_onTree (BTree.safe_delete ha.grants ha.node _)).bind
      fun _ _ => ?_
    exact (safe_onTree (BTree.safe_insert ha.grants ha.node _ _)).bind fun _ _ =>
      safe_recordWrite _ _ _ hr

theorem safe_insert {generatedId : String} {doc : Json}
    (hdoc : ∀ fields id fields', doc.asObject = some fields →
      docIdOf generatedId doc = .ok (id, fields') → A (.obj fields) → A (.obj fields')) :
    Proc.Safe J I (fun _ => True) (insert name generatedId doc : DbM ℓ String) := by
  unfold insert
  split
  · exact Proc.safe_fail _
  case h_2 fields hfields =>
    refine (safe_validateDocument ha _).bind fun _ hdata => ?_
    refine (Proc.safe_ofExcept (Q := fun r => A (.obj r.2)) fun r hr =>
      hdoc fields r.1 r.2 hfields hr hdata).bind fun r hr => ?_
    refine safe_inTransaction ha ?_
    refine (safe_openOrCreate ha _).bind fun _ _ => (safe_insertDocument ha _ _ hr).bind
      fun _ _ => ?_
    exact (safe_setCollectionRoot _).bind fun _ _ => (safe_commit ha).bind fun _ _ =>
      Proc.safe_pure trivial

theorem safe_onExisting (other : String) {body : WorkM α}
    (h : Proc.Safe J (Work.Writes W) Q body) :
    Proc.Safe J I Q (onExisting other body : DbM ℓ α) := by
  refine safe_inTransaction ha ((safe_rootOf other).bind fun root _ => ?_)
  split
  · exact Proc.safe_fail _
  · exact (safe_openTree _).bind fun _ _ => h

theorem safe_updateById [SerdeJson] (id : String) (updates : Json) :
    Proc.Safe J I (fun _ => True) (updateById name id updates : DbM ℓ Unit) := by
  unfold updateById
  split
  · exact Proc.safe_fail _
  · exact safe_onExisting ha name ((safe_updateDocument ha id updates).bind fun _ _ =>
      (safe_setCollectionRoot _).bind fun _ _ => safe_commit ha)

theorem safe_deleteVersion (id : String) :
    Proc.Safe J (Work.Writes W) (fun _ => True) (deleteVersion id) :=
  (safe_search id).bind fun _ _ => (safe_deleteDocument ha.robust _).bind fun _ _ =>
    safe_onTree (BTree.safe_delete ha.grants ha.node _)

theorem safe_deleteById (other id : String) :
    Proc.Safe J I (fun _ => True) (deleteById other id : DbM ℓ Unit) :=
  safe_onExisting ha other ((safe_deleteVersion ha id).bind fun _ _ =>
    (safe_setCollectionRoot _).bind fun _ _ => safe_commit ha)

theorem safe_update [SerdeJson] (query : Query) (updates : Json) :
    Proc.Safe J I (fun _ => True) (update name query updates : DbM ℓ Nat) := by
  unfold update
  split
  · exact Proc.safe_fail _
  · exact (safe_find ha.robust.unattached name query).bind fun docs _ =>
      safe_forDocs (fun id => safe_updateById ha id updates) docs

theorem safe_updateOne [SerdeJson] (query : Query) (updates : Json) :
    Proc.Safe J I (fun _ => True) (updateOne name query updates : DbM ℓ Bool) := by
  refine (safe_findOne ha.robust.unattached name query).bind fun doc _ => ?_
  split
  · exact (safe_updateById ha _ _).bind fun _ _ => Proc.safe_pure trivial
  · exact Proc.safe_pure trivial

theorem safe_delete [SerdeJson] (other : String) (query : Query) :
    Proc.Safe J I (fun _ => True) (delete other query : DbM ℓ Nat) :=
  (safe_find ha.robust.unattached other query).bind fun docs _ => safe_forDocs (safe_deleteById ha other) docs

theorem safe_deleteOne [SerdeJson] (other : String) (query : Query) :
    Proc.Safe J I (fun _ => True) (deleteOne other query : DbM ℓ Bool) := by
  refine (safe_findOne ha.robust.unattached other query).bind fun doc _ => ?_
  split
  · exact (safe_deleteById ha _ _).bind fun _ _ => Proc.safe_pure trivial
  · exact Proc.safe_pure trivial

theorem safe_upsertById [SerdeJson] {id generatedId : String} {doc : Json} :
    Proc.Safe J I (fun _ => True) (upsertById name id generatedId doc : DbM ℓ UpsertResult) := by
  unfold upsertById
  split
  · exact Proc.safe_fail _
  case h_2 fields hfields =>
    refine (safe_catching (safe_findById ha.robust.unattached name id)).bind fun found _ => ?_
    split
    · exact (safe_updateById ha _ _).bind fun _ _ => Proc.safe_pure trivial
    · refine (safe_insert ha ?_).bind fun _ _ => Proc.safe_pure trivial
      intro fields₁ id₁ fields₂ hobj hid hdata
      obtain rfl : Json.Map.insert "_id" (.str id) fields = fields₁ := Option.some.inj hobj
      rw [docIdOf_own (by rw [Json.Map.get_insert_self]; rfl) hid]
      exact hdata

theorem safe_upsert [SerdeJson] {query : Query} {generatedId : String} {doc : Json}
    (hdoc : ∀ fields id fields', doc.asObject = some fields →
      docIdOf generatedId doc = .ok (id, fields') → A (.obj fields) → A (.obj fields')) :
    Proc.Safe J I (fun _ => True) (upsert name query generatedId doc : DbM ℓ UpsertResult) := by
  unfold upsert
  split
  · exact Proc.safe_fail _
  · refine (safe_catching (safe_findOne ha.robust.unattached name query)).bind fun found _ => ?_
    refine (Proc.safe_ofExcept (Q := fun _ => True) fun _ _ => trivial).bind fun existing _ => ?_
    split
    · exact (safe_updateById ha _ _).bind fun _ _ => Proc.safe_pure trivial
    · exact (safe_insert ha hdoc).bind fun _ _ => Proc.safe_pure trivial

theorem safe_executeInsert {generatedId : String} {doc : Json}
    (hdoc : ∀ id fields, docIdOf generatedId doc = .ok (id, fields) → A (.obj fields)) :
    Proc.Safe J (Work.Writes W) (fun _ => True) (executeInsert name generatedId doc) := by
  refine (Proc.safe_ofExcept (Q := fun r => A (.obj r.2)) fun r hr => hdoc r.1 r.2 hr).bind
    fun r hr => ?_
  exact (safe_insertDocument ha _ _ hr).bind fun _ _ => Proc.safe_pure trivial

theorem safe_executeUpdates [SerdeJson] (query : Query) (updates : Json) (choose : List Json → List Json) :
    Proc.Safe J (Work.Writes W) (fun _ => True) (executeUpdates name query updates choose) := by
  unfold executeUpdates
  split
  · exact Proc.safe_fail _
  · exact (safe_findInTx query).bind fun docs _ =>
      safe_forDocs (fun id => safe_updateDocument ha id updates) _

theorem safe_executeDeletes [SerdeJson] (query : Query) (choose : List Json → List Json) :
    Proc.Safe J (Work.Writes W) (fun _ => True) (executeDeletes query choose) :=
  (safe_findInTx query).bind fun _ _ => safe_forDocs (safe_deleteVersion ha) _

theorem safe_executeOperation [SerdeJson] {operation : BulkOperation}
    (hdoc : ∀ generatedId doc, operation = .insert generatedId doc →
      ∀ id fields, docIdOf generatedId doc = .ok (id, fields) → A (.obj fields)) :
    Proc.Safe J (Work.Writes W) (fun _ => True) (executeOperation name operation) := by
  cases operation with
  | insert generatedId doc =>
    exact (safe_executeInsert ha (hdoc generatedId doc rfl)).bind fun _ _ => Proc.safe_pure trivial
  | updateOne query updates =>
    exact (safe_executeUpdates ha query updates _).bind fun _ _ => Proc.safe_pure trivial
  | updateMany query updates =>
    exact (safe_executeUpdates ha query updates _).bind fun _ _ => Proc.safe_pure trivial
  | deleteOne query => exact (safe_executeDeletes ha query _).bind fun _ _ => Proc.safe_pure trivial
  | deleteMany query => exact (safe_executeDeletes ha query _).bind fun _ _ => Proc.safe_pure trivial

theorem safe_executeOperations [SerdeJson] (ordered : Bool) (index : Nat) {operations : List BulkOperation}
    (hdoc : ∀ generatedId doc, .insert generatedId doc ∈ operations →
      ∀ id fields, docIdOf generatedId doc = .ok (id, fields) → A (.obj fields))
    (result : BulkWriteResult) :
    Proc.Safe J (Work.Writes W) (fun _ => True)
      (executeOperations name ordered index operations result) := by
  induction operations generalizing index result with
  | nil => exact Proc.safe_pure trivial
  | cons operation rest ih =>
    have hrest : ∀ index result, Proc.Safe J (Work.Writes W) (fun _ => True)
        (executeOperations name ordered index rest result) := fun index result =>
      ih index (fun generatedId doc hmem => hdoc generatedId doc (List.mem_cons_of_mem _ hmem)) result
    refine (safe_catching (safe_executeOperation ha ?_)).bind fun r _ => ?_
    · rintro generatedId doc rfl
      exact hdoc generatedId doc List.mem_cons_self
    · split
      · exact hrest _ _
      · simp only
        split
        · exact Proc.safe_fail _
        · exact hrest _ _

theorem safe_installRoot (other : String) :
    Proc.Safe J (Work.Writes W) (fun _ => True) (installRoot other) :=
  Proc.safe_getLocal.bind fun _ _ =>
    safe_updateMetadata ha.grants ha.robust ha.metadata fun db hs => ha.robust.root db _ _ hs

theorem safe_bulkWrite [SerdeJson] (maxBulkOperations : Nat) (ordered : Bool)
    {operations : List BulkOperation}
    (hdoc : ∀ generatedId doc, .insert generatedId doc ∈ operations →
      ∀ id fields, docIdOf generatedId doc = .ok (id, fields) → A (.obj fields)) :
    Proc.Safe J I (fun _ => True)
      (bulkWrite name maxBulkOperations ordered operations : DbM ℓ BulkWriteResult) := by
  unfold bulkWrite
  split
  · exact Proc.safe_pure trivial
  · split
    · exact Proc.safe_fail _
    · refine safe_inTransaction ha ((safe_openOrCreate ha _).bind fun _ _ => ?_)
      refine (safe_executeOperations ha ordered 0 hdoc _).bind fun _ _ => ?_
      exact (safe_installRoot ha _).bind fun _ _ => (safe_commit ha).bind fun _ _ =>
        Proc.safe_pure trivial

theorem safe_executeInserts {docs : List (String × Json)}
    (hdoc : ∀ entry ∈ docs, ∀ id fields, docIdOf entry.1 entry.2 = .ok (id, fields) →
      A (.obj fields)) :
    Proc.Safe J (Work.Writes W) (fun _ => True) (executeInserts name docs) := by
  induction docs with
  | nil => exact Proc.safe_pure trivial
  | cons entry rest ih =>
    refine (safe_executeInsert ha (hdoc entry List.mem_cons_self)).bind fun _ _ => ?_
    exact (ih fun e hmem => hdoc e (List.mem_cons_of_mem _ hmem)).bind fun _ _ =>
      Proc.safe_pure trivial

theorem safe_insertMany (maxBulkOperations : Nat) {docs : List (String × Json)}
    (hdoc : ∀ entry ∈ docs, ∀ id fields, docIdOf entry.1 entry.2 = .ok (id, fields) →
      A (.obj fields)) :
    Proc.Safe J I (fun _ => True) (insertMany name maxBulkOperations docs : DbM ℓ _) := by
  unfold insertMany
  split
  · exact Proc.safe_pure trivial
  · split
    · exact Proc.safe_fail _
    · refine safe_inTransaction ha ((safe_openOrCreate ha _).bind fun _ _ => ?_)
      refine (safe_executeInserts ha hdoc).bind fun _ _ => ?_
      exact (safe_installRoot ha _).bind fun _ _ => (safe_commit ha).bind fun _ _ =>
        Proc.safe_pure trivial

end Writing

end Collection

end JasonDb
