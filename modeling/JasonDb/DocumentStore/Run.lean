import JasonDb.Codec.Fits
import JasonDb.Database.Opened
import JasonDb.DocumentStore.Scans
import JasonDb.Query.Accepts

namespace JasonDb

open Lib SearchTree TxBTree

variable {ℓ α β : Type} {db db' : Database} {L L' : DbLayout} {M M' : Store} {name : String}

-- Documents that the calls write are read back. Nodes with longer ids do not fit their page, with ids
-- that are too long for a document nothing is written.
def InsertFits [SerdeJson] (generatedId : String) (doc : Json) : Prop :=
  ∀ id fields, Collection.docIdOf generatedId doc = .ok (id, fields) →
    (Codec.ShortKey id ∨ 255 < id.utf8ByteSize) ∧ Legible id fields

theorem InsertFits.legible [SerdeJson] {generatedId id : String} {doc : Json} {fields : Json.Map}
    (h : InsertFits generatedId doc) (hid : Collection.docIdOf generatedId doc = .ok (id, fields)) :
    Legible id fields := (h id fields hid).2

def Store.UpdateFits [SerdeJson] (M : Store) (name id : String) (changes : Json) : Prop :=
  ∀ updates fields, changes.asObject = some updates → (M.docs name)[id]? = some fields →
    Legible id (TxCollection.applyUpdates id fields updates)

namespace Store

-- An update of another document leaves this one as it is.
theorem updateById_of_ne {id other : String} (changes : Json) (h : other ≠ id) :
    ((Proc.exec (Store.updateById name id changes) () M).2.2.docs name)[other]? = (M.docs name)[other]? := by
  have hexec : (Proc.exec (Store.updateById name id changes) () M).2.2 =
      ((M.updated name id changes).toOption.map Prod.snd).getD M := by
    rw [Store.updateById, Store.change, Proc.exec_atomicE]
    cases M.updated name id changes <;> rfl
  rw [hexec, Store.updated]
  cases changes.asObject with
  | none => rfl
  | some updates =>
    cases M.lookup name id with
    | error e => rfl
    | ok fields =>
      change ((((M.validate name _ >>= fun _ => _).toOption.map Prod.snd).getD M).docs name)[other]? = _
      cases M.validate name (.obj (TxCollection.applyUpdates id fields updates)) with
      | error e => rfl
      | ok u =>
        change (((M.withDocs name ((M.docs name).insert id _) (M.gaps name)).docs name))[other]? = _
        rw [docs_withDocs, if_pos rfl, Std.ExtTreeMap.getElem?_insert, if_neg]
        simpa using Ne.symm h

end Store

namespace Hosts

-- A scan gives no id twice.
theorem nodup_scanned [SerdeJson] (h : Hosts db L M) {reach : Nat} {docs : List Json}
    (hdocs : M.scanned reach name = .ok docs) :
    (docs.filterMap Collection.idOf).Nodup := by
  unfold Store.scanned at hdocs
  cases hM : M[name]? with
  | none =>
    rw [hM] at hdocs
    cases hdocs
  | some coll =>
    rw [hM] at hdocs
    obtain rfl := Except.ok.inj hdocs
    obtain ⟨entries, hentries, hsub⟩ : ∃ entries, entries =
        (if coll.gaps then coll.docs.toList.take reach else coll.docs.toList) ∧ entries.Sublist coll.docs.toList := by
      refine ⟨_, rfl, ?_⟩
      split
      · exact List.take_sublist _ _
      · exact List.Sublist.refl _
    rw [← hentries]
    have hids : ∀ entry ∈ entries,
        (if entry.1 = "" then none else some (Json.obj entry.2)).bind Collection.idOf =
          Option.guard (fun id => decide (id ≠ "")) entry.1 := by
      intro entry hentry
      have hget : coll.docs[entry.1]? = some entry.2 :=
        Std.ExtTreeMap.mem_toList_iff_getElem?_eq_some.mp (hsub.subset hentry)
      have hdoc := h.docs name entry.1
      unfold Store.docs at hdoc
      rw [hM, Option.map_some, Option.getD_some, hget] at hdoc
      obtain ⟨d, hd, hfields⟩ := Option.map_eq_some_iff.mp hdoc.symm
      have hid := (h.doc name entry.1 d hd).2.2.1
      rw [hfields] at hid
      by_cases hempty : entry.1 = "" <;> simp [hempty, hid, Option.guard]
    have hkeys : (entries.map Prod.fst).Nodup := by
      rw [List.Nodup, List.pairwise_map]
      refine (Std.ExtTreeMap.ordered_keys_toList.sublist hsub).imp fun hlt heq => ?_
      exact absurd (compare_lt_iff_lt.mp hlt) (by simp [heq])
    have hlist : entries.filterMap (fun entry => Option.guard (fun id => decide (id ≠ "")) entry.1) =
        (entries.map Prod.fst).filter fun id => decide (id ≠ "") := by
      rw [← List.filterMap_eq_filter, List.filterMap_map]
      rfl
    rw [List.filterMap_filterMap, List.filterMap_congr hids, hlist]
    exact hkeys.filter _

theorem nodup_found [SerdeJson] (h : Hosts db L M) {reach : Nat} {query : Query} {docs : List Json}
    (hdocs : Proc.exec (Store.find reach name query) () M = (.ok docs, (), M)) :
    (docs.filterMap Collection.idOf).Nodup := by
  cases query with
  | error message => cases hdocs
  | ok test =>
    change Proc.exec (Store.findAll reach name >>= fun docs =>
      Proc.ofExcept (Collection.select (.ok test) docs)) () M = _ at hdocs
    rcases Proc.exec_bind_cases hdocs with ⟨e, -, herror⟩ | ⟨all, l₁, M₁, hall, hselect⟩
    · cases herror
    · have hscan : M.scanned reach name = .ok all := congrArg Prod.fst hall
      have hfilter : all.filter (fun doc => (doc.asObject.map test).getD false) = docs :=
        Except.ok.inj (congrArg Prod.fst hselect)
      rw [← hfilter]
      exact (h.nodup_scanned hscan).sublist (List.filter_sublist.filterMap _)

end Hosts

section Loops

theorem serves_updates [SerdeJson] {docs : List Json} {changes : Json} (h : Hosts db L M)
    (hnodup : (docs.filterMap Collection.idOf).Nodup)
    (hfit : ∀ id ∈ docs.filterMap Collection.idOf, M.UpdateFits name id changes) :
    Serves (Collection.forDocs (fun id => Collection.updateById name id changes) docs : DbM ℓ Nat)
      (Store.forDocs (fun id => Store.updateById name id changes) docs) db M := by
  induction docs generalizing db L M with
  | nil => exact Serves.pure h 0
  | cons doc rest ih =>
    rw [Collection.forDocs, Store.forDocs]
    cases hid : Collection.idOf doc with
    | none =>
      rw [List.filterMap_cons_none hid] at hnodup hfit
      exact ih h hnodup hfit
    | some id =>
      rw [List.filterMap_cons_some hid, List.nodup_cons] at hnodup
      rw [List.filterMap_cons_some hid] at hfit
      refine Serves.bind (serves_updateById h name id (hfit id (by simp))) (fun _ db₁ L₁ _ h₁ => ?_) rfl
      refine Serves.bind (ih h₁ hnodup.2 fun other hother updates fields hupdates hfields => ?_)
        (fun count _ _ _ h₂ => Serves.pure h₂ (count + 1)) rfl
      have hne : other ≠ id := fun heq => hnodup.1 (heq ▸ hother)
      rw [Store.updateById_of_ne changes hne] at hfields
      exact hfit other (List.mem_cons_of_mem _ hother) updates fields hupdates hfields

theorem serves_deletes [SerdeJson] {docs : List Json} (h : Hosts db L M) (name : String) :
    Serves (Collection.forDocs (Collection.deleteById name) docs : DbM ℓ Nat)
      (Store.forDocs (Store.deleteById name) docs) db M := by
  induction docs generalizing db L M with
  | nil => exact Serves.pure h 0
  | cons doc rest ih =>
    rw [Collection.forDocs, Store.forDocs]
    cases Collection.idOf doc with
    | none => exact ih h
    | some id =>
      refine Serves.bind (serves_deleteById h name id) (fun _ db₁ L₁ _ h₁ => ?_) rfl
      exact Serves.bind (ih h₁) (fun count _ _ _ h₂ => Serves.pure h₂ (count + 1)) rfl

end Loops

section Calls

theorem serves_update [SerdeJson] (h : Hosts db L M) (name : String) (query : Query) (changes : Json)
    (hfit : ∀ id, M.UpdateFits name id changes) :
    Serves (Collection.update name query changes : DbM ℓ Nat) (Store.update (L.reach name) name query changes)
      db M := by
  unfold Collection.update Store.update
  split
  · exact Serves.fail h _
  · refine Serves.bind (reads_find h name query).serves (fun docs db₁ L₁ hdocs h₁ => ?_)
      (reads_find h name query (ℓ := ℓ)).same.symm
    exact serves_updates h₁ (h₁.nodup_found hdocs) fun id _ => hfit id

theorem serves_updateOne [SerdeJson] (h : Hosts db L M) (name : String) (query : Query) (changes : Json)
    (hfit : ∀ id, M.UpdateFits name id changes) :
    Serves (Collection.updateOne name query changes : DbM ℓ Bool)
      (Store.updateOne (L.reach name) name query changes) db M := by
  refine Serves.bind (reads_findOne h name query).serves (fun found db₁ L₁ _ h₁ => ?_)
    (reads_findOne h name query (ℓ := ℓ)).same.symm
  cases found.bind Collection.idOf with
  | none => exact Serves.pure h₁ false
  | some id =>
    exact Serves.bind (serves_updateById h₁ name id (hfit id)) (fun _ _ _ _ h₂ => Serves.pure h₂ true) rfl

theorem serves_delete [SerdeJson] (h : Hosts db L M) (name : String) (query : Query) :
    Serves (Collection.delete name query : DbM ℓ Nat) (Store.delete (L.reach name) name query) db M :=
  Serves.bind (reads_find h name query).serves (fun _ _ _ _ h₁ => serves_deletes h₁ name)
    (reads_find h name query (ℓ := ℓ)).same.symm

theorem serves_deleteOne [SerdeJson] (h : Hosts db L M) (name : String) (query : Query) :
    Serves (Collection.deleteOne name query : DbM ℓ Bool) (Store.deleteOne (L.reach name) name query) db M := by
  refine Serves.bind (reads_findOne h name query).serves (fun found db₁ L₁ _ h₁ => ?_)
    (reads_findOne h name query (ℓ := ℓ)).same.symm
  cases found.bind Collection.idOf with
  | none => exact Serves.pure h₁ false
  | some id => exact Serves.bind (serves_deleteById h₁ name id) (fun _ _ _ _ h₂ => Serves.pure h₂ true) rfl

theorem serves_upsertById [SerdeJson] {id generatedId : String} {doc : Json} (h : Hosts db L M)
    (name : String)
    (hupdate : M.UpdateFits name id doc)
    (hinsert : ∀ fields, doc.asObject = some fields →
      InsertFits generatedId (.obj (Json.Map.insert "_id" (.str id) fields))) :
    Serves (Collection.upsertById name id generatedId doc : DbM ℓ UpsertResult)
      (Store.upsertById name id generatedId doc) db M := by
  unfold Collection.upsertById Store.upsertById
  cases hdoc : doc.asObject with
  | none => exact Serves.fail h _
  | some fields =>
    intro l
    obtain ⟨r, db₁, hfind, h₁, hshown, hcaught⟩ := Collection.exec_findById h name id l
    have hspec : Proc.exec (Proc.attempt (Store.findById name id : StoreM Unit Json)) () M =
        (.ok ((M.lookup name id).map .obj), (), M) := rfl
    have hok : r.isOk = ((M.lookup name id).map Json.obj).isOk := by
      cases r with
      | ok found => rw [hshown.of_ok]
      | error e =>
        obtain ⟨e', he', -⟩ := hshown.of_error
        rw [he']
        rfl
    rw [Proc.exec_bind_ok (exec_catching hfind hcaught), Proc.exec_bind_ok hspec, ← hok]
    cases r.isOk with
    | true =>
      exact (Serves.bind (serves_updateById h₁ name id hupdate)
        (fun _ _ _ _ h₂ => Serves.pure h₂ (UpsertResult.updated id)) rfl) l
    | false =>
      exact (Serves.bind (serves_insert h₁ name fun _ _ => (hinsert fields hdoc).legible)
        (fun _ _ _ _ h₂ => Serves.pure h₂ (UpsertResult.inserted id)) rfl) l

theorem caught_findOne {reach : Nat} {query : Query} {e : Error}
    (h : (Proc.exec (Store.findOne reach name query) () M).1 = .error e) : e.Caught := by
  have hscan : Proc.exec (Store.findAll reach name : StoreM Unit (List Json)) () M =
      (M.scanned reach name, (), M) := rfl
  cases query with
  | error message =>
    cases h
    simp [Error.Caught]
  | ok test =>
    have hfind : Proc.exec (Store.find reach name (.ok test) : StoreM Unit (List Json)) () M =
        Proc.exec (Store.findAll reach name >>= fun docs => Proc.ofExcept (Collection.select (.ok test) docs)) () M :=
      rfl
    cases hr : M.scanned reach name with
    | error e' =>
      rw [hr] at hscan
      rw [Store.findOne, Proc.exec_bind_error (hfind.trans (Proc.exec_bind_error hscan))] at h
      cases h
      exact caught_scanned hr
    | ok docs =>
      rw [hr] at hscan
      rw [Store.findOne, Proc.exec_bind_ok (hfind.trans (Proc.exec_bind_ok hscan))] at h
      cases h

theorem serves_upsert [SerdeJson] {query : Query} {generatedId : String} {doc : Json} (h : Hosts db L M)
    (name : String)
    (hupdate : ∀ id, M.UpdateFits name id doc) (hinsert : InsertFits generatedId doc) :
    Serves (Collection.upsert name query generatedId doc : DbM ℓ UpsertResult)
      (Store.upsert (L.reach name) name query generatedId doc) db M := by
  unfold Collection.upsert Store.upsert
  split
  · exact Serves.fail h _
  · have hfound := (reads_findOne h name query (ℓ := ℓ)).catching fun e he => caught_findOne he
    refine Serves.bind hfound.serves (fun found db₁ L₁ _ h₁ => ?_) hfound.same.symm
    have hexisting := Queries.ofExcept (ℓ := ℓ) h₁ (Collection.orMissing found)
    refine Serves.bind hexisting.serves (fun existing db₂ L₂ _ h₂ => ?_) hexisting.same.symm
    cases existing.bind Collection.idOf with
    | some id =>
      exact Serves.bind (serves_updateById h₂ name id (hupdate id))
        (fun _ _ _ _ h₃ => Serves.pure h₃ (UpsertResult.updated id)) rfl
    | none =>
      exact Serves.bind (serves_insert h₂ name fun _ _ => hinsert.legible)
        (fun id _ _ _ h₃ => Serves.pure h₃ (UpsertResult.inserted id)) rfl

end Calls

-- All pages are in the cache together, and the log is not long enough for a checkpoint after a commit.
def Database.Settled (cacheSize autoCheckpointThreshold : Nat) (db : Database) : Prop :=
  db.pager.numPages ≤ cacheSize ∧ (autoCheckpointThreshold ≠ 0 → db.wal.frameCount < autoCheckpointThreshold)

-- The calls of the database, each in a transaction of its own.
inductive StoreCall where
  | insert (name generatedId : String) (doc : Json)
  | findById (name id : String)
  | findAll (name : String)
  | count (name : String)
  | find (name : String) (query : Query)
  | findOne (name : String) (query : Query)
  | updateById (name id : String) (updates : Json)
  | update (name : String) (query : Query) (updates : Json)
  | updateOne (name : String) (query : Query) (updates : Json)
  | deleteById (name id : String)
  | delete (name : String) (query : Query)
  | deleteOne (name : String) (query : Query)
  | upsertById (name id generatedId : String) (doc : Json)
  | upsert (name : String) (query : Query) (generatedId : String) (doc : Json)
  | search (builder : QueryBuilder)
  | aggregate (pipeline : AggregationPipeline)
  | setSchema (name : String) (schema : Schema)
  | removeSchema (name : String)

inductive Answer where
  | done
  | id (id : String)
  | doc (doc : Json)
  | found (doc : Option Json)
  | docs (docs : List Json)
  | count (count : Nat)
  | flag (flag : Bool)
  | upserted (result : UpsertResult)

namespace StoreCall

section Meaning

variable (isAlphabetic isAlphanumeric : Char → Bool) (tools : QueryTools) (floats : FloatTools)
  (sorter : Sorter Error Json)

def collection : StoreCall → String
  | insert name _ _ | findById name _ | findAll name | count name | find name _ | findOne name _
  | updateById name _ _ | update name _ _ | updateOne name _ _ | deleteById name _ | delete name _
  | deleteOne name _ | upsertById name _ _ _ | upsert name _ _ _ | setSchema name _ | removeSchema name => name
  | search builder => builder.collection
  | aggregate pipeline => pipeline.collection

def run [SerdeJson] : StoreCall → DbM ℓ Answer
  | insert name generatedId doc => do pure (.id (← Collection.insert name generatedId doc))
  | findById name id => do pure (.doc (← Collection.findById name id))
  | findAll name => do pure (.docs (← Collection.findAll name))
  | count name => do pure (.count (← Collection.count name))
  | find name query => do pure (.docs (← Collection.find name query))
  | findOne name query => do pure (.found (← Collection.findOne name query))
  | updateById name id updates => do
    Collection.updateById name id updates
    pure .done
  | update name query updates => do pure (.count (← Collection.update name query updates))
  | updateOne name query updates => do pure (.flag (← Collection.updateOne name query updates))
  | deleteById name id => do
    Collection.deleteById name id
    pure .done
  | delete name query => do pure (.count (← Collection.delete name query))
  | deleteOne name query => do pure (.flag (← Collection.deleteOne name query))
  | upsertById name id generatedId doc => do
    pure (.upserted (← Collection.upsertById name id generatedId doc))
  | upsert name query generatedId doc => do
    pure (.upserted (← Collection.upsert name query generatedId doc))
  | search builder => do pure (.docs (← QueryBuilder.execute tools sorter builder))
  | aggregate pipeline => do pure (.docs (← AggregationPipeline.execute tools floats sorter pipeline))
  | setSchema name schema => do
    JasonDb.setSchema isAlphabetic isAlphanumeric name schema
    pure .done
  | removeSchema name => do
    JasonDb.removeSchema isAlphabetic isAlphanumeric name
    pure .done

-- The same call on the store, where a scan comes to `reach` documents.
def spec (reach : Nat) : StoreCall → StoreM ℓ Answer
  | insert name generatedId doc => do pure (.id (← Store.insert name generatedId doc))
  | findById name id => do pure (.doc (← Store.findById name id))
  | findAll name => do pure (.docs (← Store.findAll reach name))
  | count name => do pure (.count (← Store.count reach name))
  | find name query => do pure (.docs (← Store.find reach name query))
  | findOne name query => do pure (.found (← Store.findOne reach name query))
  | updateById name id updates => do
    Store.updateById name id updates
    pure .done
  | update name query updates => do pure (.count (← Store.update reach name query updates))
  | updateOne name query updates => do pure (.flag (← Store.updateOne reach name query updates))
  | deleteById name id => do
    Store.deleteById name id
    pure .done
  | delete name query => do pure (.count (← Store.delete reach name query))
  | deleteOne name query => do pure (.flag (← Store.deleteOne reach name query))
  | upsertById name id generatedId doc => do
    pure (.upserted (← Store.upsertById name id generatedId doc))
  | upsert name query generatedId doc => do
    pure (.upserted (← Store.upsert reach name query generatedId doc))
  | search builder => do pure (.docs (← Store.search reach tools sorter builder))
  | aggregate pipeline => do pure (.docs (← Store.aggregate reach tools floats sorter pipeline))
  | setSchema name schema => do
    Store.setSchema isAlphabetic isAlphanumeric name schema
    pure .done
  | removeSchema name => do
    Store.removeSchema isAlphabetic isAlphanumeric name
    pure .done

-- What the call can write is read back.
def Fitting [SerdeJson] (M : Store) : StoreCall → Prop
  | insert _ generatedId doc => InsertFits generatedId doc
  | updateById name id updates => M.UpdateFits name id updates
  | update name _ updates | updateOne name _ updates => ∀ id, M.UpdateFits name id updates
  | upsertById name id generatedId doc => M.UpdateFits name id doc ∧
    ∀ fields, doc.asObject = some fields → InsertFits generatedId (.obj (Json.Map.insert "_id" (.str id) fields))
  | upsert name _ generatedId doc => (∀ id, M.UpdateFits name id doc) ∧ InsertFits generatedId doc
  | _ => True

theorem serves [SerdeJson] (h : Hosts db L M) (call : StoreCall) (hfit : call.Fitting M) :
    Serves (call.run isAlphabetic isAlphanumeric tools floats sorter : DbM ℓ Answer)
      (call.spec isAlphabetic isAlphanumeric tools floats sorter (L.reach call.collection)) db M := by
  have hthen : ∀ {α : Type} {m : DbM ℓ α} {spec : StoreM Unit α} (f : α → Answer), Serves m spec db M →
      Serves (m >>= fun a => pure (f a)) (spec >>= fun a => pure (f a)) db M :=
    fun f hm => Serves.bind hm (fun a _ _ _ h' => Serves.pure h' (f a)) rfl
  cases call with
  | insert name generatedId doc => exact hthen _ (serves_insert h name fun _ _ => InsertFits.legible hfit)
  | findById name id =>
    refine hthen _ fun l => ?_
    obtain ⟨r, db', he, hs, hshown, -⟩ := Collection.exec_findById h name id l
    exact ⟨r, db', he, Or.inr ⟨L, hs, hshown⟩⟩
  | findAll name => exact hthen _ (reads_findAll h name).serves
  | count name => exact hthen _ (reads_count h name).serves
  | find name query => exact hthen _ (reads_find h name query).serves
  | findOne name query => exact hthen _ (reads_findOne h name query).serves
  | updateById name id updates => exact hthen (fun _ => .done) (serves_updateById h name id hfit)
  | update name query updates => exact hthen _ (serves_update h name query updates hfit)
  | updateOne name query updates => exact hthen _ (serves_updateOne h name query updates hfit)
  | deleteById name id => exact hthen (fun _ => .done) (serves_deleteById h name id)
  | delete name query => exact hthen _ (serves_delete h name query)
  | deleteOne name query => exact hthen _ (serves_deleteOne h name query)
  | upsertById name id generatedId doc => exact hthen _ (serves_upsertById h name hfit.1 hfit.2)
  | upsert name query generatedId doc => exact hthen _ (serves_upsert h name hfit.1 hfit.2)
  | search builder => exact hthen _ (reads_search h tools sorter builder).serves
  | aggregate pipeline => exact hthen _ (reads_aggregate h tools floats sorter pipeline).serves
  | setSchema name schema => exact hthen (fun _ => .done) (serves_setSchema h name schema)
  | removeSchema name => exact hthen (fun _ => .done) (serves_removeSchema h name)

-- The calls one after the other, each on what the ones before it left, and what it left itself.
def runAll [SerdeJson] : List StoreCall → Database → List (Except Error Answer × Database)
  | [], _ => []
  | call :: calls, db =>
    let out := Proc.exec (call.run isAlphabetic isAlphanumeric tools floats sorter) () db
    (out.1, out.2.2) :: runAll calls out.2.2

variable (cacheSize autoCheckpointThreshold : Nat)

-- The answers are those of the store, where a scan of a collection with deleted documents ends at some
-- document. Nothing is said from a document on that is not read back, from metadata on that do not fit
-- their page, or from the call on in which a page may leave the cache or a commit start a checkpoint.
def Answered [SerdeJson] : Store → List StoreCall → List (Except Error Answer × Database) → Prop
  | _, [], [] => True
  | M, call :: calls, (r, db) :: rest =>
    call.Fitting M → db.Settled cacheSize autoCheckpointThreshold → r ≠ .error .invalidPageSize → ∃ reach,
    let out := Proc.exec (call.spec isAlphabetic isAlphanumeric tools floats sorter reach) () M
    Shown r out.1 ∧ Answered out.2.2 calls rest
  | _, _, _ => False

theorem answered [SerdeJson] (h : Hosts db L M) (calls : List StoreCall) :
    Answered isAlphabetic isAlphanumeric tools floats sorter cacheSize autoCheckpointThreshold M calls
      (runAll isAlphabetic isAlphanumeric tools floats sorter calls db) := by
  induction calls generalizing db L M with
  | nil => trivial
  | cons call calls ih =>
    rw [runAll]
    refine fun hfit _ hpage => ?_
    obtain ⟨r, db', he, hr⟩ := call.serves isAlphabetic isAlphanumeric tools floats sorter h hfit ()
    have hfirst : (Proc.exec (call.run isAlphabetic isAlphanumeric tools floats sorter) () db).1 = r := by rw [he]
    have hrest : (Proc.exec (call.run isAlphabetic isAlphanumeric tools floats sorter) () db).2.2 = db' := by rw [he]
    obtain ⟨L', hsound, hshown⟩ := hr.resolve_left (hfirst ▸ hpage)
    exact ⟨_, hfirst ▸ hshown, hrest ▸ ih hsound⟩

end Meaning

end StoreCall

section Created

theorem wf_createMetadata {p p' : Pager} (hwf : p.WF) {metadata : Metadata}
    (h : createMetadata p = .ok (metadata, p')) : p'.WF ∧ metadata = .new := by
  obtain ⟨metaPage, p₁, halloc, hpage⟩ := Pager.allocPageMinimum_spec hwf 0
  unfold createMetadata at h
  simp only [halloc] at h
  have hlen : (Page.metadata .new).byteLen = PAGE_SIZE := by decide +kernel
  have hwrite := Pager.writePageTransfer_eq hpage.wf.writable metaPage hlen
  simp only [hwrite, Pager.writeHeader, hpage.wf.writable] at h
  obtain ⟨rfl, rfl⟩ := Prod.mk.inj (Except.ok.inj h)
  refine ⟨?_, rfl⟩
  unfold Pager.flush
  split <;> exact ⟨rfl, hpage.wf.nonempty, hpage.wf.nodup, hpage.wf.range⟩

-- A file that is created now holds no documents.
theorem sound_created [SerdeJson] {wal : WAL} (hwal : wal.frames = []) (hquiet : ∀ n, wal.fault n = false)
    (h : Database.openWithOptions none wal false = .ok db) : Hosts db ⟨fun _ => none, fun _ _ => none⟩ ∅ := by
  have hopen : Pager.openFile none false = .ok (Pager.start .empty false).writeHeader.2 := rfl
  obtain ⟨hwf, -⟩ := openFile_ok hopen
  unfold Database.openWithOptions at h
  rw [hopen] at h
  simp only [hwal, List.isEmpty_nil, Bool.not_true, Bool.and_false, Bool.false_eq_true, if_false] at h
  unfold Database.load at h
  split at h
  · cases h
  case h_2 metadata pager hload =>
    obtain rfl := Except.ok.inj h
    have hcreate : createMetadata (Pager.start .empty false).writeHeader.2 = .ok (metadata, pager) := hload
    obtain ⟨hwf', rfl⟩ := wf_createMetadata hwf hcreate
    obtain ⟨-, hpage⟩ := createMetadata_ok hwf hcreate
    refine ⟨⟨hwf', hpage, hquiet, rfl⟩, ⟨hwf', ?_, ?_, ?_⟩, ?_, by simp, by simp, by simp, ?_, ?_, by simp⟩
    · rintro (_ | _ | _) (_ | _ | _) p <;> simp [DbLayout.region]
    · rintro (_ | _ | _) p hp
      · obtain rfl := hp
        exact hpage
      · exact hp.elim
      · exact hp.elim
    · rintro (_ | _ | _) <;> trivial
    · intro name
      rfl
    · intro name
      rfl
    · intro name id
      rfl

variable {isAlphabetic isAlphanumeric : Char → Bool} {tools : QueryTools} {floats : FloatTools}
  {sorter : Sorter Error Json}

-- Counts in place of numbers.
def countFloats : FloatTools :=
  ⟨Nat, fun _ => 0, id, 0, (· + ·), (· / ·), fun a b => some (compare a b), fun n => .num (.int n)⟩

def stableSorter : Sorter Error Json := ⟨fun cmp docs => .ok (sortBy cmp docs), fun _ _ _ => rfl⟩

def sampleCalls : List StoreCall :=
  [.insert "c" "a" (.obj [("x", .bool true)]), .insert "c" "b" (.obj []), .insert "c" "a" (.obj []),
    .updateById "c" "a" (.obj [("x", .bool false)]), .count "c", .deleteById "c" "a", .findById "c" "a"]

attribute [local instance] SerdeJson.exact

end Created

end JasonDb
