import JasonDb.Collection.Grants
import JasonDb.Database.Open
import JasonDb.Pager.Holds
import JasonDb.Session.Requests

namespace JasonDb

open Lib

-- The collection has this schema.
def Database.Enforces (db : Database) (name : String) (schema : Schema) : Prop :=
  (db.metadata.collections.get? name).bind CollectionMeta.schema = some schema

def TxCollection.Buffers (c : TxCollection) (d : DocPage) : Prop :=
  (∃ p, c.tx.writes.get? p = some (.doc d)) ∨ (∃ p, c.btree.txWrites.get? p = some (.doc d)) ∨
    ∃ name t p, c.indexes.get? name = some t ∧ t.txWrites.get? p = some (.doc d)

-- A document version among the writes of a transaction, whichever handle they are in.
def Party.Buffers (d : DocPage) : Party → Prop
  | .idle tx => ∃ p, tx.writes.get? p = some (.doc d)
  | .busy c => c.Buffers d

-- Every document version there is, in the database or waiting for a commit.
def Session.Holds (s : Session) (d : DocPage) : Prop :=
  s.db.pager.Holds d ∨ ∃ party ∈ s.parties, party.Buffers d

-- The collection a request may store documents in.
def Request.target (s : Session) : Request → Option String
  | .collection name _ => some name
  | .event (.call i _) => match s.parties[i]? with
    | some (.busy c) => some c.name
    | _ => none
  | .event _ => none

section Conditions

variable (V : Json → Prop)

-- The document with the id it is stored under.
def Accepts (generatedId : String) (doc : Json) : Prop :=
  ∀ id fields, Collection.docIdOf generatedId doc = .ok (id, fields) → V (.obj fields)

def HasId (doc : Json) : Prop := ∃ fields, doc = .obj fields ∧ (Json.Map.get fields "_id").isSome

-- A call that leaves nothing to a check that the code does not make.
def Collection.Call.Meets : Collection.Call → Prop
  | .insert generatedId doc => HasId doc ∨ Accepts V generatedId doc
  | .upsert _ generatedId doc => HasId doc ∨ Accepts V generatedId doc
  | .insertMany _ docs => ∀ entry ∈ docs, Accepts V entry.1 entry.2
  | .bulkWrite _ _ operations =>
    ∀ generatedId doc, .insert generatedId doc ∈ operations → Accepts V generatedId doc
  | _ => True

-- The same for a call on a handle of an explicit transaction, which makes no check at all.
def Call.Meets [SerdeJson] (c : TxCollection) (db : Database) : Call → Prop
  | .insert generatedId doc => Accepts V generatedId doc
  | .updateById id updates => ∀ page doc c' db' fields updates',
    Proc.exec (TxCollection.readVisible id) c db = (.ok (page, doc), c', db') →
    TxCollection.parseMap doc = .ok fields → updates.asObject = some updates' →
    V (.obj (TxCollection.applyUpdates id fields updates'))
  | _ => True

end Conditions

def Valid (schema : Schema) (data : Json) : Prop := schema.validate data = .ok ()

-- What a request must be like for the documents it stores in the collection to fit the schema,
-- and for the collection to keep it.
def Request.Meets [SerdeJson] (name : String) (schema : Schema) (s : Session) : Request → Prop
  | .collection other call => other = name → call.Meets (Valid schema)
  | .event (.call i op) => ∀ c, s.parties[i]? = some (.busy c) → c.name = name →
    op.Meets (Valid schema) c s.db
  | .event (.dropCollection _ other) => other ≠ name
  | .event (.renameCollection _ oldName newName) => oldName ≠ name ∧ newName ≠ name
  | .event _ => True

def Session.Meets [SerdeJson] (name : String) (schema : Schema) : Session → List Request → Prop
  | _, [] => True
  | s, request :: rest => request.Meets name schema s ∧ (s.serve request).Meets name schema rest

-- Whatever document a request adds fits the schema, or is in another collection.
def Session.Conforms [SerdeJson] (name : String) (schema : Schema) : Session → List Request → Prop
  | _, [] => True
  | s, request :: rest =>
    (∀ d, (s.serve request).Holds d → s.Holds d ∨
      (∃ other, request.target s = some other ∧ other ≠ name) ∨ Valid schema d.data) ∧
    (s.serve request).Conforms name schema rest

namespace Conform

variable {ℓ : Type} {name : String} {schema : Schema} {A : DocPage → Prop}

-- Kept by every action of the calls.
def Keeps (name : String) (schema : Schema) (A : DocPage → Prop) (db : Database) : Prop :=
  db.Enforces name schema ∧ ∀ d, db.pager.Holds d → A d

def Allowed (A : DocPage → Prop) (page : Page) : Prop := ∀ d, page = .doc d → A d

theorem enforces_modify {db : Database} (h : db.Enforces name schema) (other : String)
    {f : CollectionMeta → CollectionMeta} (hf : ∀ coll, (f coll).schema = coll.schema) :
    Database.Enforces { db with metadata := db.metadata.modifyCollection other f } name schema := by
  unfold Database.Enforces at h ⊢
  simp only [Metadata.modifyCollection, HashMap.get?_insert]
  split
  case isTrue heq =>
    subst heq
    cases hget : db.metadata.collections.get? name with
    | none =>
      rw [hget] at h
      cases h
    | some coll =>
      rw [hget] at h
      exact (hf coll).trans h
  case isFalse => exact h

theorem robust_keeps : Robust (Keeps name schema A) where
  wal _ _ h := h
  txManager _ _ h := h
  txIdCounter _ _ h := h
  versionChains _ _ h := h
  root _ other _ h := ⟨enforces_modify h.1 other fun _ => rfl, h.2⟩
  free _ _ h := ⟨h.1, fun d hd => h.2 d (Pager.holds_free hd)⟩
  header _ h := ⟨h.1, fun d hd => h.2 d (Pager.holds_writeHeader hd)⟩
  headerNoSync _ h := ⟨h.1, fun d hd => h.2 d (Pager.holds_writeHeaderNoSync hd)⟩
  flush _ h := ⟨h.1, fun d hd => h.2 d (Pager.holds_flush hd)⟩
  flushNoSync _ h := ⟨h.1, fun d hd => h.2 d (Pager.holds_flushNoSync hd)⟩
  sync _ h := ⟨h.1, fun d hd => h.2 d (Pager.holds_syncDataOnly hd)⟩
  metadataPage _ _ h := h
  nextTxId _ _ h := h

theorem grants_keeps : Grants (Keeps name schema A) (fun _ => True) (Allowed A) where
  alloc _ _ h := ⟨⟨h.1, fun d hd => h.2 d (Pager.holds_alloc hd)⟩, fun _ _ => trivial⟩
  write _ _ _ h _ hpage :=
    ⟨h.1, fun d hd => (Pager.holds_write hd).elim (h.2 d) (hpage d)⟩

theorem allowed_node (n : BTreeNode) : Allowed A (.node n) := by
  rintro d ⟨⟩

theorem allowed_overflow (part : OverflowPage) : Allowed A (.overflow part) := by
  rintro d ⟨⟩

theorem allowed_metadata (m : Metadata) : Allowed A (.metadata m) := by
  rintro d ⟨⟩

-- A call on a collection adds documents with data of `V` only, given that the schema of that
-- collection lets no other through.
theorem admits_keeps {V : Json → Prop} {other : String}
    (hdoc : ∀ d : DocPage, V d.data → A d)
    (hcheck : ∀ (db : Database) (data : Json), db.Enforces name schema →
      Collection.Passes db.metadata other data → V data) :
    Collection.Admits (Keeps name schema A) (Allowed A) other V where
  grants := grants_keeps
  robust := robust_keeps
  node := allowed_node
  overflow := allowed_overflow
  metadata := allowed_metadata
  doc _ _ _ _ hdata := by
    rintro d ⟨⟩
    exact hdoc _ hdata
  check db data h := hcheck db data h.1

section Collection

variable {J : Database → Prop} {W : Page → Prop} {V : Json → Prop} {I : ℓ → Prop}

theorem safe_discard {α : Type} {Q : α → Prop} {m : DbM ℓ α} (h : Proc.Safe J I Q m) :
    Proc.Safe J I (fun _ => True) (Collection.discard m) :=
  h.bind fun _ _ => Proc.safe_pure trivial

-- The check is made on the document as it was given, which is the one stored if it has an id.
theorem accepted_of_meets {generatedId : String} {doc : Json}
    (h : HasId doc ∨ Accepts V generatedId doc) (fields : Json.Map) (id : String)
    (fields' : Json.Map) (hobj : doc.asObject = some fields)
    (hid : Collection.docIdOf generatedId doc = .ok (id, fields')) (hdata : V (.obj fields)) :
    V (.obj fields') := by
  rcases h with ⟨own, rfl, hown⟩ | haccept
  · obtain rfl : own = fields := Option.some.inj hobj
    rw [Collection.docIdOf_own hown hid]
    exact hdata
  · exact haccept id fields' hid

theorem safe_collectionCall [SerdeJson] {other : String} (ha : Collection.Admits J W other V)
    {call : Collection.Call} (hcall : call.Meets V) :
    Proc.Safe J I (fun _ => True) (call.run other : DbM ℓ Unit) := by
  cases call with
  | insert generatedId doc => exact safe_discard (Collection.safe_insert ha (accepted_of_meets hcall))
  | findById id => exact safe_discard (Collection.safe_findById ha.robust.unattached other id)
  | findAll => exact safe_discard (Collection.safe_findAll ha.robust.unattached other)
  | find query => exact safe_discard (Collection.safe_find ha.robust.unattached other query)
  | updateById id updates => exact Collection.safe_updateById ha id updates
  | update query updates => exact safe_discard (Collection.safe_update ha query updates)
  | updateOne query updates => exact safe_discard (Collection.safe_updateOne ha query updates)
  | deleteById id => exact Collection.safe_deleteById ha other id
  | delete query => exact safe_discard (Collection.safe_delete ha other query)
  | deleteOne query => exact safe_discard (Collection.safe_deleteOne ha other query)
  | upsertById id generatedId doc => exact safe_discard (Collection.safe_upsertById ha)
  | upsert query generatedId doc =>
    exact safe_discard (Collection.safe_upsert ha (accepted_of_meets hcall))
  | insertMany limit docs => exact safe_discard (Collection.safe_insertMany ha limit hcall)
  | bulkWrite limit ordered operations =>
    exact safe_discard (Collection.safe_bulkWrite ha limit ordered hcall)

end Collection

section Parties

-- All documents of the session are of `A`, and the collection has its schema.
structure Bounded (name : String) (schema : Schema) (A : DocPage → Prop) (s : Session) : Prop where
  db : Keeps name schema A s.db
  parties : ∀ party ∈ s.parties, ∀ d, party.Buffers d → A d

variable {s : Session}

theorem pagesIn_allowed {pages : HashMap PageNum Page}
    (h : ∀ p d, pages.get? p = some (.doc d) → A d) : PagesIn (fun _ => True) (Allowed A) pages := by
  rintro p page hp
  refine ⟨trivial, ?_⟩
  rintro d rfl
  exact h p d hp

theorem writes_of_buffers {tx : Transaction} (h : ∀ d, (Party.idle tx).Buffers d → A d) :
    tx.Writes (Allowed A) :=
  pagesIn_allowed fun p d hp => h d ⟨p, hp⟩

theorem buffers_of_writes {tx : Transaction} (h : tx.Writes (Allowed A)) (d : DocPage)
    (hd : (Party.idle tx).Buffers d) : A d := by
  obtain ⟨p, hp⟩ := hd
  exact (h p _ hp).2 d rfl

theorem within_of_buffers {c : TxCollection} (h : ∀ d, (Party.busy c).Buffers d → A d) :
    TxCollection.Within (fun _ => True) (Allowed A) c.tx.mvccTxId c where
  btree := ⟨fun _ _ => trivial, fun _ _ _ => trivial,
    pagesIn_allowed fun p d hp => h d (Or.inr (Or.inl ⟨p, hp⟩))⟩
  indexes other t ht := ⟨fun _ _ => trivial, fun _ _ _ => trivial,
    pagesIn_allowed fun p d hp => h d (Or.inr (Or.inr ⟨other, t, p, ht, hp⟩))⟩
  writes := pagesIn_allowed fun p d hp => h d (Or.inl ⟨p, hp⟩)
  id := rfl

theorem buffers_of_within {c : TxCollection} {txId : TransactionID}
    (h : TxCollection.Within (fun _ => True) (Allowed A) txId c) (d : DocPage)
    (hd : (Party.busy c).Buffers d) : A d := by
  rcases hd with ⟨p, hp⟩ | ⟨p, hp⟩ | ⟨other, t, p, ht, hp⟩
  · exact (h.writes p _ hp).2 d rfl
  · exact (h.btree.writes p _ hp).2 d rfl
  · exact ((h.indexes other t ht).writes p _ hp).2 d rfl

theorem Bounded.party {i : Nat} {party : Party} (h : Bounded name schema A s)
    (hi : s.parties[i]? = some party) (d : DocPage) (hd : party.Buffers d) : A d :=
  h.parties party (List.mem_of_getElem? hi) d hd

theorem Bounded.put {i : Nat} {party : Party} {db : Database} (h : Bounded name schema A s)
    (hdb : Keeps name schema A db) (hparty : ∀ d, party.Buffers d → A d) :
    Bounded name schema A (s.put i (party, db)) := by
  refine ⟨hdb, ?_⟩
  intro other hother
  rcases List.mem_or_eq_of_mem_set hother with hmem | rfl
  · exact h.parties other hmem
  · exact hparty

-- An update of an explicit transaction replaces the version that it sees.
theorem keeps_updateById [SerdeJson] {c c' : TxCollection} {db db' : Database} {r : Except Error Unit}
    {id : String} {updates : Json} {V : Json → Prop} (hV : ∀ d : DocPage, V d.data → A d)
    (hmeets : (Call.updateById id updates).Meets V c db)
    (hc : TxCollection.Within (fun _ => True) (Allowed A) c.tx.mvccTxId c)
    (hdb : Keeps name schema A db)
    (he : Proc.exec (TxCollection.updateById id updates) c db = (r, c', db')) :
    Keeps name schema A db' ∧
      TxCollection.Within (fun _ => True) (Allowed A) c.tx.mvccTxId c' := by
  rw [TxCollection.updateById_eq, Proc.exec_bind_ok (Proc.exec_getLocal _ _)] at he
  split at he
  · obtain ⟨-, rfl, rfl⟩ : _ ∧ c = c' ∧ db = db' := by simpa [Proc.exec_fail] using he
    exact ⟨hdb, hc⟩
  case h_2 updates' hupdates =>
    split at he
    · obtain ⟨-, rfl, rfl⟩ : _ ∧ c = c' ∧ db = db' := by simpa [Proc.exec_fail] using he
      exact ⟨hdb, hc⟩
    · have hread : Proc.Safe (Keeps name schema A) (TxCollection.Within (fun _ => True) (Allowed A)
        c.tx.mvccTxId) (fun _ => True) (TxCollection.readVisible id) := TxCollection.safe_readVisible id
      rcases Proc.exec_bind_cases he with ⟨e, hrun, rfl⟩ | ⟨⟨p, doc⟩, c₁, db₁, hrun, he⟩
      · obtain ⟨hdb', hc', -⟩ := hread.exec hrun hc hdb
        exact ⟨hdb', hc'⟩
      · obtain ⟨hdb₁, hc₁, -⟩ := hread.exec hrun hc hdb
        have hseen : Proc.Safe (Keeps name schema A) (TxCollection.Within (fun _ => True) (Allowed A)
            c.tx.mvccTxId) (fun _ => True) (TxCollection.updateSeen c id updates' (p, doc)) := by
          refine TxCollection.safe_updateSeen grants_keeps allowed_node allowed_overflow rfl p ?_
          rintro fields overflow hparse d ⟨⟩
          exact hV _ (hmeets p doc c₁ db₁ fields updates' hrun hparse hupdates)
        obtain ⟨hdb', hc', -⟩ := hseen.exec he hc₁ hdb₁
        exact ⟨hdb', hc'⟩

theorem keeps_call [SerdeJson] {c c' : TxCollection} {db db' : Database} {r : Except Error Unit}
    {op : Call} {V : Json → Prop} (hV : ∀ d : DocPage, V d.data → A d)
    (hmeets : op.Meets V c db)
    (hc : TxCollection.Within (fun _ => True) (Allowed A) c.tx.mvccTxId c)
    (hdb : Keeps name schema A db) (he : Proc.exec op.run c db = (r, c', db')) :
    Keeps name schema A db' ∧
      TxCollection.Within (fun _ => True) (Allowed A) c.tx.mvccTxId c' := by
  cases op with
  | insert generatedId doc =>
    have hinsert : Proc.Safe (Keeps name schema A) (TxCollection.Within (fun _ => True) (Allowed A)
        c.tx.mvccTxId) (fun _ => True) (TxCollection.insert generatedId doc) := by
      refine TxCollection.safe_insert grants_keeps allowed_node allowed_overflow ?_
      rintro fields docId fields' hobj hid overflow d ⟨⟩
      refine hV _ (hmeets docId fields' ?_)
      simp only [Collection.docIdOf, hobj, hid]
    obtain ⟨hdb', hc', -⟩ := (safe_discard hinsert).exec he hc hdb
    exact ⟨hdb', hc'⟩
  | findById id =>
    obtain ⟨hdb', hc', -⟩ := (safe_discard (TxCollection.safe_findById id)).exec he hc hdb
    exact ⟨hdb', hc'⟩
  | updateById id updates => exact keeps_updateById hV hmeets hc hdb he
  | deleteById id =>
    obtain ⟨hdb', hc', -⟩ :=
      (TxCollection.safe_deleteById grants_keeps allowed_node id).exec he hc hdb
    exact ⟨hdb', hc'⟩

theorem Bounded.onHandle [SerdeJson] {i : Nat} {op : Call} (h : Bounded name schema A s)
    (hop : ∀ c, s.parties[i]? = some (.busy c) →
      ∃ V : Json → Prop, (∀ d : DocPage, V d.data → A d) ∧ op.Meets V c s.db) :
    Bounded name schema A (s.onHandle i op.run) := by
  unfold Session.onHandle
  split
  case h_1 c hi =>
    obtain ⟨V, hV, hmeets⟩ := hop c hi
    rcases he : Proc.exec op.run c s.db with ⟨r, c', db'⟩
    obtain ⟨hdb', hc'⟩ := keeps_call hV hmeets (within_of_buffers (h.party hi)) h.db he
    exact h.put hdb' (buffers_of_within hc')
  case h_2 => exact h

theorem Bounded.onIdle {i : Nat} {m : Transaction.TxM Unit} (h : Bounded name schema A s)
    (hm : Proc.Safe (Keeps name schema A) (Transaction.Writes (Allowed A)) (fun _ => True) m) :
    Bounded name schema A (s.onIdle i m) := by
  unfold Session.onIdle
  split
  case h_1 tx hi =>
    rcases he : Proc.exec m tx s.db with ⟨r, tx', db'⟩
    obtain ⟨hdb', htx', -⟩ := hm.exec he (writes_of_buffers (h.party hi)) h.db
    exact h.put hdb' (buffers_of_writes htx')
  case h_2 => exact h

theorem Bounded.openHandle (h : Bounded name schema A s) (i : Nat) (other : String) :
    Bounded name schema A (s.openHandle i other) := by
  unfold Session.openHandle
  split
  case h_1 tx hi =>
    have htx : tx.Writes (Allowed A) := writes_of_buffers (h.party hi)
    have hnew : Proc.Safe (Keeps name schema A) (fun _ : Unit => True)
        (TxCollection.Within (fun _ => True) (Allowed A) tx.mvccTxId) (TxCollection.new tx other) :=
      TxCollection.safe_new grants_keeps allowed_node other htx rfl
    split
    case h_1 c _ db' he =>
      obtain ⟨hdb', -, hc⟩ := hnew.exec he trivial h.db
      exact h.put hdb' (buffers_of_within (hc c rfl))
    case h_2 e _ db' he => exact h.put (hnew.exec he trivial h.db).1 (h.party hi)
  case h_2 => exact h

theorem Bounded.releaseHandle (h : Bounded name schema A s) (i : Nat) :
    Bounded name schema A (s.releaseHandle i) := by
  unfold Session.releaseHandle
  split
  case h_1 c hi =>
    refine h.put h.db ?_
    rintro d ⟨p, hp⟩
    exact h.party hi d (Or.inl ⟨p, hp⟩)
  case h_2 => exact h

theorem Bounded.beginTx (h : Bounded name schema A s) : Bounded name schema A s.beginTx := by
  have hbegin : Proc.Safe (Keeps name schema A) (fun _ : Unit => True)
      (Transaction.Writes (Allowed A)) begin := safe_begin robust_keeps
  unfold Session.beginTx
  split
  case h_1 tx _ db' he =>
    obtain ⟨hdb', -, htx⟩ := hbegin.exec he trivial h.db
    refine ⟨hdb', ?_⟩
    intro party hparty
    rcases List.mem_append.mp hparty with hmem | hmem
    · exact h.parties party hmem
    · obtain rfl := List.mem_singleton.mp hmem
      exact buffers_of_writes (htx tx rfl)
  case h_2 e _ db' he => exact ⟨(hbegin.exec he trivial h.db).1, h.parties⟩

theorem buffers_markCommitted {party : Party} {d : DocPage}
    (h : (Session.markCommitted party).Buffers d) : party.Buffers d := by
  cases party with
  | idle tx =>
    simp only [Session.markCommitted] at h
    split at h <;> exact h
  | busy c => exact h

theorem Bounded.commitBatch (h : Bounded name schema A s) (members : List Nat) :
    Bounded name schema A (s.commitBatch members).2 := by
  have hbatch : ∀ pending ∈ s.batch members, PagesIn (fun _ => True) (Allowed A) pending.writes := by
    intro pending hmem
    obtain ⟨i, -, hpending⟩ := List.mem_filterMap.mp hmem
    obtain ⟨tx, hqueued, rfl⟩ := Option.map_eq_some_iff.mp hpending
    obtain ⟨party, hi, hparty⟩ := Option.bind_eq_some_iff.mp hqueued
    cases party with
    | busy c => cases hparty
    | idle tx' =>
      simp only [Session.queued, Option.ite_none_right_eq_some, Option.some.injEq] at hparty
      obtain ⟨-, rfl⟩ := hparty
      exact writes_of_buffers (h.party hi)
  have hcommit : Proc.Safe (Keeps name schema A) (fun _ : Unit => True) (fun _ => True)
      (Commit.executeBatchCommit (s.leader members) (s.batch members)) :=
    safe_executeBatchCommit grants_keeps robust_keeps allowed_metadata allowed_node _ hbatch
  unfold Session.commitBatch
  split
  case h_1 _ db' he =>
    refine ⟨(hcommit.exec he trivial h.db).1, ?_⟩
    intro party hparty
    obtain ⟨i, hi, rfl⟩ := List.mem_mapIdx.mp hparty
    have hold := h.parties s.parties[i] (List.getElem_mem hi)
    intro d hd
    split at hd
    · exact hold d (buffers_markCommitted hd)
    · exact hold d hd
  case h_2 e _ db' he => exact ⟨(hcommit.exec he trivial h.db).1, h.parties⟩

theorem safe_metadata {W : Page → Prop} {f : Metadata → Metadata}
    (hf : ∀ db : Database, db.Enforces name schema →
      Database.Enforces { db with metadata := f db.metadata } name schema) :
    Proc.Safe (Keeps name schema A) (Transaction.Writes W) (fun _ => True)
      (updateMetadataNoFlush f) :=
  Proc.safe_atomic fun db h => ⟨⟨hf db h.1, h.2⟩, trivial⟩

theorem safe_createCollection {W : Page → Prop} (other : String) :
    Proc.Safe (Keeps name schema A) (Transaction.Writes W) (fun _ => True)
      (Transaction.createCollection other) := by
  refine Proc.safe_getLocal.bind fun tx _ => ?_
  split
  · exact Proc.safe_fail _
  · refine safe_getMetadata.bind fun metadata _ => ?_
    split
    · exact Proc.safe_fail _
    · exact safe_metadata fun db h => enforces_modify h other fun _ => rfl

theorem safe_dropCollection {W : Page → Prop} {other : String} (hne : other ≠ name) :
    Proc.Safe (Keeps name schema A) (Transaction.Writes W) (fun _ => True)
      (Transaction.dropCollection other) := by
  refine Proc.safe_getLocal.bind fun tx _ => ?_
  split
  · exact Proc.safe_fail _
  · refine safe_getMetadata.bind fun metadata _ => ?_
    split
    · exact Proc.safe_fail _
    · refine Proc.Safe.bind (safe_metadata ?_) fun _ _ => Proc.safe_atomic fun _ h => ⟨h, trivial⟩
      intro db h
      unfold Database.Enforces at h ⊢
      simp only [Metadata.remove]
      rwa [HashMap.get?_erase, if_neg hne.symm]

theorem safe_renameCollection {W : Page → Prop} {oldName newName : String} (hold : oldName ≠ name)
    (hnew : newName ≠ name) :
    Proc.Safe (Keeps name schema A) (Transaction.Writes W) (fun _ => True)
      (Transaction.renameCollection oldName newName) := by
  refine Proc.safe_getLocal.bind fun tx _ => ?_
  split
  · exact Proc.safe_fail _
  · refine safe_getMetadata.bind fun metadata _ => ?_
    split
    · exact Proc.safe_fail _
    · split
      · exact Proc.safe_fail _
      · refine Proc.Safe.bind (safe_metadata ?_) fun _ _ => Proc.safe_atomic fun _ h => ⟨h, trivial⟩
        intro db h
        unfold Database.Enforces at h ⊢
        simp only [Metadata.rename]
        split
        · simp only
          rwa [HashMap.get?_insert_of_ne _ _ hnew.symm, HashMap.get?_erase, if_neg hold.symm]
        · exact h

-- One step of the explicit transactions.
theorem Bounded.step [SerdeJson] {e : Event} (h : Bounded name schema A s)
    (hmeets : (Request.event e).Meets name schema s)
    (hcall : ∀ i op c, e = .call i op → s.parties[i]? = some (.busy c) →
      ∃ V : Json → Prop, (∀ d : DocPage, V d.data → A d) ∧ op.Meets V c s.db) :
    Bounded name schema A (s.step e) := by
  cases e with
  | begin => exact h.beginTx
  | collection i other => exact h.openHandle i other
  | call i op => exact h.onHandle fun c hc => hcall i op c rfl hc
  | release i => exact h.releaseHandle i
  | createCollection i other => exact h.onIdle (safe_createCollection other)
  | dropCollection i other => exact h.onIdle (safe_dropCollection hmeets)
  | renameCollection i oldName newName =>
    exact h.onIdle (safe_renameCollection hmeets.1 hmeets.2)
  | commit members =>
    simp only [Session.step]
    split
    · exact h
    · exact h.commitBatch members
  | commitEmpty i =>
    simp only [Session.step]
    split
    · split
      · exact h.onIdle (safe_commitEmpty robust_keeps)
      · exact h
    · exact h
  | rollback i =>
    refine h.onIdle (Proc.safe_getLocal.bind fun tx _ => ?_)
    split
    · exact Proc.safe_fail _
    · exact safe_abandon.bind fun _ _ => robust_keeps.unattached.safe_abort _
  | dropTransaction i => exact h.onIdle (safe_dropTransaction robust_keeps)

end Parties

section Requests

variable {s : Session}

-- One request: what it adds fits the schema if it goes to the collection.
theorem serve_conforms [SerdeJson] {request : Request} (h : s.db.Enforces name schema)
    (hmeets : request.Meets name schema s) :
    (s.serve request).db.Enforces name schema ∧
      ∀ d, (s.serve request).Holds d → s.Holds d ∨
        (∃ other, request.target s = some other ∧ other ≠ name) ∨ Valid schema d.data := by
  -- the documents a request may leave behind
  let A : DocPage → Prop := fun d => s.Holds d ∨
    (∃ other, request.target s = some other ∧ other ≠ name) ∨ Valid schema d.data
  suffices hbounded : Bounded name schema A (s.serve request) by
    refine ⟨hbounded.db.1, ?_⟩
    rintro d (hd | ⟨party, hparty, hd⟩)
    · exact hbounded.db.2 d hd
    · exact hbounded.parties party hparty d hd
  have hstart : Bounded name schema A s :=
    ⟨⟨h, fun d hd => Or.inl (Or.inl hd)⟩, fun party hparty d hd =>
      Or.inl (Or.inr ⟨party, hparty, hd⟩)⟩
  have hvalid : ∀ d : DocPage, Valid schema d.data → A d := fun d hd => Or.inr (Or.inr hd)
  cases request with
  | event e =>
    refine hstart.step hmeets ?_
    rintro i op c rfl hi
    by_cases hname : c.name = name
    · exact ⟨Valid schema, hvalid, hmeets c hi hname⟩
    · refine ⟨fun _ => True, fun d _ => Or.inr (Or.inl ⟨c.name, ?_, hname⟩), ?_⟩
      · simp only [Request.target, hi]
      · cases op with
        | insert generatedId doc => exact fun _ _ _ => trivial
        | findById id => trivial
        | updateById id updates => exact fun _ _ _ _ _ _ _ _ _ => trivial
        | deleteById id => trivial
  | collection other call =>
    have hcall : ∃ V : Json → Prop, (∀ d : DocPage, V d.data → A d) ∧ call.Meets V ∧
        ∀ (db : Database) (data : Json), db.Enforces name schema →
          Collection.Passes db.metadata other data → V data := by
      by_cases hname : other = name
      · refine ⟨Valid schema, hvalid, hmeets hname, ?_⟩
        intro db data hdb hpass
        subst hname
        exact hpass schema hdb
      · refine ⟨fun _ => True, fun d _ => Or.inr (Or.inl ⟨other, rfl, hname⟩), ?_, fun _ _ _ _ => trivial⟩
        cases call <;> simp [Collection.Call.Meets, Accepts]
    obtain ⟨V, hV, hcall, hcheck⟩ := hcall
    rcases he : Proc.exec (call.run other : DbM Unit Unit) () s.db with ⟨r, l, db'⟩
    have hsafe : Proc.Safe (Keeps name schema A) (fun _ : Unit => True) (fun _ => True)
      (call.run other) := safe_collectionCall (admits_keeps hV hcheck) hcall
    refine ⟨?_, hstart.parties⟩
    simp only [Session.serve, he]
    exact (hsafe.exec he trivial hstart.db).1

theorem conforms_of_meets [SerdeJson] {requests : List Request} (h : s.db.Enforces name schema)
    (hmeets : s.Meets name schema requests) : s.Conforms name schema requests := by
  induction requests generalizing s with
  | nil => trivial
  | cons request rest ih =>
    obtain ⟨hdb, hdocs⟩ := serve_conforms h hmeets.1
    exact ⟨hdocs, ih hdb hmeets.2⟩

variable {isAlphabetic isAlphanumeric : Char → Bool}

theorem enforces_withSchema (db : Database) (name : String) (schema : Schema) :
    Database.Enforces { db with metadata := withSchema name schema db.metadata } name schema := by
  simp [Database.Enforces, withSchema, Metadata.modifyCollection]

theorem keeps_setSchema {db db' : Database} {l l' : ℓ} (hdb : ∀ d, db.pager.Holds d → A d)
    (he : Proc.exec (setSchema isAlphabetic isAlphanumeric name schema) l db = (.ok (), l', db')) :
    Keeps name schema A db' := by
  have hcheck : ∀ (r : Except Error Unit), Proc.Safe (fun db : Database => ∀ d, db.pager.Holds d → A d)
      (fun _ : ℓ => True) (fun _ => True) (Proc.ofExcept r) :=
    fun _ => Proc.safe_ofExcept fun _ _ => trivial
  unfold setSchema at he
  rcases Proc.exec_bind_cases he with ⟨e, -, hr⟩ | ⟨_, l₁, db₁, hrun, he⟩
  · cases hr
  have hdb₁ := ((hcheck _).exec hrun trivial hdb).1
  rw [isReadOnly, Proc.exec_bind_ok (Proc.exec_atomic _ _ _)] at he
  split at he
  · rw [Proc.exec_fail] at he
    cases he
  · rw [updateMetadataNoFlush, Proc.exec_bind_ok (Proc.exec_atomic _ _ _)] at he
    have hstore : Proc.Safe (Keeps name schema A) (fun _ : ℓ => True) (fun _ => True)
        (do updateMetadata id; flush) :=
      (safe_updateMetadata grants_keeps robust_keeps allowed_metadata fun _ h => h).bind fun _ _ =>
        Proc.safe_atomic fun db h => ⟨robust_keeps.flush db h, trivial⟩
    exact (hstore.exec he trivial ⟨enforces_withSchema _ _ _, hdb₁⟩).1

-- After a schema was set, requests that meet its condition store no other documents in the
-- collection.
theorem stored_documents_conform [SerdeJson] {db : Database} {requests : List Request}
    (hset : Proc.exec (setSchema isAlphabetic isAlphanumeric name schema) () s.db = (.ok (), (), db))
    (hmeets : Session.Meets name schema ⟨db, s.parties⟩ requests) :
    Session.Conforms name schema ⟨db, s.parties⟩ requests :=
  conforms_of_meets (keeps_setSchema (A := fun _ => True) (fun _ _ => trivial) hset).1 hmeets

end Requests

section Samples

theorem holds_createMetadata {p p' : Pager} {m : Metadata} {d : DocPage}
    (h : createMetadata p = .ok (m, p')) (hd : p'.Holds d) : p.Holds d := by
  unfold createMetadata at h
  split at h
  · cases h
  case h_2 metaPage p₁ halloc =>
    split at h
    · cases h
    case h_2 p₂ hwrite =>
      split at h
      · cases h
      case h_2 p₃ hheader =>
        obtain ⟨-, rfl⟩ := Prod.mk.inj (Except.ok.inj h)
        have hp₁ : (p.allocPageMinimum 0).2 = p₁ := congrArg Prod.snd halloc
        have hp₂ : (p₁.writePageTransfer metaPage (.metadata .new)).2 = p₂ := congrArg Prod.snd hwrite
        have hp₃ : (Pager.writeHeader { p₂ with metadataPage := metaPage }).2 = p₃ :=
          congrArg Prod.snd hheader
        have h₃ : (Pager.writeHeader { p₂ with metadataPage := metaPage }).2.Holds d :=
          hp₃ ▸ Pager.holds_flush hd
        have h₂ : Pager.Holds { p₂ with metadataPage := metaPage } d := Pager.holds_writeHeader h₃
        have hwritten : p₂.Holds d := h₂
        rcases Pager.holds_write (hp₂ ▸ hwritten) with h₁ | hpage
        · exact Pager.holds_alloc (hp₁ ▸ h₁)
        · cases hpage

-- A new database holds no document.
theorem not_holds_new {db : Database} (h : Database.openWithOptions none .empty false = .ok db)
    (d : DocPage) : ¬ db.pager.Holds d := by
  intro hd
  change Database.load (Pager.start .empty false).writeHeader.2 .empty false = .ok db at h
  unfold Database.load at h
  split at h
  · cases h
  case h_2 metadata pager hload =>
    obtain rfl := Except.ok.inj h
    change createMetadata (Pager.start .empty false).writeHeader.2 = .ok (metadata, pager) at hload
    rcases Pager.holds_writeHeader (holds_createMetadata hload hd) with ⟨q, hq⟩ | ⟨q, hq⟩
    · cases hq
    · cases hq

def nameRequired : Schema := .mk none (some ["name"]) none none none none none none none

def ascii (c : Char) : Bool := c.isAlpha

-- The version in a cached page.
def docAt (db : Database) (p : PageNum) : Option DocPage :=
  match db.pager.cache p with
  | some (.doc d) => some d
  | _ => none

theorem holds_of_docAt {db : Database} {p : PageNum} {d : DocPage} (h : docAt db p = some d) :
    db.pager.Holds d := by
  unfold docAt at h
  split at h
  case h_1 d' hd =>
    obtain rfl := Option.some.inj h
    exact Or.inl ⟨p, hd⟩
  case h_2 => cases h

def setName (db : Database) : Except Error Unit × Unit × Database :=
  Proc.exec (setSchema ascii ascii "c" nameRequired) () db

-- What fits the sample schema has a name.
theorem not_valid_nameRequired : ¬ Valid nameRequired (.obj [("_id", .str "x")]) := by
  intro h
  cases h

theorem setName_eq {db : Database} (h : (setName db).1.isOk) :
    Proc.exec (setSchema ascii ascii "c" nameRequired) () db = (.ok (), (), (setName db).2.2) := by
  rcases hrun : setName db with ⟨r, l, db'⟩
  rw [hrun] at h
  cases r with
  | ok u => exact hrun
  | error e => cases h

theorem not_conforms [SerdeJson] {s : Session} {name : String} {schema : Schema} {call : Collection.Call}
    {d : DocPage} (hd : (Proc.exec (call.run name : DbM Unit Unit) () s.db).2.2.pager.Holds d)
    (hold : ¬ s.Holds d) (hinvalid : ¬ Valid schema d.data) :
    ¬ s.Conforms name schema [.collection name call] := by
  rintro ⟨hconform, -⟩
  rcases hconform d (Or.inl hd) with h | ⟨other, htarget, hne⟩ | hvalid
  · exact hold h
  · exact hne (Option.some.inj htarget).symm
  · exact hinvalid hvalid

def insertOne (fields : Json.Map) : Collection.Call := .insertMany 100000 [("", .obj fields)]

attribute [local instance] SerdeJson.exact

-- Inserts of all kinds and an update, also in a transaction, and one on another collection.
def manyPaths : List Request :=
  [.collection "c" (insertOne [("_id", .str "x"), ("name", .str "n")]),
    .collection "c" (.insert "g" (.obj [("name", .str "n")])),
    .collection "c" (.updateById "x" (.obj [("name", .str "m")])),
    .event .begin, .event (.collection 0 "c"),
    .event (.call 0 (.insert "h" (.obj [("_id", .str "z"), ("name", .str "q")]))),
    .event (.release 0), .event (.commit [0]),
    .collection "d" (insertOne [("_id", .str "y")])]

theorem meets_manyPaths (s : Session) : s.Meets "c" nameRequired manyPaths := by
  refine ⟨?_, ?_, fun _ => trivial, trivial, trivial, ?_, trivial, trivial, ?_, trivial⟩
  · rintro - entry hentry id fields hid
    obtain rfl := List.mem_singleton.mp hentry
    obtain ⟨-, rfl⟩ := Prod.mk.inj (Except.ok.inj hid)
    rfl
  · rintro -
    refine Or.inr fun id fields hid => ?_
    obtain ⟨-, rfl⟩ := Prod.mk.inj (Except.ok.inj hid)
    rfl
  · rintro c - - id fields hid
    obtain ⟨-, rfl⟩ := Prod.mk.inj (Except.ok.inj hid)
    rfl
  · exact fun hname => absurd hname (by decide)

theorem stored_documents_conform_paths : ∃ db,
    Database.openWithOptions none .empty false = .ok db ∧
    Proc.exec (setSchema ascii ascii "c" nameRequired) () db = (.ok (), (), (setName db).2.2) ∧
    (Proc.exec (Collection.findAll "c" : DbM Unit (List Json)) ()
      (manyPaths.foldl Session.serve ⟨(setName db).2.2, []⟩).db).1.map List.length = .ok 3 ∧
    Session.Conforms "c" nameRequired ⟨(setName db).2.2, []⟩ manyPaths := by
  have hrun : ∃ db, Database.openWithOptions none .empty false = .ok db ∧
      (setName db).1.isOk ∧
      (Proc.exec (Collection.findAll "c" : DbM Unit (List Json)) ()
        (manyPaths.foldl Session.serve ⟨(setName db).2.2, []⟩).db).1.map List.length = .ok 3 := by
    decide +kernel
  obtain ⟨db, hopen, hset, hfound⟩ := hrun
  exact ⟨db, hopen, setName_eq hset, hfound,
    stored_documents_conform (s := ⟨db, []⟩) (setName_eq hset) (meets_manyPaths _)⟩

-- `insert_many` stores what the schema forbids.
theorem insertMany_unchecked : ∃ db,
    Database.openWithOptions none .empty false = .ok db ∧
    Proc.exec (setSchema ascii ascii "c" nameRequired) () db = (.ok (), (), (setName db).2.2) ∧
    (Proc.exec ((insertOne [("_id", .str "x")]).run "c") () (setName db).2.2).1.isOk ∧
    ¬ Session.Conforms "c" nameRequired ⟨(setName db).2.2, []⟩
      [.collection "c" (insertOne [("_id", .str "x")])] := by
  have hrun : ∃ db, Database.openWithOptions none .empty false = .ok db ∧
      (setName db).1.isOk ∧
      (Proc.exec ((insertOne [("_id", .str "x")]).run "c") () (setName db).2.2).1.isOk ∧
      docAt (Proc.exec ((insertOne [("_id", .str "x")]).run "c") () (setName db).2.2).2.2 3 =
        some ⟨1, 0, "x", .obj [("_id", .str "x")], 0⟩ := by
    decide +kernel
  obtain ⟨db, hopen, hset, hinsert, hdoc⟩ := hrun
  refine ⟨db, hopen, setName_eq hset, hinsert, ?_⟩
  refine not_conforms (holds_of_docAt hdoc) ?_ not_valid_nameRequired
  rintro (hold | ⟨party, hparty, -⟩)
  · exact (keeps_setSchema (fun d hd => not_holds_new hopen d hd) (setName_eq hset)).2 _ hold
  · cases hparty

end Samples

end Conform

end JasonDb
