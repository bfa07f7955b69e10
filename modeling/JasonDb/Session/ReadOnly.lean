import JasonDb.Collection.Frozen
import JasonDb.Session.Metadata
import JasonDb.Session.Requests

namespace JasonDb

open Lib

-- A call that only reads: what it returns is computed from pages and metadata.
inductive Reading where
  | done (result : Except Error Unit)
  | page (p : PageNum) (next : Except Error Page → Reading)
  | metadata (next : Metadata → Reading)

def Reading.run {ℓ : Type} : Reading → DbM ℓ Unit
  | .done result => Proc.ofExcept result
  | .page p next => do
    let r ← Proc.attempt (readPage p)
    (next r).run
  | .metadata next => do
    let metadata ← getMetadata
    (next metadata).run

-- The public calls. `read` stands for those on the database that only read, `query` for those on
-- a collection, which do so in a transaction of their own, and `inspect` for those in an
-- explicit transaction.
inductive ApiCall where
  | catalog (call : CatalogCall)
  | updateMetadata (f : Metadata → Metadata)
  | checkpoint
  | garbageCollect
  | backup
  | close
  | read (body : Reading)
  | collection (name : String) (call : Collection.Call)
  | query (body : Reading)
  | event (e : Event)
  | writePage (i : Nat) (p : PageNum) (page : Page)
  | writeDocument (i : Nat) (collection id : String) (p : PageNum)
  | inspect (i : Nat) (body : Party → Reading)

namespace Transaction

def writePage (p : PageNum) (page : Page) : TxM Unit := do
  let tx ← Proc.getLocal
  if !tx.isActive then Proc.fail .txNotActive
  else Proc.modifyLocal fun tx => { tx with writes := tx.writes.insert p page }

def recordDocument (collection id : String) (p : PageNum) : TxM Unit := do
  let tx ← Proc.getLocal
  if !tx.isActive then Proc.fail .txNotActive
  else Proc.modifyLocal fun tx => tx.writeDocument collection id (some p)

end Transaction

namespace Session

variable (u : Unicode) (s : Session)

def answerIdle (i : Nat) (m : Transaction.TxM Unit) : Except Error Unit :=
  match s.parties[i]? with
  | some (.idle tx) => (Proc.exec m tx s.db).1
  | _ => .ok ()

-- What an event returns to the client.
def answer [SerdeJson] : Event → Except Error Unit
  | .begin => (Proc.exec begin () s.db).1.map fun _ => ()
  | .collection i name => match s.parties[i]? with
    | some (.idle tx) => (Proc.exec (TxCollection.new tx name) () s.db).1.map fun _ => ()
    | _ => .ok ()
  | .call i op => match s.parties[i]? with
    | some (.busy c) => (Proc.exec op.run c s.db).1
    | _ => .ok ()
  | .release _ => .ok ()
  | .createCollection i name => s.answerIdle i (Transaction.createCollection name)
  | .dropCollection i name => s.answerIdle i (Transaction.dropCollection name)
  | .renameCollection i oldName newName =>
    s.answerIdle i (Transaction.renameCollection oldName newName)
  | .commit members => if (s.batch members).isEmpty then .ok () else (s.commitBatch members).1
  | .commitEmpty i => match s.parties[i]? with
    | some p => if p.tx.writes.isEmpty then s.answerIdle i Transaction.commitEmpty else .ok ()
    | none => .ok ()
  | .rollback i => s.answerIdle i Transaction.rollback
  | .dropTransaction i => s.answerIdle i Transaction.dropTransaction

def request [SerdeJson] : ApiCall → Except Error Unit × Session
  | .catalog call => s.onDatabase (call.run u)
  | .updateMetadata f => s.onDatabase (JasonDb.updateMetadata f)
  | .checkpoint => s.onDatabase JasonDb.checkpoint
  | .garbageCollect => s.onDatabase (Collection.discard JasonDb.garbageCollect)
  | .backup => s.onDatabase JasonDb.backup
  | .close => s.onDatabase JasonDb.close
  | .read body => s.onDatabase body.run
  | .collection name call => s.onDatabase (call.run name)
  | .query body => s.onDatabase (Collection.inTransaction body.run)
  | .event e => (s.answer e, s.step e)
  | .writePage i p page =>
    (s.answerIdle i (Transaction.writePage p page), s.onIdle i (Transaction.writePage p page))
  | .writeDocument i collection id p =>
    (s.answerIdle i (Transaction.recordDocument collection id p),
      s.onIdle i (Transaction.recordDocument collection id p))
  | .inspect i body => match s.parties[i]? with
    | some p => s.onDatabase (body p).run
    | none => (.ok (), s)

-- The condition holds of each call in the session it finds.
def Throughout [SerdeJson] (P : Session → ApiCall → Prop) : Session → List ApiCall → Prop
  | _, [] => True
  | s, call :: rest => P s call ∧ Throughout P (s.request u call).2 rest

-- The session as if the database had been opened to be written.
def writable : Session := ⟨s.db.writable, s.parties⟩

-- Readers see `O` after the call, and it fails if it would change that on a database that may be
-- written.
structure Unchanged [SerdeJson] (O : Observed) (call : ApiCall) : Prop where
  same : (s.request u call).2.db.observed = O
  refused : (s.writable.request u call).2.db.observed ≠ O → ∃ e, (s.request u call).1 = .error e

-- A transaction that still accepts calls.
def Active (i : Nat) : Prop := ∃ tx, s.parties[i]? = some (.idle tx) ∧ tx.isActive

instance (i : Nat) : Decidable (s.Active i) :=
  match h : s.parties[i]? with
  | some (.idle tx) => decidable_of_iff (tx.isActive = true) (by simp [Active, h])
  | some (.busy _) => isFalse (by simp [Active, h])
  | none => isFalse (by simp [Active, h])

-- No collection is created, dropped or renamed: such a call fails one of its own checks.
def KeepsCollections : ApiCall → Prop
  | .event (.createCollection i name) => s.Active i → name ∈ s.db.metadata.collections
  | .event (.dropCollection i name) => s.Active i → name ∉ s.db.metadata.collections
  | .event (.renameCollection i oldName newName) => s.Active i →
    newName ∈ s.db.metadata.collections ∨ oldName ∉ s.db.metadata.collections
  | _ => True

instance : DecidablePred s.KeepsCollections
  | .event (.createCollection i name) =>
    inferInstanceAs (Decidable (s.Active i → name ∈ s.db.metadata.collections))
  | .event (.dropCollection i name) =>
    inferInstanceAs (Decidable (s.Active i → name ∉ s.db.metadata.collections))
  | .event (.renameCollection i oldName newName) =>
    inferInstanceAs (Decidable (s.Active i →
      newName ∈ s.db.metadata.collections ∨ oldName ∉ s.db.metadata.collections))
  | .event .begin | .event (.collection ..) | .event (.call ..) | .event (.release _)
  | .event (.commit _) | .event (.commitEmpty _) | .event (.rollback _)
  | .event (.dropTransaction _) | .catalog _ | .updateMetadata _ | .checkpoint | .garbageCollect
  | .backup | .close | .read _ | .collection .. | .query _ | .writePage .. | .writeDocument ..
  | .inspect .. => isTrue trivial

instance decidableThroughout [SerdeJson] {P : Session → ApiCall → Prop} [∀ s call, Decidable (P s call)] :
    ∀ (s : Session) (calls : List ApiCall), Decidable (Throughout u P s calls)
  | _, [] => isTrue trivial
  | s, call :: rest =>
    have := decidableThroughout (P := P) (s.request u call).2 rest
    inferInstanceAs (Decidable (P s call ∧ Throughout u P (s.request u call).2 rest))

end Session

section Harmless

variable {ℓ α β : Type} {O : Observed} {I : ℓ → Prop}

-- On a frozen database the computation changes nothing, and if it succeeds it would not have
-- changed anything on the writable one either.
structure Harmless (O : Observed) (I : ℓ → Prop) (m : DbM ℓ α) : Prop where
  frozen : Proc.Safe (Database.Frozen O) I (fun _ => True) m
  twin : ∀ l db a l' db', I l → db.Frozen O → Proc.exec m l db = (.ok a, l', db') →
    (Proc.exec m l db.writable).2.2.observed = O

theorem Refused.harmless {m : DbM ℓ α} (h : Refused O I m) : Harmless O I m := by
  refine ⟨h.safe, fun l db a l' db' hl hdb he => ?_⟩
  obtain ⟨-, -, hnever⟩ := h.exec he hl hdb
  exact (hnever a rfl).elim

theorem harmless_of_mirrors {m : DbM ℓ α}
    (h : Proc.Safe (Database.Frozen O) I (fun _ => True) m)
    (hm : Proc.Mirrors Database.writable (Database.Frozen O) m) : Harmless O I m := by
  refine ⟨h, fun l db a l' db' hl hdb he => ?_⟩
  rw [hm l db a l' db' hdb he]
  exact (h.exec he hl hdb).1.shows.observed

-- A computation that changes nothing on either.
theorem harmless_of_safe {m : DbM ℓ α}
    (h : ∀ J, Unattached J → Proc.Safe J I (fun _ => True) m) : Harmless O I m := by
  refine ⟨h _ unattached_frozen, fun l db a l' db' hl hdb he => ?_⟩
  rcases htwin : Proc.exec m l db.writable with ⟨r, l₁, db₁⟩
  exact ((h _ unattached_shows).exec htwin hl hdb.writable).1.observed

theorem Harmless.discard {m : DbM ℓ α} (h : Harmless O I m) :
    Harmless O I (Collection.discard m) := by
  refine ⟨h.frozen.bind fun _ _ => Proc.safe_pure trivial, fun l db a l' db' hl hdb he => ?_⟩
  rcases Proc.exec_bind_cases he with ⟨e, -, hr⟩ | ⟨b, l₁, db₁, hfirst, -⟩
  · cases hr
  · have htwin := h.twin l db b l₁ db₁ hl hdb hfirst
    rcases hm : Proc.exec m l db.writable with ⟨r, l₂, db₂⟩
    rw [hm] at htwin
    cases r with
    | ok b' =>
      rw [Collection.discard, Proc.exec_bind_ok hm]
      exact htwin
    | error e =>
      rw [Collection.discard, Proc.exec_bind_error hm]
      exact htwin

theorem safe_reading {J : Database → Prop} (body : Reading) :
    Proc.Safe J I (fun _ => True) (body.run : DbM ℓ Unit) := by
  induction body with
  | done result => exact Proc.safe_ofExcept fun _ _ => trivial
  | page p next ih => exact (safe_readPage p).attempt.bind fun r _ => ih r
  | metadata next ih => exact safe_getMetadata.bind fun metadata _ => ih metadata

theorem harmless_collectionCall [SerdeJson] (name : String) (call : Collection.Call) :
    Harmless O (fun _ => True) (call.run name : DbM ℓ Unit) := by
  have hfind : ∀ query, Proc.Safe (Database.Frozen O) (fun _ : ℓ => True) (fun _ => True)
      (Collection.find name query) := Collection.safe_find unattached_frozen name
  have hfindOne : ∀ query, Proc.Safe (Database.Frozen O) (fun _ : ℓ => True) (fun _ => True)
      (Collection.findOne name query) := Collection.safe_findOne unattached_frozen name
  cases call with
  | insert generatedId doc => exact (Collection.refused_insert _ _).harmless.discard
  | findById id => exact (harmless_of_safe fun _ hJ => Collection.safe_findById hJ name id).discard
  | findAll => exact (harmless_of_safe fun _ hJ => Collection.safe_findAll hJ name).discard
  | find query => exact (harmless_of_safe fun _ hJ => Collection.safe_find hJ name query).discard
  | updateById id updates => exact (Collection.refused_updateById _ _).harmless
  | update query updates =>
    refine (harmless_of_mirrors ?_ (Collection.mirrors_update query updates)).discard
    unfold Collection.update
    split
    · exact Proc.safe_fail _
    · exact (hfind query).bind fun docs _ => Collection.safe_forDocs
        (fun id => (Collection.refused_updateById id updates).safe) docs
  | updateOne query updates =>
    refine (harmless_of_mirrors ?_ (Collection.mirrors_updateOne query updates)).discard
    refine (hfindOne query).bind fun doc _ => ?_
    split
    · exact ((Collection.refused_updateById _ _).bind _).safe
    · exact Proc.safe_pure trivial
  | deleteById id => exact (Collection.refused_deleteById _).harmless
  | delete query =>
    refine (harmless_of_mirrors ?_ (Collection.mirrors_delete query)).discard
    exact (hfind query).bind fun docs _ => Collection.safe_forDocs
      (fun id => (Collection.refused_deleteById id).safe) docs
  | deleteOne query =>
    refine (harmless_of_mirrors ?_ (Collection.mirrors_deleteOne query)).discard
    refine (hfindOne query).bind fun doc _ => ?_
    split
    · exact ((Collection.refused_deleteById _).bind _).safe
    · exact Proc.safe_pure trivial
  | upsertById id generatedId doc => exact (Collection.refused_upsertById _ _ _).harmless.discard
  | upsert query generatedId doc => exact (Collection.refused_upsert _ _ _).harmless.discard
  | insertMany maxBulkOperations docs =>
    by_cases hdocs : docs = []
    · subst hdocs
      exact (harmless_of_safe fun _ _ => Proc.safe_pure trivial).discard
    · exact (Collection.refused_insertMany _ hdocs).harmless.discard
  | bulkWrite maxBulkOperations ordered operations =>
    by_cases hoperations : operations = []
    · subst hoperations
      exact (harmless_of_safe fun _ _ => Proc.safe_pure trivial).discard
    · exact (Collection.refused_bulkWrite _ _ hoperations).harmless.discard

end Harmless

section Parties

variable {s : Session} {i : Nat}

-- A call on a transaction that is not there, or whose handle is open or not, changes nothing.
theorem Session.onIdle_self {m : Transaction.TxM Unit}
    (hi : ¬ ∃ tx, s.parties[i]? = some (.idle tx)) : s.onIdle i m = s := by
  unfold Session.onIdle
  split
  case h_1 tx htx => exact absurd ⟨tx, htx⟩ hi
  case h_2 => rfl

theorem Session.openHandle_self {name : String} (hi : ¬ ∃ tx, s.parties[i]? = some (.idle tx)) :
    s.openHandle i name = s := by
  unfold Session.openHandle
  split
  case h_1 tx htx => exact absurd ⟨tx, htx⟩ hi
  case h_2 => rfl

theorem Session.onHandle_self {m : TxCollection.M Unit}
    (hi : ¬ ∃ c, s.parties[i]? = some (.busy c)) : s.onHandle i m = s := by
  unfold Session.onHandle
  split
  case h_1 c hc => exact absurd ⟨c, hc⟩ hi
  case h_2 => rfl

theorem Session.releaseHandle_self (hi : ¬ ∃ c, s.parties[i]? = some (.busy c)) :
    s.releaseHandle i = s := by
  unfold Session.releaseHandle
  split
  case h_1 c hc => exact absurd ⟨c, hc⟩ hi
  case h_2 => rfl

end Parties

section Sessions

variable {O : Observed} {u : Unicode} {s : Session}

def Party.Fresh : Party → Prop
  | .idle tx => tx.modifiedCollections = ∅
  | .busy c => c.Fresh

-- The database is as it was opened, and no transaction has changed a collection.
structure Session.Frozen (O : Observed) (s : Session) : Prop where
  db : s.db.Frozen O
  parties : ∀ p ∈ s.parties, p.Fresh

theorem Session.Frozen.twin (h : s.Frozen O) : s.writable.db.observed = O := h.db.writable.observed

theorem Session.Frozen.put (h : s.Frozen O) (i : Nat) {p : Party} {db : Database}
    (hdb : db.Frozen O) (hp : p.Fresh) : (s.put i (p, db)).Frozen O := by
  refine ⟨hdb, ?_⟩
  intro q hq
  rcases List.mem_or_eq_of_mem_set hq with hq | rfl
  · exact h.parties q hq
  · exact hp

theorem unchanged_of [SerdeJson] {call : ApiCall} (hspec : (s.request u call).2.Frozen O ∧
      ((s.request u call).1 = .ok () → (s.writable.request u call).2.db.observed = O)) :
    (s.request u call).2.Frozen O ∧ s.Unchanged u O call := by
  obtain ⟨h, htwin⟩ := hspec
  refine ⟨h, ⟨h.db.shows.observed, fun hne => ?_⟩⟩
  cases hr : (s.request u call).1 with
  | ok a => exact absurd (htwin hr) hne
  | error e => exact ⟨e, rfl⟩

theorem frozen_onDatabase (h : s.Frozen O) {m : DbM Unit Unit} (hm : Harmless O (fun _ => True) m) :
    (s.onDatabase m).2.Frozen O ∧
      ((s.onDatabase m).1 = .ok () → (s.writable.onDatabase m).2.db.observed = O) := by
  rcases he : Proc.exec m () s.db with ⟨r, l, db⟩
  rw [Session.onDatabase_eq he]
  refine ⟨⟨(hm.frozen.exec he trivial h.db).1, h.parties⟩, fun hr => ?_⟩
  obtain rfl : r = .ok () := hr
  exact hm.twin () s.db () l db trivial h.db he

theorem frozen_onIdle (h : s.Frozen O) (i : Nat) {m : Transaction.TxM Unit}
    (hm : Harmless O (fun tx => tx.modifiedCollections = ∅) m) :
    (s.onIdle i m).Frozen O ∧
      (s.answerIdle i m = .ok () → (s.writable.onIdle i m).db.observed = O) := by
  have htwin : s.writable.parties[i]? = s.parties[i]? := rfl
  by_cases hi : ∃ tx, s.parties[i]? = some (.idle tx)
  · obtain ⟨tx, hi⟩ := hi
    have htx : tx.modifiedCollections = ∅ := h.parties _ (List.mem_of_getElem? hi)
    rcases he : Proc.exec m tx s.db with ⟨r, tx', db⟩
    obtain ⟨hdb, htx', -⟩ := hm.frozen.exec he htx h.db
    simp only [Session.onIdle, Session.answerIdle, htwin, hi, he]
    refine ⟨h.put i hdb htx', ?_⟩
    rintro rfl
    exact hm.twin tx s.db () tx' db htx h.db he
  · rw [Session.onIdle_self hi, Session.onIdle_self (htwin ▸ hi)]
    exact ⟨h, fun _ => h.twin⟩

-- A handle that is opened, used and released.
theorem frozen_openHandle [SerdeJson] (h : s.Frozen O) (i : Nat) (name : String) :
    (s.openHandle i name).Frozen O ∧ (s.answer (.collection i name) = .ok () →
      (s.writable.openHandle i name).db.observed = O) := by
  have htwin : s.writable.parties[i]? = s.parties[i]? := rfl
  by_cases hi : ∃ tx, s.parties[i]? = some (.idle tx)
  · obtain ⟨tx, hi⟩ := hi
    have htx : tx.modifiedCollections = ∅ := h.parties _ (List.mem_of_getElem? hi)
    have hnew : Proc.Safe (Database.Frozen O) (fun _ : Unit => True) TxCollection.Fresh
        (TxCollection.new tx name) := TxCollection.safe_new_frozen htx name
    rcases he : Proc.exec (TxCollection.new tx name) () s.db with ⟨r, l, db⟩
    obtain ⟨hdb, -, hc⟩ := hnew.exec he trivial h.db
    cases r with
    | ok c =>
      have hmirror : Proc.exec (TxCollection.new tx name) () s.writable.db = (.ok c, l, db.writable) :=
        TxCollection.mirrors_new tx name () s.db c l db h.db he
      simp only [Session.openHandle, htwin, hi, he, hmirror]
      exact ⟨h.put i hdb (hc c rfl), fun _ => hdb.shows.observed⟩
    | error e =>
      simp only [Session.openHandle, Session.answer, hi, he]
      exact ⟨h.put i hdb htx, by simp [Except.map]⟩
  · rw [Session.openHandle_self hi, Session.openHandle_self (htwin ▸ hi)]
    exact ⟨h, fun _ => h.twin⟩

theorem harmless_call [SerdeJson] (op : Call) : Harmless O TxCollection.Fresh op.run := by
  cases op with
  | insert generatedId doc => exact (TxCollection.refused_insert _ _).harmless.discard
  | findById id =>
    exact (harmless_of_safe fun _ _ => TxCollection.safe_findById_fresh id).discard
  | updateById id updates => exact (TxCollection.refused_updateById _ _).harmless
  | deleteById id => exact (TxCollection.refused_deleteById _).harmless

theorem frozen_onHandle [SerdeJson] (h : s.Frozen O) (i : Nat) (op : Call) :
    (s.onHandle i op.run).Frozen O ∧ (s.answer (.call i op) = .ok () →
      (s.writable.onHandle i op.run).db.observed = O) := by
  have htwin : s.writable.parties[i]? = s.parties[i]? := rfl
  by_cases hi : ∃ c, s.parties[i]? = some (.busy c)
  · obtain ⟨c, hi⟩ := hi
    have hc : c.Fresh := h.parties _ (List.mem_of_getElem? hi)
    rcases he : Proc.exec op.run c s.db with ⟨r, c', db⟩
    obtain ⟨hdb, hc', -⟩ := (harmless_call op).frozen.exec he hc h.db
    simp only [Session.onHandle, Session.answer, htwin, hi, he]
    refine ⟨h.put i hdb hc', ?_⟩
    rintro rfl
    exact (harmless_call op).twin c s.db () c' db hc h.db he
  · rw [Session.onHandle_self hi, Session.onHandle_self (htwin ▸ hi)]
    exact ⟨h, fun _ => h.twin⟩

theorem frozen_releaseHandle (h : s.Frozen O) (i : Nat) :
    (s.releaseHandle i).Frozen O ∧ (s.writable.releaseHandle i).db.observed = O := by
  have htwin : s.writable.parties[i]? = s.parties[i]? := rfl
  by_cases hi : ∃ c, s.parties[i]? = some (.busy c)
  · obtain ⟨c, hi⟩ := hi
    have hc : c.Fresh := h.parties _ (List.mem_of_getElem? hi)
    simp only [Session.releaseHandle, htwin, hi]
    exact ⟨h.put i h.db hc.modified, h.twin⟩
  · rw [Session.releaseHandle_self hi, Session.releaseHandle_self (htwin ▸ hi)]
    exact ⟨h, h.twin⟩

theorem frozen_beginTx (h : s.Frozen O) :
    s.beginTx.Frozen O ∧ s.writable.beginTx.db.observed = O := by
  have hbegin : ∀ J, Unattached J → Proc.Safe J (fun _ : Unit => True) Transaction.Blank begin :=
    fun _ hJ => hJ.safe_begin
  constructor
  · obtain ⟨tx, he, -⟩ := begin_eq s.db
    obtain ⟨hdb, -, htx⟩ := (hbegin _ unattached_frozen).exec he trivial h.db
    rw [Session.beginTx, he]
    refine ⟨hdb, ?_⟩
    intro p hp
    rcases List.mem_append.mp hp with hp | hp
    · exact h.parties p hp
    · obtain rfl := List.mem_singleton.mp hp
      exact (htx tx rfl).modified
  · obtain ⟨tx, he, -⟩ := begin_eq s.writable.db
    obtain ⟨hdb, -, -⟩ := (hbegin _ unattached_shows).exec he trivial h.db.writable
    rw [Session.beginTx, he]
    exact hdb.observed

theorem frozen_commitBatch (h : s.Frozen O) (members : List Nat) :
    (s.commitBatch members).2.Frozen O ∧ (s.commitBatch members).1 ≠ .ok () := by
  have hbatch : ∀ pending ∈ s.batch members, pending.modifiedCollections = ∅ := by
    intro pending hmem
    obtain ⟨tx, htx, rfl⟩ := Session.mem_batch hmem
    exact h.parties _ htx
  have hrefused : Refused O (fun _ : Unit => True)
      (Commit.executeBatchCommit (s.leader members) (s.batch members)) :=
    Commit.refused_executeBatchCommit _ hbatch
  rcases he : Proc.exec (Commit.executeBatchCommit (s.leader members) (s.batch members)) () s.db
    with ⟨r, l, db⟩
  obtain ⟨hdb, -, hnever⟩ := hrefused.exec he trivial h.db
  cases r with
  | ok a => exact (hnever a rfl).elim
  | error e =>
    rw [Session.commitBatch, he]
    exact ⟨⟨hdb, h.parties⟩, by simp⟩

theorem exec_createCollection_error {tx : Transaction} {db : Database} {name : String}
    (h : tx.isActive → name ∈ db.metadata.collections) :
    ∃ e, Proc.exec (Transaction.createCollection name) tx db = (.error e, tx, db) := by
  rw [Transaction.createCollection, Proc.exec_bind_ok (Proc.exec_getLocal _ _)]
  by_cases hactive : tx.isActive
  · rw [if_neg (by simp [hactive]), getMetadata, Proc.exec_bind_ok (Proc.exec_atomic _ _ _),
      if_pos (h hactive)]
    exact ⟨_, rfl⟩
  · rw [if_pos (by simpa using hactive)]
    exact ⟨_, rfl⟩

theorem exec_dropCollection_error {tx : Transaction} {db : Database} {name : String}
    (h : tx.isActive → name ∉ db.metadata.collections) :
    ∃ e, Proc.exec (Transaction.dropCollection name) tx db = (.error e, tx, db) := by
  rw [Transaction.dropCollection, Proc.exec_bind_ok (Proc.exec_getLocal _ _)]
  by_cases hactive : tx.isActive
  · rw [if_neg (by simp [hactive]), getMetadata, Proc.exec_bind_ok (Proc.exec_atomic _ _ _),
      if_pos (h hactive)]
    exact ⟨_, rfl⟩
  · rw [if_pos (by simpa using hactive)]
    exact ⟨_, rfl⟩

theorem exec_renameCollection_error {tx : Transaction} {db : Database} {oldName newName : String}
    (h : tx.isActive → newName ∈ db.metadata.collections ∨ oldName ∉ db.metadata.collections) :
    ∃ e, Proc.exec (Transaction.renameCollection oldName newName) tx db = (.error e, tx, db) := by
  rw [Transaction.renameCollection, Proc.exec_bind_ok (Proc.exec_getLocal _ _)]
  by_cases hactive : tx.isActive
  · rw [if_neg (by simp [hactive]), getMetadata, Proc.exec_bind_ok (Proc.exec_atomic _ _ _)]
    by_cases hnew : newName ∈ db.metadata.collections
    · rw [if_pos hnew]
      exact ⟨_, rfl⟩
    · have hold : oldName ∉ db.metadata.collections := (h hactive).resolve_left hnew
      rw [if_neg hnew, if_pos hold]
      exact ⟨_, rfl⟩
  · rw [if_pos (by simpa using hactive)]
    exact ⟨_, rfl⟩

-- A call that fails at its checks.
theorem frozen_onIdle_error (h : s.Frozen O) (i : Nat) {m : Transaction.TxM Unit}
    (hm : ∀ tx, s.parties[i]? = some (.idle tx) → ∃ e, Proc.exec m tx s.db = (.error e, tx, s.db)) :
    (s.onIdle i m).Frozen O ∧
      (s.answerIdle i m = .ok () → (s.writable.onIdle i m).db.observed = O) := by
  have htwin : s.writable.parties[i]? = s.parties[i]? := rfl
  by_cases hi : ∃ tx, s.parties[i]? = some (.idle tx)
  · obtain ⟨tx, hi⟩ := hi
    obtain ⟨e, he⟩ := hm tx hi
    have htx : tx.modifiedCollections = ∅ := h.parties _ (List.mem_of_getElem? hi)
    simp only [Session.onIdle, Session.answerIdle, hi, he]
    exact ⟨h.put i h.db htx, by simp⟩
  · rw [Session.onIdle_self hi, Session.onIdle_self (htwin ▸ hi)]
    exact ⟨h, fun _ => h.twin⟩

theorem frozen_event [SerdeJson] (h : s.Frozen O) {e : Event} (hkeeps : s.KeepsCollections (.event e)) :
    (s.step e).Frozen O ∧ (s.answer e = .ok () → (s.writable.step e).db.observed = O) := by
  cases e with
  | begin => exact ⟨(frozen_beginTx h).1, fun _ => (frozen_beginTx h).2⟩
  | collection i name => exact frozen_openHandle h i name
  | call i op => exact frozen_onHandle h i op
  | release i => exact ⟨(frozen_releaseHandle h i).1, fun _ => (frozen_releaseHandle h i).2⟩
  | createCollection i name =>
    exact frozen_onIdle_error h i fun tx hi => exec_createCollection_error fun ha => hkeeps ⟨tx, hi, ha⟩
  | dropCollection i name =>
    exact frozen_onIdle_error h i fun tx hi => exec_dropCollection_error fun ha => hkeeps ⟨tx, hi, ha⟩
  | renameCollection i oldName newName =>
    exact frozen_onIdle_error h i fun tx hi => exec_renameCollection_error fun ha => hkeeps ⟨tx, hi, ha⟩
  | commit members =>
    have hbatch : s.writable.batch members = s.batch members := rfl
    simp only [Session.step, Session.answer, hbatch]
    split
    · exact ⟨h, fun _ => h.twin⟩
    · exact ⟨(frozen_commitBatch h members).1, fun hr => absurd hr (frozen_commitBatch h members).2⟩
  | commitEmpty i =>
    have hempty := frozen_onIdle h i (m := Transaction.commitEmpty) (harmless_of_safe fun _ hJ =>
      hJ.safe_commitEmpty fun _ htx => htx)
    have htwin : s.writable.parties[i]? = s.parties[i]? := rfl
    cases hp : s.parties[i]? with
    | none =>
      simp only [Session.step, Session.answer, htwin, hp]
      exact ⟨h, fun _ => h.twin⟩
    | some p =>
      simp only [Session.step, Session.answer, htwin, hp]
      by_cases hwrites : p.tx.writes.isEmpty
      · rw [if_pos hwrites, if_pos hwrites, if_pos hwrites]
        exact hempty
      · rw [if_neg hwrites, if_neg hwrites, if_neg hwrites]
        exact ⟨h, fun _ => h.twin⟩
  | rollback i =>
    refine frozen_onIdle h i (harmless_of_safe fun _ hJ => ?_)
    refine Proc.safe_getLocal.bind fun tx _ => ?_
    split
    · exact Proc.safe_fail _
    · exact Proc.Safe.bind (Proc.safe_modifyLocal fun _ htx => htx) fun _ _ => hJ.safe_abort _
  | dropTransaction i =>
    exact frozen_onIdle h i (harmless_of_safe fun _ hJ => hJ.safe_dropTransaction fun _ htx => htx)

-- One call: the session stays frozen, and the call does what it is to do.
theorem request_spec [SerdeJson] (h : s.Frozen O) {call : ApiCall} (hkeeps : s.KeepsCollections call) :
    (s.request u call).2.Frozen O ∧ s.Unchanged u O call := by
  have hkept : ∀ {f : Transaction → Transaction},
      (∀ tx, (f tx).modifiedCollections = tx.modifiedCollections) →
      Harmless O (fun tx => tx.modifiedCollections = ∅) (do
        let tx ← Proc.getLocal
        if !tx.isActive then Proc.fail .txNotActive else Proc.modifyLocal f) := by
    intro f hf
    refine harmless_of_safe fun _ _ => Proc.safe_getLocal.bind fun tx _ => ?_
    split
    · exact Proc.safe_fail _
    · exact Proc.safe_modifyLocal fun tx htx => (hf tx).trans htx
  have hclose : Harmless O (fun _ : Unit => True) close := by
    refine ⟨frozen_close, fun l db a l' db' _ hdb _ => ?_⟩
    rcases htwin : Proc.exec close l db.writable with ⟨r, l₁, db₁⟩
    exact (shows_close.exec htwin (I := fun _ => True) trivial hdb.writable).1.observed
  apply unchanged_of
  cases call with
  | catalog call => exact frozen_onDatabase h (refused_catalogCall u call).harmless
  | updateMetadata f => exact frozen_onDatabase h (refused_updateMetadata f).harmless
  | checkpoint => exact frozen_onDatabase h refused_checkpoint.harmless
  | garbageCollect => exact frozen_onDatabase h refused_garbageCollect.harmless.discard
  | backup => exact frozen_onDatabase h refused_backup.harmless
  | close => exact frozen_onDatabase h hclose
  | read body => exact frozen_onDatabase h (harmless_of_safe fun _ _ => safe_reading body)
  | collection name call => exact frozen_onDatabase h (harmless_collectionCall name call)
  | query body =>
    exact frozen_onDatabase h
      (harmless_of_safe fun _ hJ => Collection.safe_inTransaction_any hJ (safe_reading body))
  | event e => exact frozen_event h hkeeps
  | writePage i p page => exact frozen_onIdle h i (hkept fun _ => rfl)
  | writeDocument i collection id p => exact frozen_onIdle h i (hkept fun _ => rfl)
  | inspect i body =>
    have htwin : s.writable.parties[i]? = s.parties[i]? := rfl
    cases hp : s.parties[i]? with
    | none =>
      simp only [Session.request, htwin, hp]
      exact ⟨h, fun _ => h.twin⟩
    | some p =>
      simp only [Session.request, htwin, hp]
      exact frozen_onDatabase h (harmless_of_safe fun _ _ => safe_reading (body p))

-- The run: whatever the calls, each finds the session frozen.
theorem throughout_unchanged [SerdeJson] (h : s.Frozen O) {calls : List ApiCall}
    (hkeeps : Session.Throughout u Session.KeepsCollections s calls) :
    Session.Throughout u (fun s call => s.Unchanged u O call) s calls := by
  induction calls generalizing s with
  | nil => trivial
  | cons call rest ih =>
    obtain ⟨hfirst, hrest⟩ := hkeeps
    obtain ⟨hnext, hcall⟩ := request_spec (u := u) h hfirst
    exact ⟨hcall, ih hnext hrest⟩

end Sessions

section Open

variable {file : Option (Disk Page)} {wal : WAL} {p : Pager} {db : Database}

theorem openFile_readOnly (h : Pager.openFile file true = .ok p) :
    p.dirty = ∅ ∧ p.readOnly = true := by
  cases file with
  | none => cases h
  | some f =>
    unfold Pager.openFile Pager.readHeader at h
    cases hpage : (Pager.start f true).filePage 0 with
    | none =>
      simp only [hpage] at h
      cases h
    | some page =>
      simp only [hpage] at h
      cases hheader : Header.deserialize page with
      | error e =>
        rw [hheader] at h
        cases h
      | ok header =>
        rw [hheader] at h
        cases hcheck : Pager.checkHeader (Pager.start f true).file.len header with
        | error e =>
          simp only [bind, Except.bind, hcheck] at h
          cases h
        | ok u =>
          simp only [bind, Except.bind, hcheck] at h
          obtain rfl := Except.ok.inj h
          exact ⟨rfl, rfl⟩

theorem loadMetadata_readOnly (hp : p.readOnly = true) {metadata : Metadata} {p' : Pager}
    (h : loadMetadata p = .ok (metadata, p')) : p' = p := by
  unfold loadMetadata at h
  split at h
  · cases hread : p.readPage p.metadataPage with
    | error e =>
      rw [hread] at h
      cases h
    | ok page =>
      rw [hread] at h
      cases hd : Metadata.deserialize page with
      | error e =>
        simp only [bind, Except.bind, hd] at h
        cases h
      | ok m' =>
        simp only [bind, Except.bind, hd, Except.ok.injEq, Prod.mk.injEq] at h
        exact h.2.symm
  · have halloc : p.allocPageMinimum 0 =
        (.error (.other "cannot allocate page: database is read-only"), p) := if_pos hp
    simp only [createMetadata, halloc] at h
    cases h

theorem frozen_openWithOptions (h : Database.openWithOptions file wal true = .ok db) :
    db.Frozen db.observed := by
  unfold Database.openWithOptions at h
  cases hfile : Pager.openFile file true with
  | error e =>
    rw [hfile] at h
    cases h
  | ok p =>
    obtain ⟨hclean, hreadOnly⟩ := openFile_readOnly hfile
    simp only [hfile, Bool.not_true, Bool.false_and, Bool.false_eq_true, if_false] at h
    unfold Database.load at h
    cases hload : loadMetadata p with
    | error e =>
      rw [hload] at h
      cases h
    | ok r =>
      obtain ⟨metadata, p'⟩ := r
      obtain rfl := loadMetadata_readOnly hreadOnly hload
      rw [hload] at h
      obtain rfl := Except.ok.inj h
      exact ⟨⟨rfl, hclean⟩, rfl, hreadOnly⟩

end Open

-- A database opened to be read shows the same after each call of every run, and each call that
-- would change what it shows fails, as long as no collection is created, dropped or renamed.
theorem readOnly_unchanged [SerdeJson] {u : Unicode} {file : Option (Disk Page)} {wal : WAL} {db : Database}
    {calls : List ApiCall} (hopen : Database.openWithOptions file wal true = .ok db)
    (hkeeps : Session.Throughout u Session.KeepsCollections ⟨db, []⟩ calls) :
    Session.Throughout u (fun s call => s.Unchanged u db.observed call) ⟨db, []⟩ calls :=
  throughout_unchanged ⟨frozen_openWithOptions hopen, by simp⟩ hkeeps

section Samples

-- A file with an empty database.
def savedFile : Option (Disk Page) :=
  (Database.openWithOptions none .empty false).toOption.map fun db => db.pager.file

def refusedRun : List ApiCall :=
  [.collection "c" (.insert "" (.obj [("_id", .str "x")])),
    .event .begin, .event (.dropCollection 0 "c"), .event (.collection 0 "c"),
    .event (.call 0 (.insert "" (.obj [("_id", .str "x")]))), .event (.release 0),
    .event (.commit [0]), .catalog (.createIndex "c" "i" "a" false), .close]

attribute [local instance] SerdeJson.exact

theorem readOnly_unchanged_refused : ∃ db, Database.openWithOptions savedFile .empty true = .ok db ∧
    Session.Throughout plainText (fun s call => s.Unchanged plainText db.observed call) ⟨db, []⟩
      refusedRun := by
  have hrun : ∃ db, Database.openWithOptions savedFile .empty true = .ok db ∧
      Session.Throughout plainText Session.KeepsCollections ⟨db, []⟩ refusedRun := by
    decide +kernel
  obtain ⟨db, hopen, hkeeps⟩ := hrun
  exact ⟨db, hopen, readOnly_unchanged hopen hkeeps⟩

-- A collection that is created in a transaction is there for everyone.
theorem createCollection_changes : ∃ db, Database.openWithOptions savedFile .empty true = .ok db ∧
    ¬ Session.Throughout plainText (fun s call => s.Unchanged plainText db.observed call) ⟨db, []⟩
      [.event .begin, .event (.createCollection 0 "c")] := by
  have hrun : ∃ db, Database.openWithOptions savedFile .empty true = .ok db ∧
      db.metadata.collections.keys = [] ∧
      (Session.step (Session.step ⟨db, []⟩ .begin) (.createCollection 0 "c")).db.metadata.collections.keys =
        ["c"] := by
    decide +kernel
  obtain ⟨db, hopen, hbefore, hafter⟩ := hrun
  refine ⟨db, hopen, ?_⟩
  rintro ⟨-, hcall, -⟩
  have hsame := congrArg (fun O => O.metadata.collections.keys) hcall.same
  have hkeys := hafter.symm.trans (hsame.trans hbefore)
  cases hkeys

end Samples

end JasonDb
