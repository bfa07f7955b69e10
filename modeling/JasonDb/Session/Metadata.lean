import JasonDb.Collection.Placed
import JasonDb.Database.Catalog
import JasonDb.Database.Opened
import JasonDb.Session.Grants
import JasonDb.Session.Requests

namespace JasonDb

open Lib

-- The calls on a collection that write documents in a transaction of their own.
inductive DocumentCall where
  | insert (generatedId : String) (doc : Json)
  | insertMany (maxBulkOperations : Nat) (first : String × Json) (rest : List (String × Json))
  | updateById (id : String) (updates : Json)
  | upsertById (id generatedId : String) (doc : Json)
  | upsert (query : Query) (generatedId : String) (doc : Json)

def DocumentCall.run [SerdeJson] {ℓ : Type} (name : String) : DocumentCall → DbM ℓ Unit
  | .insert generatedId doc => do
    let _ ← Collection.insert name generatedId doc
  | .insertMany maxBulkOperations first rest => do
    let _ ← Collection.insertMany name maxBulkOperations (first :: rest)
  | .updateById id updates => Collection.updateById name id updates
  | .upsertById id generatedId doc => do
    let _ ← Collection.upsertById name id generatedId doc
  | .upsert query generatedId doc => do
    let _ ← Collection.upsert name query generatedId doc

inductive Operation where
  | catalog (call : CatalogCall)
  | document (name : String) (call : DocumentCall)
  | event (e : Event)

-- What the page of the metadata holds.
def Database.storedMetadata (db : Database) : Except Error Metadata := do
  let page ← db.pager.readPage db.pager.metadataPage
  Metadata.deserialize page

namespace Session

section Operations

variable [SerdeJson] (u : Unicode) (s : Session)

-- The result of a call, and the session after it.
def perform : Operation → Except Error Unit × Session
  | .catalog call => s.onDatabase (call.run u)
  | .document name call => s.onDatabase (call.run name)
  | .event (.commit members) =>
    if (s.batch members).isEmpty then (.ok (), s) else s.commitBatch members
  | .event e => (.ok (), s.step e)

-- The condition holds of each operation in the session it finds.
def Along (P : Session → Operation → Prop) : Session → List Operation → Prop
  | _, [] => True
  | s, op :: rest => P s op ∧ Along P (s.perform u op).2 rest

instance decidableAlong {P : Session → Operation → Prop} [∀ s op, Decidable (P s op)] :
    ∀ s ops, Decidable (Along u P s ops)
  | _, [] => isTrue trivial
  | s, op :: rest =>
    have := decidableAlong (P := P) (s.perform u op).2 rest
    inferInstanceAs (Decidable (P s op ∧ Along u P (s.perform u op).2 rest))

-- An operation that is to leave the metadata stored: all but the steps of a transaction before
-- its commit.
def Finishes : Operation → Prop
  | .event (.commit members) => s.batch members ≠ []
  | .event _ => False
  | _ => True

-- Page and memory agree after a success, and a failed call leaves the memory as it was.
structure InStep (op : Operation) : Prop where
  ok : s.Finishes op → (s.perform u op).1 = .ok () →
    (s.perform u op).2.db.storedMetadata = .ok (s.perform u op).2.db.metadata
  error : ∀ call e, op = .catalog call → (s.perform u op).1 = .error e →
    (s.perform u op).2.db.metadata = s.db.metadata

def Fits : Operation → Prop
  | .catalog call => call.Fits u s.db.metadata
  | _ => True

def InRange (op : Operation) : Prop := (s.perform u op).2.db.metadata.InRange

instance (op : Operation) : Decidable (s.InRange u op) :=
  inferInstanceAs (Decidable (Metadata.InRange _))

end Operations

-- The metadata are in the page `m`, and no transaction writes there.
def Apart (m : PageNum) (s : Session) : Prop :=
  s.Within (Database.Placed m) (· ≠ m) fun _ _ => True

variable {u : Unicode} {s : Session} {m : PageNum}

theorem storedMetadata_of_stored {db : Database} (h : db.Placed m) (hs : db.Stored m) :
    db.storedMetadata = .ok db.metadata := by
  have hread : db.pager.readPage db.pager.metadataPage = .ok (.metadata db.metadata) := by
    rw [h.page, Pager.readPage, hs.view]
  rw [Database.storedMetadata, hread]
  rfl

theorem aloof_placed : Aloof (Database.Placed m) where
  metadata _ metadata h := h.withMetadata metadata
  versionChains _ _ h := h.aside ⟨rfl, rfl, rfl, rfl, rfl, rfl, rfl⟩
  txManager db _ _ h := h.aside (aside_txManager db _)

theorem stores_document [SerdeJson] (name : String) (call : DocumentCall) :
    Collection.Stores m (call.run name : DbM Unit Unit) := by
  cases call with
  | insert generatedId doc =>
    exact (Collection.stores_insert generatedId doc).bind_safe fun _ => Proc.safe_pure trivial
  | insertMany maxBulkOperations first rest =>
    exact (Collection.stores_insertMany maxBulkOperations (by simp)).bind_safe fun _ =>
      Proc.safe_pure trivial
  | updateById id updates => exact Collection.stores_updateById id updates
  | upsertById id generatedId doc =>
    exact (Collection.stores_upsertById id generatedId doc).bind_safe fun _ => Proc.safe_pure trivial
  | upsert query generatedId doc =>
    exact (Collection.stores_upsert query generatedId doc).bind_safe fun _ => Proc.safe_pure trivial

theorem perform_event [SerdeJson] {e : Event} (he : ∀ members, e ≠ .commit members) :
    s.perform u (.event e) = (.ok (), s.step e) := by
  cases e with
  | commit members => exact absurd rfl (he members)
  | _ => rfl

theorem Apart.step [SerdeJson] (h : s.Apart m) {e : Event} (he : ∀ members, e ≠ .commit members) :
    (s.step e).Apart m := by
  by_cases hbegin : e = .begin
  · subst hbegin
    exact h.beginTx fun _ hdb => hdb.aside ⟨rfl, rfl, rfl, rfl, rfl, rfl, rfl⟩
  · exact Within.step (fun _ => grants_placed _) (fun _ _ => trivial) (fun _ _ => trivial)
      (fun _ _ _ _ => trivial) aloof_placed h hbegin he

theorem Apart.commitBatch (h : s.Apart m) (members : List Nat) :
    (s.commitBatch members).2.Apart m ∧ ((s.commitBatch members).1 = .ok () →
      (s.commitBatch members).2.db.Stored m) := by
  rcases he : Proc.exec (Commit.executeBatchCommit (s.leader members) (s.batch members)) () s.db
    with ⟨r, l, db⟩
  obtain ⟨hresult, hdb⟩ := commitBatch_eq he
  obtain ⟨hplaced, -, hok⟩ := ends_executeBatchCommit (I := fun _ : Unit => True) _
    (Within.batch h) () s.db trivial h.db r l db he
  rw [← hdb] at hplaced hok
  refine ⟨Within.commitBatch h hplaced, fun hr => hok () ?_⟩
  exact hresult.symm.trans hr

theorem Along.imp [SerdeJson] {P Q : Session → Operation → Prop} {ops : List Operation}
    (himp : ∀ s, ∀ op ∈ ops, P s op → Q s op) (h : Along u P s ops) : Along u Q s ops := by
  induction ops generalizing s with
  | nil => trivial
  | cons op rest ih =>
    refine ⟨himp s op (by simp) h.1, ih ?_ h.2⟩
    exact fun s' op' hmem => himp s' op' (List.mem_cons_of_mem _ hmem)

-- One operation of a session: the invariant, and what the operation is to do.
theorem perform_spec [SerdeJson] {op : Operation} (h : s.Apart m) (hrange : s.InRange u op)
    (hfits : s.Fits u op) :
    (s.perform u op).2.Apart m ∧ s.InStep u op := by
  cases op with
  | catalog call =>
    rcases he : Proc.exec (call.run u) () s.db with ⟨r, l, db⟩
    have hperform : s.perform u (.catalog call) = (r, ⟨db, s.parties⟩) := onDatabase_eq he
    rw [InRange, hperform] at hrange
    obtain ⟨hplaced, hok, herror⟩ := catalogCall_spec u h.db hfits hrange he
    rw [hperform]
    refine ⟨⟨hplaced, h.parties⟩, ⟨fun _ hr => ?_, fun call' e _ hr => ?_⟩⟩
    · rw [hperform] at hr ⊢
      exact storedMetadata_of_stored hplaced (hok hr)
    · rw [hperform] at hr ⊢
      exact herror e hr
  | document name call =>
    rcases he : Proc.exec (call.run name) () s.db with ⟨r, l, db⟩
    have hperform : s.perform u (.document name call) = (r, ⟨db, s.parties⟩) := onDatabase_eq he
    obtain ⟨hplaced, -, hok⟩ := stores_document name call () s.db trivial h.db r l db he
    rw [hperform]
    refine ⟨⟨hplaced, h.parties⟩, ⟨fun _ hr => ?_, fun call' e hop => by cases hop⟩⟩
    rw [hperform] at hr ⊢
    exact storedMetadata_of_stored hplaced (hok () hr)
  | event e =>
    by_cases hcommit : ∃ members, e = .commit members
    · obtain ⟨members, rfl⟩ := hcommit
      by_cases hbatch : (s.batch members).isEmpty
      · have hperform : s.perform u (.event (.commit members)) = (.ok (), s) := if_pos hbatch
        rw [hperform]
        refine ⟨h, ⟨fun hfinishes => ?_, fun call' e hop => by cases hop⟩⟩
        exact absurd (List.isEmpty_iff.mp hbatch) hfinishes
      · have hperform : s.perform u (.event (.commit members)) = s.commitBatch members :=
          if_neg hbatch
        obtain ⟨happ, hstored⟩ := h.commitBatch members
        rw [hperform]
        refine ⟨happ, ⟨fun _ hr => ?_, fun call' e hop => by cases hop⟩⟩
        rw [hperform] at hr ⊢
        exact storedMetadata_of_stored happ.db (hstored hr)
    · have hne : ∀ members, e ≠ .commit members := fun members heq => hcommit ⟨members, heq⟩
      rw [perform_event hne]
      refine ⟨h.step hne, ⟨fun hfinishes => ?_, fun call' e hop => by cases hop⟩⟩
      cases e with
      | commit members => exact absurd rfl (hne members)
      | _ => exact absurd hfinishes id

-- Over a whole run, from any state with the invariant.
theorem along_inStep [SerdeJson] {ops : List Operation} (h : s.Apart m) (hrange : Along u (InRange u) s ops)
    (hfits : Along u (Fits u) s ops) : Along u (InStep u) s ops := by
  induction ops generalizing s with
  | nil => trivial
  | cons op rest ih =>
    obtain ⟨happ, hstep⟩ := perform_spec h hrange.1 hfits.1
    exact ⟨hstep, ih happ hrange.2 hfits.2⟩

end Session

theorem placed_openWithOptions {file : Option (Disk Page)} {wal : WAL} {db : Database}
    (hwal : wal.frames = []) (h : Database.openWithOptions file wal false = .ok db) :
    db.Placed db.pager.metadataPage := by
  unfold Database.openWithOptions at h
  split at h
  · cases h
  case h_2 p hopen =>
    obtain ⟨hwf, hpage⟩ := openFile_ok hopen
    rw [if_neg (by simp [hwal])] at h
    unfold Database.load at h
    split at h
    · cases h
    case h_2 metadata pager hload =>
      obtain rfl := Except.ok.inj h
      obtain ⟨hwritable, hne, hlt, hused⟩ := loadMetadata_ok hwf hpage hload
      exact ⟨rfl, Nat.pos_of_ne_zero hne, hlt, hused, hwritable, rfl⟩

-- The metadata in memory and in their page are in step in every run on a writable database whose
-- log is empty when it is opened, as long as the metadata that index and schema calls make fit
-- their page.
theorem metadata_inStep [SerdeJson] {u : Unicode} {file : Option (Disk Page)} {wal : WAL} {db : Database}
    {ops : List Operation} (hwal : wal.frames = [])
    (hopen : Database.openWithOptions file wal false = .ok db)
    (hrange : Session.Along u (Session.InRange u) ⟨db, []⟩ ops)
    (hfits : Session.Along u (Session.Fits u) ⟨db, []⟩ ops) :
    Session.Along u (Session.InStep u) ⟨db, []⟩ ops :=
  Session.along_inStep ⟨placed_openWithOptions hwal hopen, by simp⟩ hrange hfits

section Samples

def plainText : Unicode where
  isAlphabetic := Char.isAlpha
  isAlphanumeric := Char.isAlphanum
  text := ⟨fun text => text.splitOn " ", String.toLower, fun count total => s!"{count}/{total}"⟩

def requiring (fields : List String) : Schema :=
  .mk none (some fields) none none none none none none none

-- Documents in a new collection and in an old one, with a schema that comes and goes.
def plainRun : List Operation :=
  [.document "c" (.insert "" (.obj [("_id", .str "x")])),
    .catalog (.setSchema "c" (requiring ["name"])),
    .document "c" (.insert "" (.obj [("_id", .str "y")])),
    .event .begin, .event (.collection 0 "d"),
    .event (.call 0 (.insert "" (.obj [("_id", .str "x")]))), .event (.release 0),
    .event (.commit [0]),
    .catalog (.removeSchema "c")]

def fitsAtZero (s : Session) : Operation → Bool
  | .catalog call => decide ((call.target 0 s.db.metadata).toJson.byteLen ≤ PAGE_SIZE)
  | _ => true

attribute [local instance] SerdeJson.exact

theorem metadata_inStep_plain : ∃ db, Database.openWithOptions none .empty false = .ok db ∧
    Session.Along plainText (Session.InStep plainText) ⟨db, []⟩ plainRun := by
  have hrun : ∃ db, Database.openWithOptions none .empty false = .ok db ∧
      Session.Along plainText (Session.InRange plainText) ⟨db, []⟩ plainRun ∧
      Session.Along plainText (fun s op => fitsAtZero s op = true) ⟨db, []⟩ plainRun := by
    decide +kernel
  obtain ⟨db, hopen, hrange, hfits⟩ := hrun
  refine ⟨db, hopen, metadata_inStep rfl hopen hrange (hfits.imp ?_)⟩
  intro s op hmem hfit
  simp only [plainRun, List.mem_cons, List.not_mem_nil, or_false] at hmem
  rcases hmem with rfl | rfl | rfl | rfl | rfl | rfl | rfl | rfl | rfl
  case inr.inl => exact fun _ _ _ => of_decide_eq_true hfit
  case inr.inr.inr.inr.inr.inr.inr.inr => exact fun _ _ _ => of_decide_eq_true hfit
  all_goals trivial

-- A schema that does not fit is refused, and in force.
theorem setSchema_outOfStep : ∃ db, Database.openWithOptions none .empty false = .ok db ∧
    Session.Along plainText (Session.InRange plainText) ⟨db, []⟩
      [.catalog (.setSchema "c" (requiring (List.replicate 2000 "a")))] ∧
    ¬ Session.Along plainText (Session.InStep plainText) ⟨db, []⟩
      [.catalog (.setSchema "c" (requiring (List.replicate 2000 "a")))] := by
  have hrun : ∃ db, Database.openWithOptions none .empty false = .ok db ∧
      Session.Along plainText (Session.InRange plainText) ⟨db, []⟩
        [.catalog (.setSchema "c" (requiring (List.replicate 2000 "a")))] ∧
      (Session.perform plainText ⟨db, []⟩
        (.catalog (.setSchema "c" (requiring (List.replicate 2000 "a"))))).1 =
          .error .invalidPageSize ∧
      db.metadata.collections.keys = [] ∧
      (Session.perform plainText ⟨db, []⟩
        (.catalog (.setSchema "c" (requiring (List.replicate 2000 "a"))))).2.db.metadata.collections.keys =
          ["c"] := by
    decide +kernel
  obtain ⟨db, hopen, hrange, herror, hbefore, hafter⟩ := hrun
  refine ⟨db, hopen, hrange, ?_⟩
  rintro ⟨hstep, -⟩
  rw [hstep.error _ _ rfl herror, hbefore] at hafter
  cases hafter

end Samples

end JasonDb
