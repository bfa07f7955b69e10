import JasonDb.Database.Counter
import JasonDb.Session.Grants

namespace JasonDb

open Lib

-- The documents of a transaction as its commit installs them.
def PendingWrite.documents (pending : PendingWrite) : List DocPage :=
  pending.docWrites.toList.flatMap fun entry => entry.2.toList.filterMap fun doc =>
    match doc.2.bind pending.writes.get? with
    | some (.doc page) => some page
    | _ => none

namespace Session

def committedBy (s : Session) : Event → List DocPage
  | .commit members => match (s.commitBatch members).1 with
    | .ok _ => (s.batch members).flatMap PendingWrite.documents
    | .error _ => []
  | _ => []

-- Whether the batch passes the validation with which its commit begins.
def passes (s : Session) (members : List Nat) : Bool :=
  (Proc.exec (Commit.validateBatch (s.batch members)) () s.db).1.isOk

-- The ids of the transactions that an event adds.
def issuedBy [SerdeJson] (s : Session) (e : Event) : List TransactionID :=
  ((s.step e).parties.drop s.parties.length).map fun p => p.tx.mvccTxId

end Session

-- The life of a database file over the processes that open it one after the other, with the
-- documents committed and the ids handed out so far.
structure Life where
  session : Session
  committed : List DocPage
  issued : List TransactionID

inductive LifeEvent where
  | inside (e : Event)
  | reopen

namespace Life

def start (db : Database) : Life := ⟨⟨db, []⟩, [], []⟩

-- Transactions end with their process. A file that cannot be opened stays as it is.
def step [SerdeJson] (s : Life) : LifeEvent → Life
  | .inside e => ⟨s.session.step e, s.committed ++ s.session.committedBy e,
      s.issued ++ s.session.issuedBy e⟩
  | .reopen => match s.session.db.reopen with
    | .ok db => { s with session := ⟨db, []⟩ }
    | .error _ => s

def run [SerdeJson] (s : Life) : List LifeEvent → Life
  | [] => s
  | e :: rest => (s.step e).run rest

-- The condition holds of each event in the state it finds.
def Meets [SerdeJson] (P : Life → LifeEvent → Prop) : Life → List LifeEvent → Prop
  | _, [] => True
  | s, e :: rest => P s e ∧ Meets P (s.step e) rest

-- No batch passes its validation whose ids are all below the counter that an earlier commit set.
def InOrder (s : Life) : LifeEvent → Prop
  | .inside (.commit members) => s.session.batch members ≠ [] → s.session.passes members →
      s.session.db.pager.nextTxId ≤ Commit.maxTxId (s.session.leader members) (s.session.batch members) + 1
  | _ => True

-- The file is closed when a commit has set the counter past all ids that were handed out.
def Exhausted (s : Life) : LifeEvent → Prop
  | .reopen => s.session.db.txManager.nextTxId ≤ s.session.db.pager.nextTxId
  | _ => True

instance (s : Life) (e : LifeEvent) : Decidable (s.InOrder e) := by
  unfold InOrder
  split <;> infer_instance

instance (s : Life) (e : LifeEvent) : Decidable (s.Exhausted e) := by
  unfold Exhausted
  split <;> infer_instance

instance decidableMeets [SerdeJson] {P : Life → LifeEvent → Prop} [∀ s e, Decidable (P s e)] :
    ∀ s events, Decidable (Meets P s events)
  | _, [] => isTrue trivial
  | s, e :: rest =>
    have := decidableMeets (P := P) (s.step e) rest
    inferInstanceAs (Decidable (P s e ∧ Meets P (s.step e) rest))

end Life

section Parties

variable {ℓ : Type} {n k : TransactionID} {s : Session}

def Transaction.OwnPages (tx : Transaction) : Prop :=
  PagesIn (· ≠ 0) (Stamped tx.mvccTxId) tx.writes

def Party.OwnPages : Party → Prop
  | .idle tx => tx.OwnPages
  | .busy c => TxCollection.Within (· ≠ 0) (Stamped c.tx.mvccTxId) c.tx.mvccTxId c

structure Session.Counts (n k : TransactionID) (s : Session) : Prop where
  db : s.db.Counts n k
  parties : ∀ p ∈ s.parties, p.OwnPages

theorem Session.Counts.within (h : s.Counts n k) :
    s.Within (Database.Counts n k) (· ≠ 0) Stamped :=
  ⟨h.db, h.parties⟩

theorem counts_of_within (h : s.Within (Database.Counts n k) (· ≠ 0) Stamped) : s.Counts n k :=
  ⟨h.db, h.parties⟩

theorem aloof_counts : Aloof (Database.Counts n k) where
  metadata _ _ h := ⟨h.pager, h.manager, h.frames⟩
  versionChains _ _ h := ⟨h.pager, h.manager, h.frames⟩
  txManager _ _ hnext h := ⟨h.pager, hnext.trans h.manager, h.frames⟩

theorem Session.Counts.commitBatch (h : s.Counts n k) (members : List Nat) :
    ((s.commitBatch members).2.Counts n k ∨ (s.commitBatch members).2.Counts
      (Commit.maxTxId (s.leader members) (s.batch members) + 1) k) ∧
    ((s.commitBatch members).1 = .ok () → (s.commitBatch members).2.Counts
      (Commit.maxTxId (s.leader members) (s.batch members) + 1) k) := by
  rcases he : Proc.exec (Commit.executeBatchCommit (s.leader members) (s.batch members)) () s.db
    with ⟨r, l, db⟩
  obtain ⟨hresult, hdb⟩ := commitBatch_eq he
  have hwithin : ∀ {n'}, db.Counts n' k → (s.commitBatch members).2.Counts n' k := by
    intro n' hcounts
    rw [← hdb] at hcounts
    exact counts_of_within (h.within.commitBatch hcounts)
  obtain ⟨hany, hok⟩ := Commit.counts_executeBatchCommit h.within.batch h.db he
  refine ⟨hany.imp hwithin hwithin, fun hr => hwithin (hok ?_)⟩
  exact hresult.symm.trans hr

theorem Session.Counts.refused (h : s.Counts n k) {members : List Nat} (hrefused : ¬ s.passes members) :
    (∃ e, (s.commitBatch members).1 = .error e) ∧ (s.commitBatch members).2.Counts n k := by
  obtain ⟨e, l, db, he, hcounts⟩ := Commit.counts_refused (s.leader members) h.db hrefused
  obtain ⟨hresult, hdb⟩ := commitBatch_eq he
  rw [← hdb] at hcounts
  exact ⟨⟨e, hresult⟩, counts_of_within (h.within.commitBatch hcounts)⟩

theorem Session.Counts.beginTx (h : s.Counts n k) : s.beginTx.Counts n (k + 1) := by
  refine counts_of_within (h.within.beginTx fun db hdb => ?_)
  exact ⟨hdb.pager, congrArg (· + 1) hdb.manager, hdb.frames⟩

end Parties

namespace Life

variable {s : Life} {n k : TransactionID}

theorem documents_stamped (pending : PendingWrite)
    (h : PagesIn (· ≠ 0) (Stamped pending.mvccTxId) pending.writes) {d : DocPage}
    (hd : d ∈ pending.documents) : d.xmin = pending.mvccTxId ∧ d.xmax = 0 := by
  obtain ⟨entry, _, hentry⟩ := List.mem_flatMap.mp hd
  obtain ⟨doc, _, hdoc⟩ := List.mem_filterMap.mp hentry
  split at hdoc
  case h_1 page hpage =>
    obtain rfl := Option.some.inj hdoc
    obtain ⟨p, _, hp⟩ := Option.bind_eq_some_iff.mp hpage
    exact (h p _ hp).2
  case h_2 => cases hdoc

theorem le_maxTxId (leader : TransactionID) {batch : List PendingWrite} {pending : PendingWrite}
    (h : pending ∈ batch) : pending.mvccTxId ≤ Commit.maxTxId leader batch := by
  have hmem : pending.mvccTxId ∈ batch.map PendingWrite.mvccTxId := List.mem_map_of_mem h
  unfold Commit.maxTxId
  cases hmax : (batch.map PendingWrite.mvccTxId).max? with
  | none =>
    rw [List.max?_eq_none_iff] at hmax
    rw [hmax] at hmem
    cases hmem
  | some m => exact (List.max?_eq_some_iff.mp hmax).2 _ hmem

-- The counters, the transactions and the history agree.
structure Sound (n k : TransactionID) (s : Life) : Prop where
  session : s.session.Counts n k
  committed : ∀ d ∈ s.committed, d.xmin < n ∧ d.xmax = 0

section Step

theorem length_put (s : Session) (i : Nat) (r : Party × Database) :
    (s.put i r).parties.length = s.parties.length := List.length_set

theorem length_onIdle (s : Session) (i : Nat) (m : Transaction.TxM Unit) :
    (s.onIdle i m).parties.length = s.parties.length := by
  unfold Session.onIdle
  split
  · exact length_put _ _ _
  · rfl

-- Only `begin` adds a transaction.
theorem length_step [SerdeJson] (s : Session) {e : Event} (he : e ≠ .begin) :
    (s.step e).parties.length = s.parties.length := by
  cases e with
  | begin => exact absurd rfl he
  | collection i name =>
    simp only [Session.step, Session.openHandle]
    split
    · split
      · exact length_put _ _ _
      · exact length_put _ _ _
    · rfl
  | call i op =>
    simp only [Session.step, Session.onHandle]
    split
    · exact length_put _ _ _
    · rfl
  | release i =>
    simp only [Session.step, Session.releaseHandle]
    split
    · exact length_put _ _ _
    · rfl
  | createCollection i name => exact length_onIdle _ _ _
  | dropCollection i name => exact length_onIdle _ _ _
  | renameCollection i oldName newName => exact length_onIdle _ _ _
  | commit members =>
    simp only [Session.step]
    split
    · rfl
    · unfold Session.commitBatch
      split
      · exact List.length_mapIdx
      · rfl
  | commitEmpty i =>
    simp only [Session.step]
    split
    · split
      · exact length_onIdle _ _ _
      · rfl
    · rfl
  | rollback i => exact length_onIdle _ _ _
  | dropTransaction i => exact length_onIdle _ _ _

theorem issuedBy_of_ne [SerdeJson] (s : Session) {e : Event} (he : e ≠ .begin) : s.issuedBy e = [] := by
  rw [Session.issuedBy, List.drop_eq_nil_of_le (le_of_eq (length_step s he)), List.map_nil]

theorem issuedBy_begin [SerdeJson] (s : Session) : s.issuedBy .begin = [s.db.txManager.nextTxId] := by
  obtain ⟨tx, he, hid, _⟩ := begin_eq s.db
  simp only [Session.issuedBy, Session.step, Session.beginTx, he, List.drop_left, List.map_cons,
    List.map_nil, Party.tx, hid]

theorem Session.Counts.step [SerdeJson] (h : s.session.Counts n k) {e : Event} (hb : e ≠ .begin)
    (hc : ∀ members, e ≠ .commit members) : (s.session.step e).Counts n k := by
  refine counts_of_within (h.within.step (fun _ => grants_counts _) (fun _ _ => trivial)
    (fun _ _ => trivial) ?_ aloof_counts hb hc)
  exact fun _ _ _ _ => ⟨rfl, rfl⟩

theorem committedBy_of_ne (s : Session) {e : Event} (hc : ∀ members, e ≠ .commit members) :
    s.committedBy e = [] := by
  cases e with
  | commit members => exact absurd rfl (hc members)
  | _ => rfl

-- A commit in order raises the counter past the documents of its batch, and never lowers it.
theorem Sound.commit [SerdeJson] (h : s.Sound n k) (members : List Nat)
    (hord : s.InOrder (.inside (.commit members))) :
    ∃ n', (s.step (.inside (.commit members))).Sound n' k := by
  by_cases hempty : s.session.batch members = []
  · have hnone : s.session.committedBy (.commit members) = [] := by
      simp only [Session.committedBy, hempty, List.flatMap_nil]
      split <;> rfl
    refine ⟨n, ?_, ?_⟩
    · simpa [step, Session.step, hempty] using h.session
    · simpa [step, hnone] using h.committed
  · have hsession : (s.step (.inside (.commit members))).session =
        (s.session.commitBatch members).2 := by
      simp [step, Session.step, hempty]
    have hfailed : ∀ e, (s.session.commitBatch members).1 = .error e →
        (s.step (.inside (.commit members))).committed = s.committed := by
      intro e he
      simp [step, Session.committedBy, he]
    by_cases hpass : ¬ s.session.passes members
    · obtain ⟨⟨e, he⟩, hcounts⟩ := h.session.refused hpass
      exact ⟨n, hsession ▸ hcounts, (hfailed e he) ▸ h.committed⟩
    have hle := hord hempty (not_not.mp hpass)
    rw [h.session.db.pager.next] at hle
    obtain ⟨hany, hok⟩ := h.session.commitBatch members
    have hold : ∀ d ∈ s.committed,
        d.xmin < Commit.maxTxId (s.session.leader members) (s.session.batch members) + 1 ∧
          d.xmax = 0 :=
      fun d hd => ⟨lt_of_lt_of_le (h.committed d hd).1 hle, (h.committed d hd).2⟩
    cases hres : (s.session.commitBatch members).1 with
    | error e =>
      rcases hany with hany | hany
      · exact ⟨n, hsession ▸ hany, (hfailed e hres) ▸ h.committed⟩
      · exact ⟨_, hsession ▸ hany, (hfailed e hres) ▸ hold⟩
    | ok u =>
      refine ⟨_, hsession ▸ hok hres, ?_⟩
      intro d hd
      have hd' : d ∈ s.committed ++ s.session.committedBy (.commit members) := hd
      rcases List.mem_append.mp hd' with hd' | hd'
      · exact hold d hd'
      · simp only [Session.committedBy, hres] at hd'
        obtain ⟨pending, hmem, hdoc⟩ := List.mem_flatMap.mp hd'
        obtain ⟨tx, htx, rfl⟩ := Session.mem_batch hmem
        obtain ⟨hmin, hmax⟩ := documents_stamped tx.prepareWriteRequest (h.session.parties _ htx) hdoc
        refine ⟨?_, hmax⟩
        rw [hmin]
        exact Nat.lt_succ_of_le (le_maxTxId _ hmem)

theorem Sound.step [SerdeJson] (h : s.Sound n k) (e : LifeEvent) (hord : s.InOrder e) :
    ∃ n' k', (s.step e).Sound n' k' := by
  cases e with
  | reopen =>
    unfold Life.step
    simp only
    split
    case h_1 db hre =>
      refine ⟨n, n, ⟨(counts_reopen h.session.db hre).1, by simp⟩, h.committed⟩
    case h_2 => exact ⟨n, k, h⟩
  | inside e =>
    by_cases hc : ∃ members, e = .commit members
    · obtain ⟨members, rfl⟩ := hc
      obtain ⟨n', hn⟩ := h.commit members hord
      exact ⟨n', k, hn⟩
    · have hne : ∀ members, e ≠ .commit members := fun members heq => hc ⟨members, heq⟩
      have hcommitted : ∀ d ∈ (s.step (.inside e)).committed, d.xmin < n ∧ d.xmax = 0 := by
        simpa [Life.step, committedBy_of_ne s.session hne] using h.committed
      by_cases hb : e = .begin
      · subst hb
        exact ⟨n, k + 1, h.session.beginTx, hcommitted⟩
      · exact ⟨n, k, Session.Counts.step h.session hb hne, hcommitted⟩

theorem Sound.run [SerdeJson] {events : List LifeEvent} (h : s.Sound n k) (hord : Meets InOrder s events) :
    ∃ n' k', (s.run events).Sound n' k' := by
  induction events generalizing s n k with
  | nil => exact ⟨n, k, h⟩
  | cons e rest ih =>
    obtain ⟨n', k', h'⟩ := h.step e hord.1
    exact ih h' hord.2

-- The ids handed out so far are different, and the next one is above them.
structure Fresh (k : TransactionID) (s : Life) : Prop where
  nodup : s.issued.Nodup
  below : ∀ id ∈ s.issued, id < k

theorem Fresh.step [SerdeJson] (h : s.Sound n k) (hf : s.Fresh k) {e : LifeEvent} (hord : s.InOrder e)
    (hex : s.Exhausted e) : ∃ n' k', (s.step e).Sound n' k' ∧ (s.step e).Fresh k' := by
  cases e with
  | reopen =>
    have hle : k ≤ n := by
      have := hex
      rwa [Exhausted, h.session.db.manager, h.session.db.pager.next] at this
    unfold Life.step
    simp only
    split
    case h_1 db hre =>
      refine ⟨n, n, ⟨⟨(counts_reopen h.session.db hre).1, by simp⟩, h.committed⟩, hf.nodup, ?_⟩
      intro id hid
      exact lt_of_lt_of_le (hf.below id hid) hle
    case h_2 => exact ⟨n, k, h, hf⟩
  | inside e =>
    by_cases hb : e = .begin
    · subst hb
      have hissued : (s.step (.inside .begin)).issued = s.issued ++ [k] := by
        simp [Life.step, issuedBy_begin, h.session.db.manager]
      refine ⟨n, k + 1, ⟨h.session.beginTx, ?_⟩, ?_, ?_⟩
      · simpa [Life.step, committedBy_of_ne s.session (e := .begin)] using h.committed
      · rw [hissued, List.nodup_append]
        refine ⟨hf.nodup, List.nodup_singleton k, ?_⟩
        rintro a ha _ hk rfl
        obtain rfl := List.mem_singleton.mp hk
        exact absurd (hf.below _ ha) (lt_irrefl _)
      · intro id hid
        rw [hissued] at hid
        rcases List.mem_append.mp hid with hid | hid
        · exact Nat.lt_succ_of_lt (hf.below id hid)
        · obtain rfl := List.mem_singleton.mp hid
          exact Nat.lt_succ_self _
    · have hissued : (s.step (.inside e)).issued = s.issued := by
        simp [Life.step, issuedBy_of_ne s.session hb]
      have hfresh : (s.step (.inside e)).Fresh k :=
        ⟨hissued ▸ hf.nodup, fun id hid => hf.below id (hissued ▸ hid)⟩
      by_cases hc : ∃ members, e = .commit members
      · obtain ⟨members, rfl⟩ := hc
        obtain ⟨n', hn⟩ := h.commit members hord
        exact ⟨n', k, hn, hfresh⟩
      · have hne : ∀ members, e ≠ .commit members := fun members heq => hc ⟨members, heq⟩
        refine ⟨n, k, ⟨Session.Counts.step h.session hb hne, ?_⟩, hfresh⟩
        simpa [Life.step, committedBy_of_ne s.session hne] using h.committed

theorem Fresh.run [SerdeJson] {events : List LifeEvent} (h : s.Sound n k) (hf : s.Fresh k)
    (hord : Meets InOrder s events) (hex : Meets Exhausted s events) :
    (s.run events).issued.Nodup := by
  induction events generalizing s n k with
  | nil => exact hf.nodup
  | cons e rest ih =>
    obtain ⟨n', k', h', hf'⟩ := hf.step h hord.1 hex.1
    exact ih h' hf' hord.2 hex.2

end Step

-- A file that is created now.
def Created (db : Database) : Prop :=
  ∃ wal, wal.frames = [] ∧ wal.buffer = [] ∧ Database.openWithOptions none wal false = .ok db

theorem sound_start {db : Database} (h : Created db) : (start db).Sound 1 1 ∧ (start db).Fresh 1 := by
  obtain ⟨wal, hframes, hbuffer, hopen⟩ := h
  have hcounts : db.Counts 1 1 :=
    (counts_openWithOptions (by simp) (fun _ => rfl) (by simp [hframes, HeaderFrames]) hbuffer hopen).1
  exact ⟨⟨⟨hcounts, by simp [start]⟩, by simp [start]⟩, List.nodup_nil, by simp [start]⟩

-- What a transaction sees of a stored version.
def seen (tx : Transaction) (d : DocPage) : Bool :=
  (VersionedDocument.mk d.id (some d.data) d.xmin d.xmax).isVisible tx.snapshotId

theorem seen_of_lt {db : Database} {tx : Transaction} {d : DocPage}
    (hlast : db.txManager.lastCommittedTxId = n - 1) (hbegin : (Proc.exec begin () db).1 = .ok tx)
    (hd : d.xmin < n ∧ d.xmax = 0) : seen tx d = true := by
  obtain ⟨tx', he, _, hsnap, _⟩ := begin_eq db
  rw [he] at hbegin
  obtain rfl := Except.ok.inj hbegin
  have hle : ¬ d.xmin > tx'.snapshotId := by
    rw [hsnap, hlast]
    exact Nat.not_lt.mpr (Nat.le_sub_one_of_lt hd.1)
  simp [seen, VersionedDocument.isVisible, hle, hd.2]

-- The counter in the file is above the version of every committed document as long as batches
-- are committed in the order of their ids. Ids are then also handed out once, unless the file is
-- closed before a commit has set the counter past them.
theorem counter_dominates [SerdeJson] {db : Database} (hnew : Created db) {events : List LifeEvent}
    (hord : Meets InOrder (start db) events) :
    HeaderSays ((start db).run events).session.db.pager.nextTxId
      ((start db).run events).session.db.pager.file ∧
    (∀ d ∈ ((start db).run events).committed,
      d.xmin < ((start db).run events).session.db.pager.nextTxId) ∧
    (∀ db' tx, ((start db).run events).session.db.reopen = .ok db' →
      (Proc.exec begin () db').1 = .ok tx → ∀ d ∈ ((start db).run events).committed, seen tx d = true) ∧
    (Meets Exhausted (start db) events → ((start db).run events).issued.Nodup) := by
  obtain ⟨hsound, hfresh⟩ := sound_start hnew
  obtain ⟨n, k, h⟩ := hsound.run hord
  have hnext := h.session.db.pager.next
  refine ⟨?_, ?_, ?_, fun hex => hfresh.run hsound hord hex⟩
  · rw [hnext]
    exact h.session.db.pager.header
  · intro d hd
    rw [hnext]
    exact (h.committed d hd).1
  · intro db' tx hre hbegin d hd
    obtain ⟨_, hlast⟩ := counts_reopen h.session.db hre
    exact seen_of_lt hlast hbegin (h.committed d hd)

-- Two transactions write one document each, and the second one commits first or last.
def twoWriters (commits : List (List Nat)) : List LifeEvent :=
  [.inside .begin, .inside .begin,
    .inside (.collection 1 "a"), .inside (.call 1 (.insert "" (.obj [("_id", .str "x")]))),
    .inside (.release 1), .inside (.collection 0 "a"),
    .inside (.call 0 (.insert "" (.obj [("_id", .str "y")]))), .inside (.release 0)] ++
  commits.map fun members => .inside (.commit members)

attribute [local instance] SerdeJson.exact

theorem counter_dominates_two : ∃ db,
    Database.openWithOptions none .empty false = .ok db ∧
    ((start db).run (twoWriters [[0], [1]])).committed.map DocPage.xmin = [1, 2] ∧
    ((start db).run (twoWriters [[0], [1]])).issued.Nodup ∧
    ∀ d ∈ ((start db).run (twoWriters [[0], [1]])).committed,
      d.xmin < ((start db).run (twoWriters [[0], [1]])).session.db.pager.nextTxId := by
  have hmeets : ∃ db, Database.openWithOptions none .empty false = .ok db ∧
      Meets InOrder (start db) (twoWriters [[0], [1]]) ∧
      Meets Exhausted (start db) (twoWriters [[0], [1]]) ∧
      ((start db).run (twoWriters [[0], [1]])).committed.map DocPage.xmin = [1, 2] := by
    decide +kernel
  obtain ⟨db, hopen, hord, hex, hids⟩ := hmeets
  obtain ⟨_, hlt, _, hnodup⟩ := counter_dominates ⟨.empty, rfl, rfl, hopen⟩ hord
  exact ⟨db, hopen, hids, hnodup hex, hlt⟩

-- The first transaction commits last: the counter falls back to 2, which is the version of the
-- other document. After a restart that document cannot be seen, and 2 is handed out again.
theorem counter_overtaken : ∃ db,
    Database.openWithOptions none .empty false = .ok db ∧
    (∃ d ∈ ((start db).run (twoWriters [[1], [0]])).committed,
      ¬ d.xmin < ((start db).run (twoWriters [[1], [0]])).session.db.pager.nextTxId) ∧
    ¬ ((start db).run (twoWriters [[1], [0]] ++ [.reopen, .inside .begin])).issued.Nodup ∧
    ∃ db', ((start db).run (twoWriters [[1], [0]])).session.db.reopen = .ok db' ∧
      ∃ tx, (Proc.exec begin () db').1 = .ok tx ∧
        ∃ d ∈ ((start db).run (twoWriters [[1], [0]])).committed, seen tx d = false := by
  decide +kernel

end Life

end JasonDb
