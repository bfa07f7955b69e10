import JasonDb.Session
import JasonDb.TxCollection.Grants

namespace JasonDb

open Lib

variable {J : Database → Prop} {G : PageNum → Prop} {W : TransactionID → Page → Prop} {s : Session}

-- The pages of a transaction are of `G`, with contents that `W` lets it write.
def Transaction.Within (G : PageNum → Prop) (W : TransactionID → Page → Prop) (tx : Transaction) :
    Prop :=
  PagesIn G (W tx.mvccTxId) tx.writes

def Party.Within (G : PageNum → Prop) (W : TransactionID → Page → Prop) : Party → Prop
  | .idle tx => tx.Within G W
  | .busy c => TxCollection.Within G (W c.tx.mvccTxId) c.tx.mvccTxId c

structure Session.Within (J : Database → Prop) (G : PageNum → Prop)
    (W : TransactionID → Page → Prop) (s : Session) : Prop where
  db : J s.db
  parties : ∀ p ∈ s.parties, p.Within G W

-- `J` looks neither at the metadata in memory nor at the transactions that are under way.
structure Aloof (J : Database → Prop) : Prop where
  metadata : ∀ db metadata, J db → J { db with metadata }
  versionChains : ∀ db versionChains, J db → J { db with versionChains }
  txManager : ∀ db txManager, txManager.nextTxId = db.txManager.nextTxId → J db →
    J { db with txManager }

section Idle

variable (ha : Aloof J)

include ha

theorem safe_createCollection (name : String) :
    Proc.Safe J (Transaction.Within G W) (fun _ => True) (Transaction.createCollection name) := by
  refine Proc.safe_getLocal.bind fun tx _ => ?_
  split
  · exact Proc.safe_fail _
  · refine safe_getMetadata.bind fun metadata _ => ?_
    split
    · exact Proc.safe_fail _
    · exact Proc.safe_atomic fun db hdb => ⟨ha.metadata db _ hdb, trivial⟩

theorem safe_dropCollection (name : String) :
    Proc.Safe J (Transaction.Within G W) (fun _ => True) (Transaction.dropCollection name) := by
  refine Proc.safe_getLocal.bind fun tx _ => ?_
  split
  · exact Proc.safe_fail _
  · refine safe_getMetadata.bind fun metadata _ => ?_
    split
    · exact Proc.safe_fail _
    · refine (Proc.safe_atomic (Q := fun _ => True) fun db hdb =>
        ⟨ha.metadata db _ hdb, trivial⟩).bind fun _ _ => ?_
      exact Proc.safe_atomic fun db hdb => ⟨ha.versionChains db _ hdb, trivial⟩

theorem safe_renameCollection (oldName newName : String) : Proc.Safe J (Transaction.Within G W)
    (fun _ => True) (Transaction.renameCollection oldName newName) := by
  refine Proc.safe_getLocal.bind fun tx _ => ?_
  split
  · exact Proc.safe_fail _
  · refine safe_getMetadata.bind fun metadata _ => ?_
    split
    · exact Proc.safe_fail _
    · split
      · exact Proc.safe_fail _
      · refine (Proc.safe_atomic (Q := fun _ => True) fun db hdb =>
          ⟨ha.metadata db _ hdb, trivial⟩).bind fun _ _ => ?_
        exact Proc.safe_atomic fun db hdb => ⟨ha.versionChains db _ hdb, trivial⟩

theorem safe_rollback :
    Proc.Safe J (Transaction.Within G W) (fun _ => True) Transaction.rollback := by
  refine Proc.safe_getLocal.bind fun tx _ => ?_
  split
  · exact Proc.safe_fail _
  · refine Proc.Safe.bind (Proc.safe_modifyLocal fun _ _ => pagesIn_empty) fun _ _ => ?_
    exact Proc.safe_atomic fun db hdb => ⟨ha.txManager db _ rfl hdb, trivial⟩

theorem safe_drop :
    Proc.Safe J (Transaction.Within G W) (fun _ => True) Transaction.dropTransaction := by
  refine Proc.safe_getLocal.bind fun tx _ => ?_
  split
  · refine Proc.Safe.bind (Q := fun _ => True) (Proc.safe_atomic fun db hdb =>
      ⟨ha.txManager db _ rfl hdb, trivial⟩) fun _ _ => ?_
    exact Proc.safe_modifyLocal fun _ _ => pagesIn_empty
  · exact Proc.safe_pure trivial

theorem safe_commitNothing :
    Proc.Safe J (Transaction.Within G W) (fun _ => True) Transaction.commitEmpty := by
  refine Proc.safe_getLocal.bind fun tx _ => ?_
  split
  · exact Proc.safe_fail _
  · refine Proc.Safe.bind (Q := fun _ => True) (Proc.safe_modifyLocal fun _ htx => htx) fun _ _ => ?_
    exact Proc.safe_atomic fun db hdb => ⟨ha.txManager db _ rfl hdb, trivial⟩

end Idle

-- A transaction in a batch is one of the parties, and its id and its pages are those of the party.
theorem Session.mem_batch {members : List Nat} {pending : PendingWrite}
    (h : pending ∈ s.batch members) :
    ∃ tx, Party.idle tx ∈ s.parties ∧ pending = tx.prepareWriteRequest := by
  obtain ⟨i, _, hi⟩ := List.mem_filterMap.mp h
  obtain ⟨tx, hq, rfl⟩ := Option.map_eq_some_iff.mp hi
  obtain ⟨p, hp, hqueued⟩ := Option.bind_eq_some_iff.mp hq
  cases p with
  | busy c => cases hqueued
  | idle tx' =>
    simp only [Session.queued] at hqueued
    split at hqueued
    · obtain rfl := Option.some.inj hqueued
      exact ⟨tx', List.mem_of_getElem? hp, rfl⟩
    · cases hqueued

theorem within_markCommitted {p : Party} (h : p.Within G W) :
    (Session.markCommitted p).Within G W := by
  cases p with
  | busy c => exact h
  | idle tx =>
    simp only [Session.markCommitted]
    split
    · exact h
    · exact h

theorem begin_eq (db : Database) : ∃ tx, Proc.exec begin () db = (.ok tx, (), { db with
      txIdCounter := db.txIdCounter + 1
      txManager := { db.txManager with
        nextTxId := db.txManager.nextTxId + 1
        activeTxs := db.txManager.activeTxs.insert db.txManager.nextTxId
          ⟨db.txManager.nextTxId, db.txManager.lastCommittedTxId, .active⟩ } }) ∧
    tx.mvccTxId = db.txManager.nextTxId ∧ tx.snapshotId = db.txManager.lastCommittedTxId ∧
      tx.writes = ∅ := ⟨_, rfl, rfl, rfl, rfl⟩

theorem commitBatch_eq {members : List Nat} {r : Except Error Unit} {l : Unit} {db : Database}
    (he : Proc.exec (Commit.executeBatchCommit (s.leader members) (s.batch members)) () s.db =
      (r, l, db)) : (s.commitBatch members).1 = r ∧ (s.commitBatch members).2.db = db := by
  unfold Session.commitBatch
  rw [he]
  cases r with
  | ok u => exact ⟨rfl, rfl⟩
  | error e => exact ⟨rfl, rfl⟩

namespace Session.Within

theorem batch (h : s.Within J G W) {members : List Nat} :
    ∀ pending ∈ s.batch members, PagesIn G (W pending.mvccTxId) pending.writes := by
  intro pending hmem
  obtain ⟨tx, htx, rfl⟩ := mem_batch hmem
  exact h.parties _ htx

theorem put (h : s.Within J G W) (i : Nat) (p : Party) {db : Database} (hdb : J db)
    (hp : p.Within G W) : (s.put i (p, db)).Within J G W := by
  refine ⟨hdb, ?_⟩
  intro q hq
  rcases List.mem_or_eq_of_mem_set hq with hq | rfl
  · exact h.parties q hq
  · exact hp

theorem onIdle (h : s.Within J G W) (i : Nat) {m : Transaction.TxM Unit}
    (hm : Proc.Safe J (Transaction.Within G W) (fun _ => True) m) :
    (s.onIdle i m).Within J G W := by
  unfold Session.onIdle
  split
  case h_1 tx hi =>
    rcases he : Proc.exec m tx s.db with ⟨r, tx', db'⟩
    obtain ⟨hdb, htx, _⟩ := hm.exec he (h.parties _ (List.mem_of_getElem? hi)) h.db
    exact h.put i (.idle tx') hdb htx
  case h_2 => exact h

theorem releaseHandle (h : s.Within J G W) (i : Nat) : (s.releaseHandle i).Within J G W := by
  unfold Session.releaseHandle
  split
  case h_1 c hi =>
    have hc : TxCollection.Within G (W c.tx.mvccTxId) c.tx.mvccTxId c :=
      h.parties _ (List.mem_of_getElem? hi)
    exact h.put i (.idle c.tx) h.db hc.writes
  case h_2 => exact h

theorem beginTx {J' : Database → Prop} (h : s.Within J G W)
    (hJ : ∀ db, J db → J' { db with
      txIdCounter := db.txIdCounter + 1
      txManager := { db.txManager with
        nextTxId := db.txManager.nextTxId + 1
        activeTxs := db.txManager.activeTxs.insert db.txManager.nextTxId
          ⟨db.txManager.nextTxId, db.txManager.lastCommittedTxId, .active⟩ } }) :
    s.beginTx.Within J' G W := by
  obtain ⟨tx, he, _, _, hw⟩ := begin_eq s.db
  unfold Session.beginTx
  rw [he]
  refine ⟨hJ s.db h.db, ?_⟩
  intro p hp
  rcases List.mem_append.mp hp with hp | hp
  · exact h.parties p hp
  · obtain rfl := List.mem_singleton.mp hp
    rw [Party.Within, Transaction.Within, hw]
    exact pagesIn_empty

section Handles

variable (hJ : ∀ id, Grants J G (W id)) (hnode : ∀ id n, W id (.node n))

include hJ hnode

theorem openHandle (h : s.Within J G W) (i : Nat) (name : String) :
    (s.openHandle i name).Within J G W := by
  unfold Session.openHandle
  split
  case h_1 tx hi =>
    have htx : tx.Within G W := h.parties _ (List.mem_of_getElem? hi)
    have hnew : Proc.Safe J (fun _ : Unit => True)
        (TxCollection.Within G (W tx.mvccTxId) tx.mvccTxId) (TxCollection.new tx name) :=
      TxCollection.safe_new (hJ _) (hnode _) name htx rfl
    split
    case h_1 c _ db' he =>
      obtain ⟨hdb, _, hc⟩ := hnew.exec he trivial h.db
      refine h.put i (.busy c) hdb ?_
      have hwithin := hc c rfl
      rw [Party.Within, hwithin.id]
      exact hwithin
    case h_2 e _ db' he => exact h.put i (.idle tx) (hnew.exec he trivial h.db).1 htx
  case h_2 => exact h

variable (hover : ∀ id part, W id (.overflow part))
  (hdoc : ∀ id docId data overflow, W id (.doc ⟨id, 0, docId, data, overflow⟩))

include hover hdoc

theorem safe_call [SerdeJson] {txId : TransactionID} (op : Call) :
    Proc.Safe J (TxCollection.Within G (W txId) txId) (fun _ => True) op.run := by
  cases op with
  | insert generatedId doc =>
    exact (TxCollection.safe_insert (hJ _) (hnode _) (hover _) fun _ _ _ _ _ _ => hdoc _ _ _ _).bind
      fun _ _ => Proc.safe_pure trivial
  | findById id => exact (TxCollection.safe_findById id).bind fun _ _ => Proc.safe_pure trivial
  | updateById id updates =>
    exact TxCollection.safe_updateById (hJ _) (hnode _) (hover _) fun _ _ _ _ => hdoc _ _ _ _
  | deleteById id => exact TxCollection.safe_deleteById (hJ _) (hnode _) _

theorem onHandle [SerdeJson] (h : s.Within J G W) (i : Nat) (op : Call) :
    (s.onHandle i op.run).Within J G W := by
  unfold Session.onHandle
  split
  case h_1 c hi =>
    have hc : TxCollection.Within G (W c.tx.mvccTxId) c.tx.mvccTxId c :=
      h.parties _ (List.mem_of_getElem? hi)
    rcases he : Proc.exec op.run c s.db with ⟨r, c', db'⟩
    obtain ⟨hdb, hc', _⟩ := (safe_call hJ hnode hover hdoc op).exec he hc h.db
    refine h.put i (.busy c') hdb ?_
    rw [Party.Within, hc'.id]
    exact hc'
  case h_2 => exact h

-- What every event does but the two that add a transaction and that commit.
theorem step [SerdeJson] (ha : Aloof J) (h : s.Within J G W) {e : Event} (hbegin : e ≠ .begin)
    (hcommit : ∀ members, e ≠ .commit members) : (s.step e).Within J G W := by
  cases e with
  | begin => exact absurd rfl hbegin
  | commit members => exact absurd rfl (hcommit members)
  | collection i name => exact h.openHandle hJ hnode i name
  | call i op => exact h.onHandle hJ hnode hover hdoc i op
  | release i => exact h.releaseHandle i
  | createCollection i name => exact h.onIdle i (safe_createCollection ha name)
  | dropCollection i name => exact h.onIdle i (safe_dropCollection ha name)
  | renameCollection i oldName newName => exact h.onIdle i (safe_renameCollection ha oldName newName)
  | commitEmpty i =>
    simp only [Session.step]
    split
    · split
      · exact h.onIdle i (safe_commitNothing ha)
      · exact h
    · exact h
  | rollback i => exact h.onIdle i (safe_rollback ha)
  | dropTransaction i => exact h.onIdle i (safe_drop ha)

end Handles

-- A commit, from what its steps do to the database.
theorem commitBatch {J' : Database → Prop} (h : s.Within J G W) {members : List Nat}
    (hdb : J' (s.commitBatch members).2.db) : (s.commitBatch members).2.Within J' G W := by
  unfold Session.commitBatch at hdb ⊢
  split at hdb
  case h_1 u l db' he =>
    simp only
    refine ⟨hdb, ?_⟩
    intro q hq
    obtain ⟨i, hi, rfl⟩ := List.mem_mapIdx.mp hq
    have hp := h.parties _ (List.getElem_mem hi)
    split
    · exact within_markCommitted hp
    · exact hp
  case h_2 e l db' he =>
    simp only
    exact ⟨hdb, h.parties⟩

end Session.Within

end JasonDb
