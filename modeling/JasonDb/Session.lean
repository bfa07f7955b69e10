import JasonDb.Transaction.Client
import JasonDb.Transaction.Commit
import JasonDb.TxCollection

namespace JasonDb

open Lib

-- A transaction in the hands of a client. A collection handle borrows it until it is released.
inductive Party where
  | idle (tx : Transaction)
  | busy (c : TxCollection)

def Party.tx : Party → Transaction
  | .idle tx => tx
  | .busy c => c.tx

inductive Call where
  | insert (generatedId : String) (doc : Json)
  | findById (id : String)
  | updateById (id : String) (updates : Json)
  | deleteById (id : String)

def Call.run [SerdeJson] : Call → TxCollection.M Unit
  | .insert generatedId doc => do
    let _ ← TxCollection.insert generatedId doc
  | .findById id => do
    let _ ← TxCollection.findById id
  | .updateById id updates => TxCollection.updateById id updates
  | .deleteById id => TxCollection.deleteById id

-- The transactions of one process, in the order in which they began.
structure Session where
  db : Database
  parties : List Party

-- Whole calls of the clients, in any order. `commit` has the numbers of the transactions that
-- are committed in one batch.
inductive Event where
  | begin
  | collection (i : Nat) (name : String)
  | call (i : Nat) (op : Call)
  | release (i : Nat)
  | createCollection (i : Nat) (name : String)
  | dropCollection (i : Nat) (name : String)
  | renameCollection (i : Nat) (oldName newName : String)
  | commit (members : List Nat)
  | commitEmpty (i : Nat)
  | rollback (i : Nat)
  | dropTransaction (i : Nat)

namespace Session

def put (s : Session) (i : Nat) (r : Party × Database) : Session := ⟨r.2, s.parties.set i r.1⟩

-- A call on a transaction that no handle has borrowed.
def onIdle (s : Session) (i : Nat) (m : Transaction.TxM Unit) : Session :=
  match s.parties[i]? with
  | some (.idle tx) =>
    let (_, tx, db) := Proc.exec m tx s.db
    s.put i (.idle tx, db)
  | _ => s

-- A handle that cannot be opened leaves the transaction as it was.
def openHandle (s : Session) (i : Nat) (name : String) : Session :=
  match s.parties[i]? with
  | some (.idle tx) => match Proc.exec (TxCollection.new tx name) () s.db with
    | (.ok c, _, db) => s.put i (.busy c, db)
    | (.error _, _, db) => s.put i (.idle tx, db)
  | _ => s

def onHandle (s : Session) (i : Nat) (m : TxCollection.M Unit) : Session :=
  match s.parties[i]? with
  | some (.busy c) =>
    let (_, c, db) := Proc.exec m c s.db
    s.put i (.busy c, db)
  | _ => s

def releaseHandle (s : Session) (i : Nat) : Session :=
  match s.parties[i]? with
  | some (.busy c) => s.put i (.idle c.tx, s.db)
  | _ => s

-- A transaction that goes through the queue when it is committed.
def queued : Party → Option Transaction
  | .idle tx => if tx.isActive && !tx.writes.isEmpty then some tx else none
  | .busy _ => none

def batch (s : Session) (members : List Nat) : List PendingWrite :=
  members.filterMap fun i => (s.parties[i]?.bind queued).map Transaction.prepareWriteRequest

def leader (s : Session) (members : List Nat) : TransactionID :=
  ((s.batch members).head?.map PendingWrite.mvccTxId).getD 0

def markCommitted : Party → Party
  | .idle tx => match queued (.idle tx) with
    | some _ => .idle { tx with state := .committed }
    | none => .idle tx
  | .busy c => .busy c

-- All members get the result of the batch. After an error they are still active.
def commitBatch (s : Session) (members : List Nat) : Except Error Unit × Session :=
  match Proc.exec (Commit.executeBatchCommit (s.leader members) (s.batch members)) () s.db with
  | (.ok _, _, db) => (.ok (), ⟨db, s.parties.mapIdx fun i p =>
      if i ∈ members then markCommitted p else p⟩)
  | (.error e, _, db) => (.error e, ⟨db, s.parties⟩)

def beginTx (s : Session) : Session :=
  match Proc.exec begin () s.db with
  | (.ok tx, _, db) => ⟨db, s.parties ++ [.idle tx]⟩
  | (.error _, _, db) => ⟨db, s.parties⟩

def step [SerdeJson] (s : Session) : Event → Session
  | .begin => s.beginTx
  | .collection i name => s.openHandle i name
  | .call i op => s.onHandle i op.run
  | .release i => s.releaseHandle i
  | .createCollection i name => s.onIdle i (Transaction.createCollection name)
  | .dropCollection i name => s.onIdle i (Transaction.dropCollection name)
  | .renameCollection i oldName newName => s.onIdle i (Transaction.renameCollection oldName newName)
  | .commit members => if (s.batch members).isEmpty then s else (s.commitBatch members).2
  | .commitEmpty i => match s.parties[i]? with
    | some p => if p.tx.writes.isEmpty then s.onIdle i Transaction.commitEmpty else s
    | none => s
  | .rollback i => s.onIdle i Transaction.rollback
  | .dropTransaction i => s.onIdle i Transaction.dropTransaction

end Session

end JasonDb
