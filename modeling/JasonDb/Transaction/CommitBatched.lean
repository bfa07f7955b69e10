import JasonDb.Transaction.Commit
import Mathlib.Logic.Function.Basic

namespace JasonDb.CommitBatched

-- A `PendingWrite`; its number stands for the `completion` made with it.
structure Request where
  id : Nat
  write : PendingWrite

-- Where a thread is in `commit_batched`, with its local variables. `own` is its request.
inductive Phase
  | outside
  -- pushed to the queue, before `commit_mu`
  | submitted (own : Nat)
  -- from here to `finishing` it has `commit_mu`
  | checking (own : Nat)
  | leaving (own : Nat)
  | collecting (own : Nat) (batch : List Request)
  -- a request was popped that conflicts with the batch
  | returning (own : Nat) (batch : List Request) (conflicting : Request)
  | executing (own : Nat) (batch : List Request)
  | notifying (own : Nat) (result : Except Error Unit) (rest : List Request)
  | deciding (own : Nat)
  | finishing (own : Nat)
  | waiting (own : Nat)
  -- returned with the error of an empty batch
  | failed

namespace Phase

def own : Phase → Option Nat
  | .outside | .failed => none
  | .submitted own | .checking own | .leaving own | .collecting own _ | .returning own _ _
  | .executing own _ | .notifying own _ _ | .deciding own | .finishing own | .waiting own => some own

def holds : Phase → Bool
  | .checking _ | .leaving _ | .collecting _ _ | .returning _ _ _ | .executing _ _
  | .notifying _ _ _ | .deciding _ | .finishing _ => true
  | .outside | .submitted _ | .waiting _ | .failed => false

-- The requests taken from the queue and not executed.
def batch : Phase → List Request
  | .collecting _ batch | .executing _ batch => batch
  | .returning _ batch conflicting => conflicting :: batch
  | _ => []

-- The requests executed and not notified.
def owed : Phase → List Request
  | .notifying _ _ rest => rest
  | _ => []

end Phase

inductive Event (Thread : Type)
  | submitted (thread : Thread) (id : Nat)
  | executed (ids : List Nat)
  | completed (id : Nat)
  | returned (thread : Thread) (id : Nat)

-- `history` is what happened so far, the oldest first; no step reads it.
structure State (Thread : Type) where
  queue : List Request
  completion : Nat → Option (Except Error Unit)
  nextId : Nat
  commitMu : Option Thread
  phase : Thread → Phase
  history : List (Event Thread)

variable {Thread : Type}

def initial : State Thread where
  queue := []
  completion := fun _ => none
  nextId := 0
  commitMu := none
  phase := fun _ => .outside
  history := []

-- What a step takes from elsewhere: the transaction to commit, whether the time for
-- collecting is over, and what `execute_batch_commit` returns.
structure Input where
  write : PendingWrite
  timeout : Bool
  result : Except Error Unit

def batchDocuments (batch : List Request) : List (String × String) :=
  batch.flatMap fun p => Commit.writtenKeys p.write

def hasConflict (batch : List Request) (p : Request) : Bool :=
  (Commit.writtenKeys p.write).any fun key => decide (key ∈ batchDocuments batch)

variable [DecidableEq Thread]

def State.become (s : State Thread) (t : Thread) (phase : Phase) : State Thread :=
  { s with phase := Function.update s.phase t phase }

def State.log (s : State Thread) (event : Event Thread) : State Thread :=
  { s with history := s.history ++ [event] }

def enqueue (s : State Thread) (t : Thread) (write : PendingWrite) : State Thread :=
  State.log (State.become { s with queue := s.queue ++ [⟨s.nextId, write⟩], nextId := s.nextId + 1 }
    t (.submitted s.nextId)) (.submitted t s.nextId)

def lock (s : State Thread) (t : Thread) (own : Nat) : State Thread :=
  match s.commitMu with
  | none => State.become { s with commitMu := some t } t (.checking own)
  | some _ => s

def check (s : State Thread) (t : Thread) (own : Nat) : State Thread :=
  match s.completion own with
  | some _ => s.become t (.leaving own)
  | none => s.become t (.collecting own [])

-- One turn of the loop of `collect_batch`. A request that conflicts is out of the queue until
-- it is put back.
def collect (config : BatchConfig) (s : State Thread) (t : Thread) (own : Nat)
    (batch : List Request) (timeout : Bool) : State Thread :=
  match s.queue with
  | p :: rest =>
    let s := { s with queue := rest }
    if hasConflict batch p then s.become t (.returning own batch p)
    else if config.maxBatchSize ≤ (batch ++ [p]).length then s.become t (.executing own (batch ++ [p]))
    else s.become t (.collecting own (batch ++ [p]))
  | [] =>
    if batch.isEmpty then State.become { s with commitMu := none } t .failed
    else if timeout then s.become t (.executing own batch)
    else s

def putBack (s : State Thread) (t : Thread) (own : Nat) (batch : List Request)
    (conflicting : Request) : State Thread :=
  State.become { s with queue := conflicting :: s.queue } t (.executing own batch)

def execute (s : State Thread) (t : Thread) (own : Nat) (batch : List Request)
    (result : Except Error Unit) : State Thread :=
  (s.become t (.notifying own result batch)).log (.executed (batch.map Request.id))

def notify (s : State Thread) (t : Thread) (own : Nat) (result : Except Error Unit) :
    List Request → State Thread
  | [] => s.become t (.deciding own)
  | p :: rest =>
    State.log (State.become
      { s with completion := Function.update s.completion p.id (some result) }
      t (.notifying own result rest)) (.completed p.id)

def decideNext (s : State Thread) (t : Thread) (own : Nat) : State Thread :=
  match s.queue with
  | [] => s.become t (.finishing own)
  | _ :: _ => s.become t (.collecting own [])

def release (s : State Thread) (t : Thread) (own : Nat) : State Thread :=
  State.become { s with commitMu := none } t (.waiting own)

-- The thread waits until its result is there, takes it and returns.
def take (s : State Thread) (t : Thread) (own : Nat) : State Thread :=
  match s.completion own with
  | some _ =>
    State.log (State.become { s with completion := Function.update s.completion own none }
      t .outside) (.returned t own)
  | none => s

-- The next atomic step of a thread; one that has to wait stays where it is.
def step (config : BatchConfig) (s : State Thread) (t : Thread) (input : Input) : State Thread :=
  match s.phase t with
  | .outside => enqueue s t input.write
  | .submitted own => lock s t own
  | .checking own => check s t own
  | .leaving own => release s t own
  | .collecting own batch => collect config s t own batch input.timeout
  | .returning own batch conflicting => putBack s t own batch conflicting
  | .executing own batch => execute s t own batch input.result
  | .notifying own result rest => notify s t own result rest
  | .deciding own => decideNext s t own
  | .finishing own => release s t own
  | .waiting own => take s t own
  | .failed => s

def run (config : BatchConfig) : State Thread → List (Thread × Input) → State Thread
  | s, [] => s
  | s, (t, input) :: rest => run config (step config s t input) rest

end JasonDb.CommitBatched
