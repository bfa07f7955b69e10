import JasonDb.Lib.Ledger
import JasonDb.Transaction.CommitBatched
import Mathlib.Data.List.Infix

namespace JasonDb.CommitBatched

open Lib

variable {Thread : Type} {config : BatchConfig} {s : State Thread} {t u : Thread}

def executedIds (history : List (Event Thread)) : List Nat :=
  history.flatMap fun
    | .executed ids => ids
    | _ => []

def completedIds (history : List (Event Thread)) : List Nat :=
  history.flatMap fun
    | .completed id => [id]
    | _ => []

-- The request of a thread has been executed and completed once.
structure Served (history : List (Event Thread)) (t : Thread) (id : Nat) : Prop where
  submitted : .submitted t id ∈ history
  executed : (executedIds history).count id = 1
  completed : (completedIds history).count id = 1

-- Every request is executed and completed at most once, both have happened when its owner
-- returns, no leader found an empty batch, and no request is left behind.
structure ExactlyOnce (s : State Thread) : Prop where
  executed : ∀ id, (executedIds s.history).count id ≤ 1
  completed : ∀ id, (completedIds s.history).count id ≤ 1
  returned : ∀ before t id, before ++ [.returned t id] <+: s.history → Served before t id
  notEmpty : ∀ t, s.phase t ≠ .failed
  drained : (∀ t, s.phase t = .outside) → s.queue = []

-- The phase of the thread that has `commit_mu`.
def State.holding (s : State Thread) : Phase :=
  match s.commitMu with
  | none => .outside
  | some t => s.phase t

def State.owns (s : State Thread) (t : Thread) : Option Nat := (s.phase t).own

def ids (requests : List Request) : List Nat := requests.map Request.id

structure Inv (s : State Thread) : Prop where
  ledger : Ledger (· < s.nextId) s.owns s.completion (ids s.queue ++ ids s.holding.batch)
    (ids s.holding.owed) (executedIds s.history) (completedIds s.history)
  locked : ∀ t, (s.phase t).holds = true ↔ s.commitMu = some t
  ready : ∀ t own, s.phase t = .collecting own [] → s.queue ≠ []
  notFailed : ∀ t, s.phase t ≠ .failed
  submitted : ∀ t id, s.owns t = some id → .submitted t id ∈ s.history
  returned : ∀ before t id, before ++ [.returned t id] <+: s.history → Served before t id

theorem inv_initial : Inv (initial : State Thread) where
  ledger := by
    refine ⟨?_, List.nodup_nil, List.Perm.refl _, ?_, ?_, ?_, ?_⟩ <;>
      simp [initial, ids, State.holding, State.owns, Phase.own, Phase.batch, Phase.owed, executedIds]
  locked t := by simp [initial, Phase.holds]
  ready t own h := by simp [initial] at h
  notFailed t h := by simp [initial] at h
  submitted t id h := by simp [initial, State.owns, Phase.own] at h
  returned before t id h := by simp [initial] at h

theorem Inv.exactlyOnce (h : Inv s) : ExactlyOnce s where
  executed id := List.nodup_iff_count_le_one.mp h.ledger.executed_nodup id
  completed id := List.nodup_iff_count_le_one.mp h.ledger.completed_nodup id
  returned := h.returned
  notEmpty := h.notFailed
  drained hout := by
    rw [List.eq_nil_iff_forall_not_mem]
    intro p hp
    have hid : p.id ∈ ids s.queue := List.mem_map_of_mem hp
    obtain ⟨t, ht⟩ := h.ledger.owned p.id (by simp [hid])
    simp [State.owns, hout t, Phase.own] at ht

theorem Inv.holding_eq (h : Inv s) (ht : (s.phase t).holds = true) : s.holding = s.phase t := by
  simp only [State.holding, (h.locked t).mp ht]

variable [DecidableEq Thread]

theorem owns_become (s : State Thread) (t : Thread) (phase : Phase) :
    (s.become t phase).owns = Function.update s.owns t phase.own := by
  funext u
  by_cases hu : u = t
  · simp [hu, State.owns, State.become]
  · simp [State.owns, State.become, Function.update_of_ne hu]

theorem owns_become_self {phase : Phase} (ht : phase.own = (s.phase t).own) :
    (s.become t phase).owns = s.owns := by
  rw [owns_become, ht]
  exact Function.update_eq_self t s.owns

theorem holding_become {phase : Phase} (ht : s.commitMu = some t) :
    (s.become t phase).holding = phase := by
  simp [State.holding, State.become, ht]

theorem holding_become_of_ne {phase : Phase} (ht : s.commitMu ≠ some t) :
    (s.become t phase).holding = s.holding := by
  cases hmu : s.commitMu with
  | none => simp [State.holding, State.become, hmu]
  | some u =>
    have hu : u ≠ t := fun e => ht (by rw [hmu, e])
    simp [State.holding, State.become, hmu, Function.update_of_ne hu]

theorem phase_become_of_ne {phase : Phase} (hu : u ≠ t) : (s.become t phase).phase u = s.phase u :=
  Function.update_of_ne hu _ _

theorem phase_become_self {phase : Phase} : (s.become t phase).phase t = phase :=
  Function.update_self ..

theorem forall_become {P : Thread → Phase → Prop} {phase : Phase} (ht : P t phase)
    (hothers : ∀ u, u ≠ t → P u (s.phase u)) (u : Thread) : P u ((s.become t phase).phase u) := by
  by_cases hu : u = t
  · rw [hu, phase_become_self]
    exact ht
  · rw [phase_become_of_ne hu]
    exact hothers u hu

omit [DecidableEq Thread] in
theorem returned_log {history : List (Event Thread)} {event : Event Thread}
    (h : ∀ before t id, before ++ [.returned t id] <+: history → Served before t id)
    (hevent : ∀ t id, event = .returned t id → Served history t id) (before : List (Event Thread))
    (t : Thread) (id : Nat) (hpre : before ++ [.returned t id] <+: history ++ [event]) :
    Served before t id := by
  rcases List.prefix_concat_iff.mp hpre with heq | hold
  · obtain ⟨rfl, hlast⟩ := List.append_inj' heq rfl
    exact hevent t id (List.singleton_inj.mp hlast).symm
  · exact h before t id hold

omit [DecidableEq Thread] in
theorem Inv.not_holds (h : Inv s) (ht : s.commitMu = some t) (hu : u ≠ t) :
    (s.phase u).holds = false := by
  rw [← Bool.not_eq_true, h.locked u, ht]
  exact fun e => hu (Option.some.inj e).symm

omit [DecidableEq Thread] in
theorem Inv.not_collecting (h : Inv s) (ht : s.commitMu = some t) (hu : u ≠ t) {own : Nat}
    {batch : List Request} : s.phase u ≠ .collecting own batch := by
  intro hphase
  have hnot := h.not_holds ht hu
  rw [hphase] at hnot
  cases hnot

-- The holder of `commit_mu` goes on with the requests it has.
theorem Inv.proceed (h : Inv s) {phase : Phase} (queue : List Request)
    (ht : (s.phase t).holds = true) (hholds : phase.holds = true) (hown : phase.own = (s.phase t).own)
    (hperm : (ids s.queue ++ ids (s.phase t).batch).Perm (ids queue ++ ids phase.batch))
    (howed : phase.owed = (s.phase t).owed)
    (hready : ∀ own, phase = .collecting own [] → queue ≠ []) :
    Inv (State.become { s with queue } t phase) := by
  have hmu := (h.locked t).mp ht
  have howns : (State.become { s with queue } t phase).owns = s.owns :=
    owns_become_self (s := { s with queue }) hown
  refine ⟨?_, ?_, ?_, ?_, ?_, h.returned⟩
  · have hledger := h.ledger
    rw [h.holding_eq ht] at hledger
    rw [howns, holding_become (s := { s with queue }) hmu, howed]
    exact hledger.perm hperm
  · apply forall_become (P := fun u ph => ph.holds = true ↔ s.commitMu = some u)
    · simp [hholds, hmu]
    · exact fun u _ => h.locked u
  · apply forall_become (P := fun _ ph => ∀ own, ph = .collecting own [] → queue ≠ [])
    · exact hready
    · exact fun u hu own hcollect => absurd hcollect (h.not_collecting hmu hu)
  · apply forall_become (P := fun _ ph => ph ≠ .failed)
    · rintro rfl
      cases hholds
    · exact fun u _ => h.notFailed u
  · intro u id hid
    rw [howns] at hid
    exact h.submitted u id hid

theorem inv_enqueue (h : Inv s) (ht : s.phase t = .outside) (write : PendingWrite) :
    Inv (enqueue s t write) := by
  have hmu : s.commitMu ≠ some t := by
    rw [Ne, ← h.locked t, ht]
    simp [Phase.holds]
  have howns : (enqueue s t write).owns = Function.update s.owns t (some s.nextId) :=
    owns_become ..
  have hholding : (enqueue s t write).holding = s.holding :=
    holding_become_of_ne (s := { s with queue := _, nextId := _ }) hmu
  refine ⟨?_, ?_, ?_, ?_, ?_, ?_⟩
  · have hnew : Ledger (· < s.nextId + 1) (Function.update s.owns t (some s.nextId)) s.completion
        (ids s.queue ++ ids s.holding.batch ++ [s.nextId]) (ids s.holding.owed)
        (executedIds s.history) (completedIds s.history) :=
      h.ledger.submit (by simp [State.owns, ht, Phase.own]) (by omega) (by intro j hj; omega)
        (by omega)
    have hwaiting : (ids s.queue ++ ids s.holding.batch ++ [s.nextId]).Perm
        (ids (s.queue ++ [⟨s.nextId, write⟩]) ++ ids s.holding.batch) := by
      simp only [ids, List.map_append, List.map_cons, List.map_nil, List.append_assoc]
      exact List.perm_append_comm.append_left _
    rw [howns, hholding]
    simpa [enqueue, State.log, State.become, executedIds, completedIds] using hnew.perm hwaiting
  · apply forall_become (P := fun u ph => ph.holds = true ↔ s.commitMu = some u)
    · simp [hmu, Phase.holds]
    · exact fun u _ => h.locked u
  · apply forall_become (P := fun _ ph => ∀ own, ph = .collecting own [] → (enqueue s t write).queue ≠ [])
    · simp
    · simp [enqueue, State.log, State.become]
  · apply forall_become (P := fun _ ph => ph ≠ .failed)
    · simp
    · exact fun u _ => h.notFailed u
  · intro u id hid
    rw [howns] at hid
    by_cases hu : u = t
    · rw [hu, Function.update_self] at hid
      simp [enqueue, State.log, State.become, hu, Option.some.inj hid]
    · rw [Function.update_of_ne hu] at hid
      exact List.mem_append_left _ (h.submitted u id hid)
  · exact returned_log h.returned (by simp)

-- A step that changes neither the queue nor a result, and the holder of `commit_mu` has no
-- request in its hands before and after it.
theorem Inv.hand (h : Inv s) {mu : Option Thread} {phase : Phase}
    (hown : phase.own = (s.phase t).own) (hbatch : s.holding.batch = []) (howed : s.holding.owed = [])
    (hbatch' : (State.become { s with commitMu := mu } t phase).holding.batch = [])
    (howed' : (State.become { s with commitMu := mu } t phase).holding.owed = [])
    (hlocked : ∀ u, ((State.become { s with commitMu := mu } t phase).phase u).holds = true ↔
      mu = some u)
    (hfailed : phase ≠ .failed) (hcollecting : ∀ own, phase ≠ .collecting own []) :
    Inv (State.become { s with commitMu := mu } t phase) := by
  have howns : (State.become { s with commitMu := mu } t phase).owns = s.owns :=
    owns_become_self (s := { s with commitMu := mu }) hown
  refine ⟨?_, hlocked, ?_, ?_, ?_, h.returned⟩
  · have hledger := h.ledger
    rw [hbatch, howed] at hledger
    rw [howns, hbatch', howed']
    exact hledger
  · apply forall_become (P := fun _ ph => ∀ own, ph = .collecting own [] → s.queue ≠ [])
    · exact fun own hcollect => absurd hcollect (hcollecting own)
    · exact fun u _ => h.ready u
  · apply forall_become (P := fun _ ph => ph ≠ .failed)
    · exact hfailed
    · exact fun u _ => h.notFailed u
  · intro u id hid
    rw [howns] at hid
    exact h.submitted u id hid

theorem inv_lock (h : Inv s) {own : Nat} (ht : s.phase t = .submitted own) : Inv (lock s t own) := by
  unfold lock
  split
  case h_2 => exact h
  case h_1 hmu =>
  have hnone : ∀ u, (s.phase u).holds = false := by
    intro u
    rw [← Bool.not_eq_true, h.locked u, hmu]
    simp
  have hholding : (State.become { s with commitMu := some t } t (.checking own)).holding =
      .checking own := holding_become (s := { s with commitMu := some t }) rfl
  apply h.hand
  · rw [ht]
    rfl
  · simp [State.holding, hmu, Phase.batch]
  · simp [State.holding, hmu, Phase.owed]
  · rw [hholding]
    rfl
  · rw [hholding]
    rfl
  · apply forall_become (P := fun u ph => ph.holds = true ↔ some t = some u)
    · simp [Phase.holds]
    · intro u hu
      simp [hnone u, Ne.symm hu]
  · simp
  · simp

theorem inv_release (h : Inv s) {own : Nat} (hholds : (s.phase t).holds = true)
    (hown : (s.phase t).own = some own) (hbatch : (s.phase t).batch = [])
    (howed : (s.phase t).owed = []) : Inv (release s t own) := by
  have hmu := (h.locked t).mp hholds
  apply h.hand
  · exact hown.symm
  · rw [h.holding_eq hholds, hbatch]
  · rw [h.holding_eq hholds, howed]
  · rfl
  · rfl
  · apply forall_become (P := fun u ph => ph.holds = true ↔ none = some u)
    · simp [Phase.holds]
    · intro u hu
      simp [h.not_holds hmu hu]
  · simp
  · simp

theorem inv_check (h : Inv s) {own : Nat} (ht : s.phase t = .checking own) : Inv (check s t own) := by
  have hholds : (s.phase t).holds = true := by rw [ht]; rfl
  have hmine : s.owns t = some own := by simp [State.owns, ht, Phase.own]
  unfold check
  split
  · apply h.proceed s.queue hholds rfl
    all_goals simp [ht, Phase.own, Phase.batch, Phase.owed]
  · rename_i hcell
    -- the request is neither executed nor in the hands of a leader
    have hmem : own ∈ ids s.queue := by
      rcases h.ledger.kept t own hmine with hid | hid | hid
      · rw [h.holding_eq hholds, ht] at hid
        simpa [Phase.batch, ids] using hid
      · rw [h.holding_eq hholds, ht] at hid
        simp [Phase.owed, ids] at hid
      · simp [hcell] at hid
    apply h.proceed s.queue hholds rfl
    · rw [ht]
      rfl
    · rw [ht]
      exact List.Perm.refl _
    · rw [ht]
      rfl
    · rintro - - hnil
      rw [hnil] at hmem
      simp [ids] at hmem

omit [DecidableEq Thread] in
theorem ids_pop_perm (p : Request) (rest batch : List Request) :
    (ids (p :: rest) ++ ids batch).Perm (ids rest ++ ids (p :: batch)) := by
  simp only [ids, List.map_cons, List.cons_append]
  exact List.perm_middle.symm

omit [DecidableEq Thread] in
theorem ids_push_perm (p : Request) (rest batch : List Request) :
    (ids (p :: rest) ++ ids batch).Perm (ids rest ++ ids (batch ++ [p])) := by
  apply (ids_pop_perm p rest batch).trans
  apply List.Perm.append_left
  simp only [ids, List.map_append, List.map_cons, List.map_nil]
  exact (List.perm_append_singleton _ _).symm

theorem inv_collect (h : Inv s) {own : Nat} {batch : List Request} (timeout : Bool)
    (ht : s.phase t = .collecting own batch) : Inv (collect config s t own batch timeout) := by
  have hholds : (s.phase t).holds = true := by rw [ht]; rfl
  have hbatch : (s.phase t).batch = batch := by rw [ht]; rfl
  unfold collect
  split
  · rename_i p rest hqueue
    simp only
    split
    · apply h.proceed rest hholds rfl
      · rw [ht]
        rfl
      · rw [hqueue, hbatch]
        exact ids_pop_perm p rest batch
      · rw [ht]
        rfl
      · simp
    · split
      · apply h.proceed rest hholds rfl
        · rw [ht]
          rfl
        · rw [hqueue, hbatch]
          exact ids_push_perm p rest batch
        · rw [ht]
          rfl
        · simp
      · apply h.proceed rest hholds rfl
        · rw [ht]
          rfl
        · rw [hqueue, hbatch]
          exact ids_push_perm p rest batch
        · rw [ht]
          rfl
        · simp
  · rename_i hqueue
    have hne : batch.isEmpty = false := by
      rw [List.isEmpty_eq_false_iff]
      rintro rfl
      exact h.ready t own ht hqueue
    rw [hne]
    simp only [Bool.false_eq_true, ite_false]
    split
    · apply h.proceed s.queue hholds rfl
      · rw [ht]
        rfl
      · rw [hbatch]
        exact List.Perm.refl _
      · rw [ht]
        rfl
      · simp
    · exact h

theorem inv_putBack (h : Inv s) {own : Nat} {batch : List Request} {conflicting : Request}
    (ht : s.phase t = .returning own batch conflicting) :
    Inv (putBack s t own batch conflicting) := by
  have hholds : (s.phase t).holds = true := by rw [ht]; rfl
  apply h.proceed (conflicting :: s.queue) hholds rfl
  · rw [ht]
    rfl
  · rw [ht]
    exact (ids_pop_perm conflicting s.queue batch).symm
  · rw [ht]
    rfl
  · simp

theorem inv_decideNext (h : Inv s) {own : Nat} (ht : s.phase t = .deciding own) :
    Inv (decideNext s t own) := by
  have hholds : (s.phase t).holds = true := by rw [ht]; rfl
  unfold decideNext
  split
  · apply h.proceed s.queue hholds rfl
    all_goals simp [ht, Phase.own, Phase.batch, Phase.owed]
  · rename_i hqueue
    apply h.proceed s.queue hholds rfl
    all_goals simp [ht, hqueue, Phase.own, Phase.batch, Phase.owed]

-- The holder of `commit_mu` executes its batch or sets a result.
theorem Inv.emit (h : Inv s) {phase : Phase} {completion : Nat → Option (Except Error Unit)}
    {event : Event Thread} (ht : (s.phase t).holds = true) (hholds : phase.holds = true)
    (hown : phase.own = (s.phase t).own) (hcollecting : ∀ own, phase ≠ .collecting own [])
    (hevent : ∀ u id, event ≠ .returned u id)
    (hledger : Ledger (· < s.nextId) s.owns completion (ids s.queue ++ ids phase.batch)
      (ids phase.owed) (executedIds (s.history ++ [event])) (completedIds (s.history ++ [event]))) :
    Inv ((State.become { s with completion } t phase).log event) := by
  have hmu := (h.locked t).mp ht
  have howns : ((State.become { s with completion } t phase).log event).owns = s.owns :=
    owns_become_self (s := { s with completion }) hown
  have hholding : ((State.become { s with completion } t phase).log event).holding = phase :=
    holding_become (s := { s with completion }) hmu
  refine ⟨?_, ?_, ?_, ?_, ?_, ?_⟩
  · rw [howns, hholding]
    exact hledger
  · apply forall_become (P := fun u ph => ph.holds = true ↔ s.commitMu = some u)
    · simp [hholds, hmu]
    · exact fun u _ => h.locked u
  · apply forall_become (P := fun _ ph => ∀ own, ph = .collecting own [] → s.queue ≠ [])
    · exact fun own hcollect => absurd hcollect (hcollecting own)
    · exact fun u _ => h.ready u
  · apply forall_become (P := fun _ ph => ph ≠ .failed)
    · rintro rfl
      cases hholds
    · exact fun u _ => h.notFailed u
  · intro u id hid
    rw [howns] at hid
    exact List.mem_append_left _ (h.submitted u id hid)
  · exact returned_log h.returned fun u id he => absurd he (hevent u id)

theorem inv_execute (h : Inv s) {own : Nat} {batch : List Request} (result : Except Error Unit)
    (ht : s.phase t = .executing own batch) : Inv (execute s t own batch result) := by
  have hholds : (s.phase t).holds = true := by rw [ht]; rfl
  have hledger := h.ledger
  rw [h.holding_eq hholds, ht] at hledger
  apply h.emit hholds rfl
  · rw [ht]
    rfl
  · simp
  · simp
  · simpa [executedIds, completedIds, Phase.batch, Phase.owed, ids] using Ledger.execute hledger

theorem inv_notify (h : Inv s) {own : Nat} {result : Except Error Unit} {rest : List Request}
    (ht : s.phase t = .notifying own result rest) : Inv (notify s t own result rest) := by
  have hholds : (s.phase t).holds = true := by rw [ht]; rfl
  cases rest with
  | nil =>
    apply h.proceed s.queue hholds rfl
    all_goals simp [ht, Phase.own, Phase.batch, Phase.owed]
  | cons p rest =>
    have hledger := h.ledger
    rw [h.holding_eq hholds, ht] at hledger
    apply h.emit hholds rfl
    · rw [ht]
      rfl
    · simp
    · simp
    · simpa [executedIds, completedIds, Phase.batch, Phase.owed, ids] using
        Ledger.complete hledger result

theorem inv_take (h : Inv s) {own : Nat} (ht : s.phase t = .waiting own) : Inv (take s t own) := by
  unfold take
  split
  case h_2 => exact h
  case h_1 result hcell =>
  have hmine : s.owns t = some own := by simp [State.owns, ht, Phase.own]
  have hset : (s.completion own).isSome := by simp [hcell]
  have hmu : s.commitMu ≠ some t := by
    rw [Ne, ← h.locked t, ht]
    simp [Phase.holds]
  have hcompleted := h.ledger.cells own hset
  have hserved : Served s.history t own := by
    refine ⟨h.submitted t own hmine, ?_, ?_⟩
    · exact List.count_eq_one_of_mem h.ledger.executed_nodup
        (h.ledger.executed_of_completed hcompleted)
    · exact List.count_eq_one_of_mem h.ledger.completed_nodup hcompleted
  have howns : (take s t own).owns = Function.update s.owns t none := by
    simp only [take, hcell]
    exact owns_become ..
  have hholding : (take s t own).holding = s.holding := by
    simp only [take, hcell]
    exact holding_become_of_ne (s := { s with completion := _ }) hmu
  simp only [take, hcell] at howns hholding
  refine ⟨?_, ?_, ?_, ?_, ?_, ?_⟩
  · have hledger := h.ledger.take hmine hset
    rw [howns, hholding]
    simpa [State.log, State.become, executedIds, completedIds] using hledger
  · apply forall_become (P := fun u ph => ph.holds = true ↔ s.commitMu = some u)
    · simp [Phase.holds, hmu]
    · exact fun u _ => h.locked u
  · apply forall_become (P := fun _ ph => ∀ own, ph = .collecting own [] → s.queue ≠ [])
    · simp
    · exact fun u _ => h.ready u
  · apply forall_become (P := fun _ ph => ph ≠ .failed)
    · simp
    · exact fun u _ => h.notFailed u
  · intro u id hid
    rw [howns] at hid
    by_cases hu : u = t
    · rw [hu, Function.update_self] at hid
      cases hid
    · rw [Function.update_of_ne hu] at hid
      exact List.mem_append_left _ (h.submitted u id hid)
  · apply returned_log h.returned
    intro u id he
    obtain ⟨rfl, rfl⟩ := Event.returned.inj he
    exact hserved

theorem inv_step (h : Inv s) (t : Thread) (input : Input) : Inv (step config s t input) := by
  unfold step
  split
  case h_1 ht => exact inv_enqueue h ht input.write
  case h_2 ht => exact inv_lock h ht
  case h_3 ht => exact inv_check h ht
  case h_4 ht => exact inv_release h (by rw [ht]; rfl) (by rw [ht]; rfl) (by rw [ht]; rfl) (by rw [ht]; rfl)
  case h_5 ht => exact inv_collect h input.timeout ht
  case h_6 ht => exact inv_putBack h ht
  case h_7 ht => exact inv_execute h input.result ht
  case h_8 ht => exact inv_notify h ht
  case h_9 ht => exact inv_decideNext h ht
  case h_10 ht => exact inv_release h (by rw [ht]; rfl) (by rw [ht]; rfl) (by rw [ht]; rfl) (by rw [ht]; rfl)
  case h_11 ht => exact inv_take h ht
  case h_12 => exact h

theorem inv_run (h : Inv s) (schedule : List (Thread × Input)) : Inv (run config s schedule) := by
  induction schedule generalizing s with
  | nil => exact h
  | cons next rest ih => exact ih (inv_step h next.1 next.2)

-- Whatever the threads, the batch size and the order of their steps.
theorem commitBatched_exactlyOnce (config : BatchConfig) (schedule : List (Thread × Input)) :
    ExactlyOnce (run config (initial : State Thread) schedule) :=
  (inv_run inv_initial schedule).exactlyOnce

def oneDocument : PendingWrite where
  writes := ∅
  docWrites := (∅ : HashMap _ _).insert "users" ((∅ : HashMap _ _).insert "a" (some 3))
  snapshotRoots := ∅
  updatedRoots := ∅
  oldVersions := ∅
  modifiedCollections := ∅
  docExistedInSnapshot := ∅
  docOriginalXmin := ∅
  txId := 0
  snapshotId := 0
  mvccTxId := 0

-- The first of two threads pops the conflicting request of the second, puts it back and
-- commits it in its next batch; the second finds its result there.
example :
    let turn := fun (t : Bool) => (t, (⟨oneDocument, true, .ok ()⟩ : Input))
    let s := run .default initial ([turn true, turn false] ++ List.replicate 17 (turn true) ++
      List.replicate 4 (turn false))
    executedIds s.history = [0, 1] ∧ completedIds s.history = [0, 1] ∧
      (s.phase true).own = none ∧ (s.phase false).own = none := by decide +kernel

end JasonDb.CommitBatched
