import JasonDb.Transaction.ExactlyOnce

namespace JasonDb

open Lib

namespace Commit

variable {seen : HashMap (String × String) Nat} {idx : Nat}

theorem writtenKeys_nodup (pending : PendingWrite) : (writtenKeys pending).Nodup := by
  unfold writtenKeys
  rw [List.nodup_flatMap]
  constructor
  · intro entry _
    exact (HashMap.nodup_keys entry.2).map fun a b h => (Prod.ext_iff.mp h).2
  · have hkeys := HashMap.nodup_keys pending.docWrites
    rw [← HashMap.map_fst_toList, List.Nodup, List.pairwise_map] at hkeys
    refine hkeys.imp fun {entry other} hne key hkey hother => ?_
    obtain ⟨id, -, rfl⟩ := List.mem_map.mp hkey
    obtain ⟨id', -, heq⟩ := List.mem_map.mp hother
    exact hne (Prod.ext_iff.mp heq).1.symm

-- Keys that are new and differ from each other are noted.
theorem checkKeys_ok {keys : List (String × String)} (hnodup : keys.Nodup) (hnew : ∀ key ∈ keys, key ∉ seen) :
    ∃ seen', checkKeys idx keys seen = .ok seen' ∧ ∀ key, key ∈ seen' ↔ key ∈ keys ∨ key ∈ seen := by
  induction keys generalizing seen with
  | nil => exact ⟨seen, rfl, by simp⟩
  | cons key keys ih =>
    obtain ⟨hkey, hrest⟩ := List.nodup_cons.mp hnodup
    have hnone : seen.get? key = none := HashMap.get?_eq_none.mpr (hnew key List.mem_cons_self)
    have hnew' : ∀ other ∈ keys, other ∉ seen.insert key idx := by
      intro other hother hmem
      rcases HashMap.mem_insert.mp hmem with rfl | hmem
      · exact hkey hother
      · exact hnew other (List.mem_cons_of_mem _ hother) hmem
    obtain ⟨seen', hcheck, hseen⟩ := ih hrest hnew'
    refine ⟨seen', ?_, fun other => ?_⟩
    · rw [checkKeys, hnone]
      exact hcheck
    · rw [hseen, HashMap.mem_insert, List.mem_cons]
      tauto

-- Two writes of no document in common.
def Apart (p q : PendingWrite) : Prop := ∀ key ∈ writtenKeys p, key ∉ writtenKeys q

theorem checkBatchFrom_ok {batch : List PendingWrite} (hapart : batch.Pairwise Apart)
    (hnew : ∀ p ∈ batch, ∀ key ∈ writtenKeys p, key ∉ seen) : checkBatchFrom idx batch seen = .ok () := by
  induction batch generalizing idx seen with
  | nil => rfl
  | cons p batch ih =>
    obtain ⟨hp, hrest⟩ := List.pairwise_cons.mp hapart
    obtain ⟨seen', hcheck, hseen⟩ := checkKeys_ok (writtenKeys_nodup p) (hnew p List.mem_cons_self)
    rw [checkBatchFrom, hcheck]
    refine ih hrest fun q hq key hkey hmem => ?_
    rcases (hseen key).mp hmem with hmem | hmem
    · exact hp q hq key hmem hkey
    · exact hnew q (List.mem_cons_of_mem _ hq) key hkey hmem

theorem checkBatchConflicts_ok {batch : List PendingWrite} (hapart : batch.Pairwise Apart) :
    checkBatchConflicts batch = .ok () :=
  checkBatchFrom_ok hapart fun _ _ key _ => HashMap.not_mem_empty key

end Commit

namespace CommitBatched

variable {Thread : Type}

-- What a step of a thread puts to the end of the queue.
def arrival (s : State Thread) (u : Thread) (input : Input) : List Request :=
  match s.phase u with
  | .outside => [⟨s.nextId, input.write⟩]
  | _ => []

def returned (s : State Thread) (t : Thread) : Option (Except Error (List Request)) :=
  match s.phase t with
  | .executing _ batch => some (.ok batch)
  | .failed => some (.error (.other "batch collection failed: empty batch"))
  | _ => none

variable [DecidableEq Thread]

-- `collect_batch` in thread `t` among the steps of all threads: what it returns, the state it
-- leaves, and the requests that came meanwhile. `none` if the steps end before it does.
def collectBatch (config : BatchConfig) (t : Thread) :
    State Thread → List (Thread × Input) → Option (Except Error (List Request) × State Thread × List Request)
  | s, [] => (returned s t).map fun result => (result, s, [])
  | s, (u, input) :: rest => match returned s t with
    | some result => some (result, s, [])
    | none => (collectBatch config t (step config s u input) rest).map fun (result, s', arrived) =>
      (result, s', arrival s u input ++ arrived)

-- What a leader may execute: requests for documents of their own.
structure Batch (config : BatchConfig) (batch : List Request) : Prop where
  ne_nil : batch ≠ []
  length_le : batch.length ≤ max 1 config.maxBatchSize
  apart : (batch.map Request.write).Pairwise Commit.Apart

variable {config : BatchConfig} {s : State Thread} {t u : Thread} {all : List Request}

omit [DecidableEq Thread] in
theorem apart_of_not_hasConflict {batch : List Request} {p : Request} (h : hasConflict batch p = false) :
    ∀ q ∈ batch, Commit.Apart q.write p.write := by
  intro q hq key hkey hp
  have hnot := List.any_eq_false.mp h key hp
  exact hnot (by simpa [batchDocuments] using ⟨q, hq, hkey⟩)

omit [DecidableEq Thread] in
theorem ne_nil_of_hasConflict {batch : List Request} {p : Request} (h : hasConflict batch p = true) :
    batch ≠ [] := by
  rintro rfl
  obtain ⟨key, -, hkey⟩ := List.any_eq_true.mp h
  simp [batchDocuments] at hkey

-- The requests that a phase has taken from the queue so far.
inductive Gathers (config : BatchConfig) (queue : List Request) : Phase → List Request → Prop
  | collecting {own : Nat} {batch : List Request} (hlen : batch.length < max 1 config.maxBatchSize)
      (hready : batch = [] → queue ≠ []) (hapart : (batch.map Request.write).Pairwise Commit.Apart) :
      Gathers config queue (.collecting own batch) batch
  | returning {own : Nat} {batch : List Request} {p : Request} (hbatch : Batch config batch) :
      Gathers config queue (.returning own batch p) (batch ++ [p])
  | executing {own : Nat} {batch : List Request} (hbatch : Batch config batch) :
      Gathers config queue (.executing own batch) batch

-- Thread `t` has `commit_mu`; what it took and what is in the queue are together all requests so
-- far, in their order.
structure Collects (config : BatchConfig) (t : Thread) (all : List Request) (s : State Thread) : Prop where
  locked : ∀ u, (s.phase u).holds = true ↔ s.commitMu = some u
  gathers : ∃ taken, Gathers config s.queue (s.phase t) taken ∧ taken ++ s.queue = all

omit [DecidableEq Thread] in
theorem Gathers.holds {queue taken : List Request} {phase : Phase} (h : Gathers config queue phase taken) :
    phase.holds = true := by
  cases h <;> rfl

omit [DecidableEq Thread] in
theorem Gathers.push {queue taken : List Request} {phase : Phase} (h : Gathers config queue phase taken)
    (more : List Request) : Gathers config (queue ++ more) phase taken := by
  cases h with
  | collecting hlen hready hapart => exact .collecting hlen (fun hnil => by simp [hready hnil]) hapart
  | returning hbatch => exact .returning hbatch
  | executing hbatch => exact .executing hbatch

omit [DecidableEq Thread] in
theorem Collects.not_holds (h : Collects config t all s) (hu : u ≠ t) : (s.phase u).holds = false := by
  obtain ⟨taken, hgathers, -⟩ := h.gathers
  rw [← Bool.not_eq_true, h.locked u, (h.locked t).mp hgathers.holds]
  exact fun e => hu (Option.some.inj e).symm

-- A step of another thread, which has no `commit_mu` after it either.
theorem Collects.beside (h : Collects config t all s) (hu : u ≠ t) {s' : State Thread} {phase : Phase}
    {more : List Request} (hphase : s'.phase = Function.update s.phase u phase) (hfree : phase.holds = false)
    (hmu : s'.commitMu = s.commitMu) (hqueue : s'.queue = s.queue ++ more) :
    Collects config t (all ++ more) s' ∧ s'.phase t = s.phase t := by
  have ht : s'.phase t = s.phase t := by rw [hphase, Function.update_of_ne (Ne.symm hu)]
  obtain ⟨taken, hgathers, hall⟩ := h.gathers
  refine ⟨⟨?_, taken, ?_, ?_⟩, ht⟩
  · intro v
    rw [hphase, hmu, ← h.locked v]
    by_cases hv : v = u
    · rw [hv, Function.update_self, hfree, h.not_holds hu]
    · rw [Function.update_of_ne hv]
  · rw [ht, hqueue]
    exact hgathers.push more
  · rw [hqueue, ← List.append_assoc, hall]

-- The others add to the end of the queue, wait for `commit_mu` or take their results.
theorem Collects.step_other (h : Collects config t all s) (hu : u ≠ t) (input : Input) :
    Collects config t (all ++ arrival s u input) (step config s u input) ∧
      (step config s u input).phase t = s.phase t := by
  have hfree := h.not_holds hu
  have hsame : Collects config t (all ++ []) s ∧ s.phase t = s.phase t := by
    rw [List.append_nil]
    exact ⟨h, rfl⟩
  unfold step arrival
  cases hphase : s.phase u with
  | outside => exact h.beside hu rfl rfl rfl rfl
  | submitted own =>
    obtain ⟨taken, hgathers, -⟩ := h.gathers
    have hlock : lock s u own = s := by
      simp only [lock, (h.locked t).mp hgathers.holds]
    change Collects config t (all ++ []) (lock s u own) ∧ (lock s u own).phase t = s.phase t
    rw [hlock]
    exact hsame
  | waiting own =>
    simp only [take]
    split
    · exact h.beside hu rfl rfl rfl (List.append_nil _).symm
    · exact hsame
  | failed => exact hsame
  | _ => rw [hphase] at hfree; cases hfree

-- How many steps of its own a thread takes at most until it has its batch, when the time is over.
def left (config : BatchConfig) : Phase → Nat
  | .collecting _ batch => max 1 config.maxBatchSize + 1 - batch.length
  | .returning _ _ _ => 1
  | _ => 0

-- The phase, the queue and what is taken after a step of the loop.
structure Turn (config : BatchConfig) (s : State Thread) (t : Thread) (timeout : Bool) (taken : List Request)
    (s' : State Thread) (phase : Phase) (taken' : List Request) : Prop where
  moves : s'.phase = Function.update s.phase t phase
  locked : s'.commitMu = s.commitMu
  gathers : Gathers config s'.queue phase taken'
  order : taken' ++ s'.queue = taken ++ s.queue
  fewer : left config phase + (if timeout then 1 else 0) ≤ left config (s.phase t)

theorem turn_collect {own : Nat} {batch : List Request} (hphase : s.phase t = .collecting own batch)
    (h : Gathers config s.queue (.collecting own batch) batch) (timeout : Bool) :
    ∃ phase taken', Turn config s t timeout batch (collect config s t own batch timeout) phase taken' := by
  cases h with
  | collecting hlen hready hapart =>
  have hleft : left config (s.phase t) = max 1 config.maxBatchSize + 1 - batch.length := by
    rw [hphase]
    rfl
  unfold collect
  cases hqueue : s.queue with
  | nil =>
    have hne : batch ≠ [] := fun hnil => hready hnil hqueue
    simp only [List.isEmpty_eq_false_iff.mpr hne, Bool.false_eq_true, ite_false]
    cases timeout with
    | true =>
      refine ⟨_, batch, rfl, rfl, .executing ⟨hne, Nat.le_of_lt hlen, hapart⟩, ?_, ?_⟩
      · rfl
      · rw [hleft]
        simp only [left, ite_true]
        omega
    | false =>
      refine ⟨s.phase t, batch, ?_, rfl, ?_, rfl, by simp⟩
      · exact (Function.update_eq_self t s.phase).symm
      · rw [hphase]
        exact .collecting hlen hready hapart
  | cons p rest =>
    simp only
    cases hconflict : hasConflict batch p with
    | true =>
      refine ⟨_, batch ++ [p], rfl, rfl, .returning ⟨ne_nil_of_hasConflict hconflict, Nat.le_of_lt hlen, hapart⟩, ?_, ?_⟩
      · simp [hqueue, State.become]
      · rw [hleft]
        simp only [left]
        split <;> omega
    | false =>
      have hapart' : ((batch ++ [p]).map Request.write).Pairwise Commit.Apart := by
        rw [List.map_append, List.pairwise_append]
        refine ⟨hapart, List.pairwise_singleton _ _, ?_⟩
        simpa using apart_of_not_hasConflict hconflict
      simp only [Bool.false_eq_true, ite_false]
      split
      · refine ⟨_, batch ++ [p], rfl, rfl, .executing ⟨by simp, ?_, hapart'⟩, ?_, ?_⟩
        · simpa using Nat.succ_le_of_lt hlen
        · simp [hqueue, State.become]
        · rw [hleft]
          simp only [left]
          split <;> omega
      · rename_i hroom
        refine ⟨_, batch ++ [p], rfl, rfl, .collecting ?_ (by simp) hapart', ?_, ?_⟩
        · omega
        · simp [hqueue, State.become]
        · rw [hleft]
          simp only [left, List.length_append, List.length_singleton]
          split <;> omega

theorem turn_putBack {own : Nat} {batch : List Request} {p : Request}
    (hphase : s.phase t = .returning own batch p)
    (h : Batch config batch) (timeout : Bool) :
    Turn config s t timeout (batch ++ [p]) (putBack s t own batch p) (.executing own batch) batch where
  moves := rfl
  locked := rfl
  gathers := .executing h
  order := by simp [putBack, State.become]
  fewer := by
    rw [hphase]
    cases timeout <;> simp [left]

-- A step of the thread itself takes a request, puts one back or ends the collection.
theorem Collects.step_self (h : Collects config t all s) (hnot : returned s t = none) (input : Input) :
    Collects config t all (step config s t input) ∧ arrival s t input = [] ∧
      left config ((step config s t input).phase t) + (if input.timeout then 1 else 0) ≤ left config (s.phase t) := by
  obtain ⟨taken, hgathers, hall⟩ := h.gathers
  have hmu : s.commitMu = some t := (h.locked t).mp hgathers.holds
  have hturn : ∃ phase taken', Turn config s t input.timeout taken (step config s t input) phase taken' := by
    cases hphase : s.phase t with
    | collecting own batch =>
      rw [hphase] at hgathers
      have hstep : step config s t input = collect config s t own batch input.timeout := by
        simp only [step, hphase]
      obtain rfl : taken = batch := by
        cases hgathers
        rfl
      rw [hstep]
      exact turn_collect hphase hgathers input.timeout
    | returning own batch p =>
      rw [hphase] at hgathers
      have hstep : step config s t input = putBack s t own batch p := by
        simp only [step, hphase]
      rw [hstep]
      cases hgathers with
      | returning hbatch => exact ⟨_, _, turn_putBack hphase hbatch input.timeout⟩
    | executing own batch => simp [returned, hphase] at hnot
    | _ => rw [hphase] at hgathers; cases hgathers
  obtain ⟨phase, taken', hturn⟩ := hturn
  have ht : (step config s t input).phase t = phase := by rw [hturn.moves, Function.update_self]
  refine ⟨⟨?_, taken', ?_, hturn.order.trans hall⟩, ?_, ?_⟩
  · intro u
    rw [hturn.moves, hturn.locked]
    by_cases hu : u = t
    · rw [hu, Function.update_self]
      simp [hturn.gathers.holds, hmu]
    · rw [Function.update_of_ne hu]
      exact h.locked u
  · rw [ht]
    exact hturn.gathers
  · unfold arrival
    split
    · rename_i hphase
      rw [hphase] at hgathers
      cases hgathers
    · rfl
  · rw [ht]
    exact hturn.fewer

omit [DecidableEq Thread] in
theorem Collects.result (h : Collects config t all s) {result : Except Error (List Request)}
    (hresult : returned s t = some result) :
    ∃ batch, result = .ok batch ∧ Batch config batch ∧ batch ++ s.queue = all := by
  obtain ⟨taken, hgathers, hall⟩ := h.gathers
  unfold returned at hresult
  cases hphase : s.phase t with
  | executing own batch =>
    rw [hphase] at hgathers hresult
    obtain rfl := Option.some.inj hresult
    cases hgathers with
    | executing hbatch => exact ⟨taken, rfl, hbatch, hall⟩
  | failed =>
    rw [hphase] at hgathers
    cases hgathers
  | _ => simp [hphase] at hresult

theorem Collects.step (h : Collects config t all s) (hnot : returned s t = none) (u : Thread)
    (input : Input) :
    Collects config t (all ++ arrival s u input) (step config s u input) ∧
      left config ((step config s u input).phase t) + (if u = t ∧ input.timeout then 1 else 0) ≤
        left config (s.phase t) := by
  by_cases hu : u = t
  · subst hu
    obtain ⟨hnext, harrival, hleft⟩ := h.step_self hnot input
    rw [harrival, List.append_nil]
    refine ⟨hnext, ?_⟩
    simpa using hleft
  · obtain ⟨hnext, hphase⟩ := h.step_other hu input
    refine ⟨hnext, ?_⟩
    rw [hphase]
    simp [hu]

-- The other steps between those of the thread do not matter, only what they add to the queue.
theorem Collects.collectBatch (h : Collects config t all s) {steps : List (Thread × Input)}
    {result : Except Error (List Request)} {s' : State Thread} {arrived : List Request}
    (he : collectBatch config t s steps = some (result, s', arrived)) :
    ∃ batch, result = .ok batch ∧ Batch config batch ∧ batch ++ s'.queue = all ++ arrived := by
  induction steps generalizing s all arrived with
  | nil =>
    unfold CommitBatched.collectBatch at he
    obtain ⟨r, hresult, heq⟩ := Option.map_eq_some_iff.mp he
    cases heq
    rw [List.append_nil]
    exact h.result hresult
  | cons turn rest ih =>
    obtain ⟨u, input⟩ := turn
    unfold CommitBatched.collectBatch at he
    cases hresult : returned s t with
    | some r =>
      rw [hresult] at he
      cases he
      rw [List.append_nil]
      exact h.result hresult
    | none =>
      rw [hresult] at he
      obtain ⟨⟨r, s₁, more⟩, hrest, heq⟩ := Option.map_eq_some_iff.mp he
      cases heq
      rw [← List.append_assoc]
      exact ih (h.step hresult u input).1 hrest

omit [DecidableEq Thread] in
theorem Collects.returned_isSome (h : Collects config t all s) (hleft : left config (s.phase t) = 0) :
    (returned s t).isSome := by
  obtain ⟨taken, hgathers, -⟩ := h.gathers
  unfold returned
  cases hphase : s.phase t with
  | collecting own batch =>
    rw [hphase] at hgathers hleft
    cases hgathers with
    | collecting hlen _ _ =>
      simp only [left] at hleft
      omega
  | executing own batch => rfl
  | returning own batch p =>
    rw [hphase] at hleft
    cases hleft
  | _ => rw [hphase] at hgathers; cases hgathers

theorem Collects.ends (h : Collects config t all s) {steps : List (Thread × Input)}
    (hturns : left config (s.phase t) ≤ steps.countP fun turn => turn.1 = t ∧ turn.2.timeout) :
    (CommitBatched.collectBatch config t s steps).isSome := by
  induction steps generalizing s all with
  | nil =>
    unfold CommitBatched.collectBatch
    rw [Option.isSome_map]
    exact h.returned_isSome (Nat.le_zero.mp hturns)
  | cons turn rest ih =>
    obtain ⟨u, input⟩ := turn
    unfold CommitBatched.collectBatch
    cases hresult : returned s t with
    | some r => rfl
    | none =>
      obtain ⟨hnext, hleft⟩ := h.step hresult u input
      simp only [Option.isSome_map]
      apply ih hnext
      rw [List.countP_cons] at hturns
      simp only [decide_eq_true_eq] at hturns
      omega

-- `collect_batch` with requests in the queue, in the thread that has `commit_mu`. It returns when it
-- has taken enough steps behind the end of the time.
theorem collectBatch_returns (config : BatchConfig) {own : Nat}
    (hlocked : ∀ u, (s.phase u).holds = true ↔ s.commitMu = some u)
    (hphase : s.phase t = .collecting own []) (hqueue : s.queue ≠ []) (steps : List (Thread × Input)) :
    (∀ result s' arrived, collectBatch config t s steps = some (result, s', arrived) →
      ∃ batch, result = .ok batch ∧ batch ++ s'.queue = s.queue ++ arrived ∧ batch ≠ [] ∧
        batch.length ≤ max 1 config.maxBatchSize ∧
        (batch.Pairwise fun p q => ∀ key ∈ Commit.writtenKeys p.write, key ∉ Commit.writtenKeys q.write) ∧
        Commit.checkBatchConflicts (batch.map Request.write) = .ok ()) ∧
    (max 1 config.maxBatchSize + 1 ≤ (steps.countP fun turn => turn.1 = t ∧ turn.2.timeout) →
      (collectBatch config t s steps).isSome) := by
  have h : Collects config t s.queue s := by
    refine ⟨hlocked, [], ?_, rfl⟩
    rw [hphase]
    exact .collecting (Nat.lt_of_lt_of_le Nat.zero_lt_one (Nat.le_max_left _ _)) (fun _ => hqueue) List.Pairwise.nil
  constructor
  · intro result s' arrived he
    obtain ⟨batch, rfl, hbatch, horder⟩ := h.collectBatch he
    exact ⟨batch, rfl, horder, hbatch.ne_nil, hbatch.length_le, List.pairwise_map.mp hbatch.apart,
      Commit.checkBatchConflicts_ok hbatch.apart⟩
  · intro hturns
    apply h.ends
    rw [hphase]
    exact hturns

-- One of two threads has `commit_mu`, and its request is in the queue.
def leading : State Bool :=
  run ⟨true, 2⟩ initial [(true, ⟨oneDocument, false, .ok ()⟩), (true, ⟨oneDocument, false, .ok ()⟩),
    (true, ⟨oneDocument, false, .ok ()⟩)]

-- The other one comes with a request for the same document, which goes back to the queue.
theorem collectBatch_returns_conflict :
    let steps := [(true, ⟨oneDocument, true, .ok ()⟩), (false, ⟨oneDocument, true, .ok ()⟩),
      (true, ⟨oneDocument, true, .ok ()⟩), (true, ⟨oneDocument, true, .ok ()⟩)]
    ∃ batch s' arrived, collectBatch ⟨true, 2⟩ true leading steps = some (.ok batch, s', arrived) ∧
      batch ++ s'.queue = leading.queue ++ arrived ∧ ids s'.queue = [1] ∧ batch ≠ [] := by
  intro steps
  have hlocked : ∀ u, (leading.phase u).holds = true ↔ leading.commitMu = some u := by decide +kernel
  have hphase : leading.phase true = .collecting 0 [] := rfl
  have hqueue : leading.queue ≠ [] := List.ne_nil_of_length_pos (by decide +kernel)
  have hids : (collectBatch ⟨true, 2⟩ true leading steps).map (fun r => ids r.2.1.queue) = some [1] := by decide +kernel
  obtain ⟨hreturns, hends⟩ := collectBatch_returns ⟨true, 2⟩ hlocked hphase hqueue steps
  obtain ⟨⟨result, s', arrived⟩, he⟩ := Option.isSome_iff_exists.mp (hends (by decide +kernel))
  obtain ⟨batch, rfl, horder, hne, -⟩ := hreturns _ _ _ he
  rw [he] at hids
  exact ⟨batch, s', arrived, he, horder, Option.some.inj hids, hne⟩

end CommitBatched

end JasonDb
