import JasonDb.Checked
import JasonDb.LruCache.Coherent
import Mathlib.Logic.Function.Basic

namespace JasonDb.Flush

open Lib

-- Where a thread stands in `flush` (`sync`) or `flush_no_sync`: it has collected
-- the dirty pages; holds the file lock with pages still to copy; has read one of
-- them from the cache; has copied them all; has only the file lock to give back.
inductive Thread where
  | idle
  | collected (sync : Bool) (dirty : List PageNum)
  | copying (sync : Bool) (rest : List PageNum)
  | writing (sync : Bool) (pageNum : PageNum) (data : Option Bytes) (rest : List PageNum)
  | clearing (sync : Bool)
  | unlocking

-- `file` has the pages by their place; `poisoned` says that a panic has come upon
-- the file lock; `checks` that the build has overflow checks. `latest` records the
-- content of each page's last `write_page_transfer`; the code does not keep it.
structure State where
  checks : Bool
  cache : LRUCacheInner Bytes
  file : PageNum → Option Bytes
  fileLock : Option Nat
  poisoned : Bool
  readOnly : Bool
  threads : Nat → Thread
  latest : PageNum → Option Bytes

-- A thread starts a write or a flush, or goes on to the next critical section of
-- its flush. When `ok` is false the file operation of that section fails.
inductive Event where
  | write (pageNum : PageNum) (data : Bytes)
  | flush (sync : Bool)
  | next (ok : Bool)

namespace State

def opened (checks : Bool) (capacity : Nat) (file : PageNum → Option Bytes) (readOnly : Bool) : State :=
  ⟨checks, .new capacity, file, none, false, readOnly, fun _ => .idle, fun _ => none⟩

def goto (s : State) (t : Nat) (thread : Thread) : State :=
  { s with threads := Function.update s.threads t thread }

def writePageTransfer (s : State) (pageNum : PageNum) (data : Bytes) : Except Error Unit × State :=
  if s.readOnly then (.error (.other "cannot write page: database is read-only"), s)
  else if data.length ≠ PAGE_SIZE then (.error .invalidPageSize, s)
  else (.ok (), { s with
    cache := s.cache.putDirtyAtomic pageNum data
    latest := Function.update s.latest pageNum (some data) })

-- The file lock is given back with an error, or by a panic.
def abandon (s : State) (t : Nat) (e : Error) : State :=
  { s with fileLock := none, poisoned := s.poisoned || e.isPanic }.goto t .idle

-- `flush` copies the pages in the order of their numbers.
def collect (s : State) (sync : Bool) : List PageNum :=
  if sync then s.cache.getAllDirty.mergeSort else s.cache.getAllDirty

def step (s : State) (t : Nat) (event : Event) : Option State :=
  match s.threads t, event with
  | .idle, .write pageNum data => some (s.writePageTransfer pageNum data).2
  | .idle, .flush sync =>
    if s.readOnly then some s else some (s.goto t (.collected sync (s.collect sync)))
  | .collected sync dirty, .next _ =>
    if s.fileLock = none then
      if s.poisoned then some (s.goto t .idle)
      else some ({ s with fileLock := some t }.goto t (.copying sync dirty))
    else none
  | .copying sync (pageNum :: rest), .next _ =>
    some (s.goto t (.writing sync pageNum (s.cache.getReadOnly pageNum) rest))
  | .writing sync _ none rest, .next _ => some (s.goto t (.copying sync rest))
  | .writing sync pageNum (some data) rest, .next ok =>
    match landing s.checks (UInt64.ofNat pageNum) with
    | .error e => some (s.abandon t e)
    | .ok block =>
      if ok then
        some ({ s with file := Function.update s.file block (some data) }.goto t (.copying sync rest))
      else some (s.abandon t (.io "write failed"))
  | .copying true [], .next ok =>
    if ok then some (s.goto t (.clearing true)) else some (s.abandon t (.io "sync failed"))
  | .copying false [], .next _ => some ({ s with fileLock := none }.goto t (.clearing false))
  | .clearing sync, .next _ =>
    some ({ s with cache := s.cache.clearAllDirty }.goto t (if sync then .unlocking else .idle))
  | .unlocking, .next _ => some ({ s with fileLock := none }.goto t .idle)
  | _, _ => none

-- The states of all interleavings whose steps meet `P`.
inductive Reached (P : State → Nat → Event → Prop) : State → Prop
  | opened (checks : Bool) (capacity : Nat) (file : PageNum → Option Bytes) (readOnly : Bool) :
      Reached P (opened checks capacity file readOnly)
  | step {s s' : State} {t : Nat} {event : Event} :
      Reached P s → P s t event → s.step t event = some s' → Reached P s'

-- The content last written to a page is in the file, or the page is dirty and
-- cached with it.
def Safe (s : State) : Prop :=
  ∀ pageNum data, s.latest pageNum = some data →
    s.file pageNum = some data ∨
    s.cache.isDirty pageNum = true ∧ s.cache.getReadOnly pageNum = some data

end State

-- The pages a flush has collected and not yet read, while it has not cleared
-- the dirty flags.
def Thread.pending : Thread → Option (List PageNum)
  | .idle => none
  | .collected _ dirty => some dirty
  | .copying _ rest => some rest
  | .writing _ _ _ rest => some rest
  | .clearing _ => some []
  | .unlocking => none

-- The page a flush has read and not yet written.
def Thread.held : Thread → Option (PageNum × Bytes)
  | .writing _ pageNum (some data) _ => some (pageNum, data)
  | _ => none

namespace State

-- The offset of the page, a number of 64 bits, is not cut to another one.
def Uncut (checks : Bool) (pageNum : PageNum) : Prop :=
  pageNum < 2 ^ 64 ∧ (checks = true ∨ pageNum < 2 ^ 52)

-- A page is written only while every flush under way has still to read it, and its
-- offset is not cut.
def Quiet (s : State) (_ : Nat) : Event → Prop
  | .write pageNum _ => Uncut s.checks pageNum ∧
    ∀ t rest, (s.threads t).pending = some rest → pageNum ∈ rest
  | _ => True

-- What a flush under way can rely on: of the pages that are dirty now, each is
-- still to be read, is in its hands, or is in the file.
structure Ok (s : State) (thread : Thread) : Prop where
  nodup : ∀ rest, thread.pending = some rest → rest.Nodup
  held : ∀ pageNum data, thread.held = some (pageNum, data) →
    s.latest pageNum = some data ∧ ∀ rest, thread.pending = some rest → pageNum ∉ rest
  covered : ∀ rest, thread.pending = some rest → ∀ pageNum, s.cache.isDirty pageNum = true →
    pageNum ∈ rest ∨ s.file pageNum = s.latest pageNum ∨
    ∃ data, thread.held = some (pageNum, data)

structure Inv (s : State) : Prop where
  uncut : ∀ pageNum data, s.latest pageNum = some data → Uncut s.checks pageNum
  coherent : s.cache.Coherent
  cached : ∀ pageNum data, s.cache.getReadOnly pageNum = some data → s.latest pageNum = some data
  dirty : ∀ pageNum, s.cache.isDirty pageNum = true → ∃ data, s.cache.getReadOnly pageNum = some data
  safe : s.Safe
  threads : ∀ t, s.Ok (s.threads t)

variable {s s' : State} {t : Nat}

theorem ok_of_no_pending {thread : Thread} (hp : thread.pending = none) (hh : thread.held = none) :
    s.Ok thread := by
  refine ⟨?_, ?_, ?_⟩
  · intro rest hrest
    rw [hp] at hrest
    cases hrest
  · intro pageNum data hheld
    rw [hh] at hheld
    cases hheld
  · intro rest hrest
    rw [hp] at hrest
    cases hrest

theorem Inv.goto (h : Inv s) {thread : Thread} (hok : s.Ok thread) : Inv (s.goto t thread) := by
  refine ⟨h.uncut, h.coherent, h.cached, h.dirty, h.safe, ?_⟩
  intro u
  have hok' : (s.goto t thread).Ok thread := ⟨hok.nodup, hok.held, hok.covered⟩
  have hu := h.threads u
  by_cases hut : u = t
  · subst hut
    simpa [State.goto] using hok'
  · have hsame : (s.goto t thread).threads u = s.threads u := by simp [State.goto, hut]
    rw [hsame]
    exact ⟨hu.nodup, hu.held, hu.covered⟩

theorem Inv.fileLock (h : Inv s) (lock : Option Nat) (poisoned : Bool) :
    Inv { s with fileLock := lock, poisoned } :=
  ⟨h.uncut, h.coherent, h.cached, h.dirty, h.safe, fun t =>
    ⟨(h.threads t).nodup, (h.threads t).held, (h.threads t).covered⟩⟩

theorem Inv.abandon (h : Inv s) (t : Nat) (e : Error) : Inv (s.abandon t e) :=
  (h.fileLock none _).goto (ok_of_no_pending rfl rfl)

theorem inv_opened (checks : Bool) (capacity : Nat) (file : PageNum → Option Bytes) (readOnly : Bool) :
    Inv (opened checks capacity file readOnly) := by
  refine ⟨?_, LRUCacheInner.coherent_new capacity, ?_, ?_, ?_, fun t => ok_of_no_pending rfl rfl⟩
  · intro pageNum data h
    cases h
  · intro pageNum data h
    cases h
  · intro pageNum h
    cases h
  · intro pageNum data h
    cases h

theorem Inv.write (h : Inv s) (pageNum : PageNum) (data : Bytes)
    (hq : s.Quiet t (.write pageNum data)) : Inv (s.writePageTransfer pageNum data).2 := by
  obtain ⟨huncut, hq⟩ := hq
  unfold writePageTransfer
  split
  · exact h
  split
  · exact h
  have hput := h.coherent.putDirtyAtomic pageNum data
  have hdirty : ∀ p, (s.cache.putDirtyAtomic pageNum data).isDirty p = true →
      p = pageNum ∨ s.cache.isDirty p = true := by
    intro p hp
    rwa [hput.isDirty_eq, Bool.or_eq_true, decide_eq_true_eq] at hp
  have hlatest : ∀ p, p ≠ pageNum →
      Function.update s.latest pageNum (some data) p = s.latest p :=
    fun p hp => Function.update_of_ne hp _ _
  refine ⟨?_, hput.coherent, ?_, ?_, ?_, ?_⟩
  · intro p d hd
    by_cases hp : p = pageNum
    · exact hp ▸ huncut
    · have hd' : Function.update s.latest pageNum (some data) p = some d := hd
      rw [hlatest p hp] at hd'
      exact h.uncut p d hd'
  · intro p d hd
    show Function.update s.latest pageNum (some data) p = some d
    by_cases hp : p = pageNum
    · subst hp
      rw [Function.update_self, ← hput.self]
      exact hd
    · rw [hlatest p hp]
      rcases hput.others p hp with heq | ⟨hnone, -⟩
      · exact h.cached p d (heq ▸ hd)
      · rw [hnone] at hd
        cases hd
  · intro p hp
    show ∃ d, (s.cache.putDirtyAtomic pageNum data).getReadOnly p = some d
    by_cases hpe : p = pageNum
    · exact ⟨data, by rw [hpe]; exact hput.self⟩
    · have hold := (hdirty p hp).resolve_left hpe
      rcases hput.others p hpe with heq | ⟨-, hclean⟩
      · rw [heq]
        exact h.dirty p hold
      · rw [hold] at hclean
        cases hclean
  · intro p d hd
    by_cases hp : p = pageNum
    · subst hp
      right
      have hd' : Function.update s.latest p (some data) p = some d := hd
      rw [Function.update_self] at hd'
      refine ⟨?_, ?_⟩
      · rw [hput.isDirty_eq]
        simp
      · rw [← hd']
        exact hput.self
    · have hd' : Function.update s.latest pageNum (some data) p = some d := hd
      rw [hlatest p hp] at hd'
      rcases h.safe p d hd' with hfile | ⟨hold, hget⟩
      · exact .inl hfile
      · right
        refine ⟨?_, ?_⟩
        · rw [hput.isDirty_eq, hold, Bool.or_true]
        · rcases hput.others p hp with heq | ⟨-, hclean⟩
          · rw [heq]
            exact hget
          · rw [hold] at hclean
            cases hclean
  · intro u
    have hu := h.threads u
    refine ⟨hu.nodup, ?_, ?_⟩
    · intro p d hheld
      obtain ⟨hl, hnot⟩ := hu.held p d hheld
      refine ⟨?_, hnot⟩
      -- A page in a flush's hands is not to be read again, so it is not this one.
      have hp : p ≠ pageNum := by
        intro heq
        cases hpend : (s.threads u).pending with
        | none =>
          cases hth : s.threads u <;> rw [hth] at hpend hheld <;>
            simp [Thread.pending, Thread.held] at hpend hheld
        | some rest => exact hnot rest hpend (heq ▸ hq u rest hpend)
      show Function.update s.latest pageNum (some data) p = some d
      rw [hlatest p hp]
      exact hl
    · intro rest hpend p hp
      by_cases hpe : p = pageNum
      · exact .inl (hpe ▸ hq u rest hpend)
      · show p ∈ rest ∨ s.file p = Function.update s.latest pageNum (some data) p ∨ _
        rw [hlatest p hpe]
        exact hu.covered rest hpend p ((hdirty p hp).resolve_left hpe)

theorem ok_collected (h : Inv s) (sync : Bool) : s.Ok (.collected sync (s.collect sync)) := by
  have hperm : (s.collect sync).Perm s.cache.getAllDirty := by
    unfold collect
    split
    · exact List.mergeSort_perm _ _
    · exact List.Perm.refl _
  refine ⟨?_, ?_, ?_⟩
  · intro rest hrest
    cases hrest
    exact hperm.nodup_iff.mpr (HashMap.nodup_keys _)
  · intro pageNum data hheld
    cases hheld
  · intro rest hrest pageNum hp
    cases hrest
    exact .inl (hperm.mem_iff.mpr (h.coherent.mem_getAllDirty.mpr hp))

theorem ok_writing (h : Inv s) {sync : Bool} {pageNum : PageNum} {rest : List PageNum}
    (hok : s.Ok (.copying sync (pageNum :: rest))) :
    s.Ok (.writing sync pageNum (s.cache.getReadOnly pageNum) rest) := by
  have hnodup := List.nodup_cons.mp (hok.nodup _ rfl)
  refine ⟨?_, ?_, ?_⟩
  · intro rest' hrest
    cases hrest
    exact hnodup.2
  · intro p d hheld
    cases hget : s.cache.getReadOnly pageNum with
    | none =>
      rw [hget] at hheld
      cases hheld
    | some data =>
      rw [hget] at hheld
      cases hheld
      refine ⟨h.cached _ _ hget, ?_⟩
      intro rest' hrest
      cases hrest
      exact hnodup.1
  · intro rest' hrest p hp
    cases hrest
    rcases hok.covered _ rfl p hp with hmem | hfile | ⟨data, hheld⟩
    · rcases List.mem_cons.mp hmem with rfl | hmem
      · obtain ⟨data, hget⟩ := h.dirty p hp
        exact .inr (.inr ⟨data, by rw [hget]; rfl⟩)
      · exact .inl hmem
    · exact .inr (.inl hfile)
    · cases hheld

theorem ok_skipped {sync : Bool} {pageNum : PageNum} {rest : List PageNum}
    (hok : s.Ok (.writing sync pageNum none rest)) : s.Ok (.copying sync rest) := by
  refine ⟨fun rest' hrest => hok.nodup rest' hrest, ?_, ?_⟩
  · intro p d hheld
    cases hheld
  · intro rest' hrest p hp
    rcases hok.covered rest' hrest p hp with hmem | hfile | ⟨data, hheld⟩
    · exact .inl hmem
    · exact .inr (.inl hfile)
    · cases hheld

-- A page that a flush writes to the file is written with its last content.
theorem Inv.copy (h : Inv s) {pageNum : PageNum} {data : Bytes}
    (hlatest : s.latest pageNum = some data) :
    Inv { s with file := Function.update s.file pageNum (some data) } := by
  have hfile : ∀ p, s.file p = s.latest p →
      Function.update s.file pageNum (some data) p = s.latest p := by
    intro p hp
    by_cases hpe : p = pageNum
    · subst hpe
      rw [Function.update_self, hlatest]
    · rw [Function.update_of_ne hpe]
      exact hp
  refine ⟨h.uncut, h.coherent, h.cached, h.dirty, ?_, ?_⟩
  · intro p d hd
    rcases h.safe p d hd with hf | hdirty
    · left
      have := hfile p (hf.trans (Eq.symm hd))
      exact this.trans hd
    · exact .inr hdirty
  · intro u
    have hu := h.threads u
    refine ⟨hu.nodup, hu.held, ?_⟩
    intro rest hpend p hp
    rcases hu.covered rest hpend p hp with hmem | hf | hheld
    · exact .inl hmem
    · exact .inr (.inl (hfile p hf))
    · exact .inr (.inr hheld)

theorem ok_copied {sync : Bool} {pageNum : PageNum} {data : Bytes} {rest : List PageNum}
    (hok : s.Ok (.writing sync pageNum (some data) rest)) :
    State.Ok { s with file := Function.update s.file pageNum (some data) } (.copying sync rest) := by
  obtain ⟨hlatest, -⟩ := hok.held pageNum data rfl
  refine ⟨fun rest' hrest => hok.nodup rest' hrest, ?_, ?_⟩
  · intro p d hheld
    cases hheld
  · intro rest' hrest p hp
    by_cases hpe : p = pageNum
    · subst hpe
      exact .inr (.inl ((Function.update_self _ _ _).trans hlatest.symm))
    · rcases hok.covered rest' hrest p hp with hmem | hfile | ⟨d, hheld⟩
      · exact .inl hmem
      · exact .inr (.inl ((Function.update_of_ne hpe _ _).trans hfile))
      · cases hheld
        exact absurd rfl hpe

theorem ok_clearing {sync : Bool} (hok : s.Ok (.copying sync [])) : s.Ok (.clearing sync) := by
  refine ⟨fun rest hrest => hok.nodup rest hrest, ?_, ?_⟩
  · intro p d hheld
    cases hheld
  · intro rest hrest p hp
    rcases hok.covered rest hrest p hp with hmem | hfile | ⟨d, hheld⟩
    · exact .inl hmem
    · exact .inr (.inl hfile)
    · cases hheld

-- When a flush clears the flags, every dirty page is in the file.
theorem Inv.clear (h : Inv s) {sync : Bool} (hok : s.Ok (.clearing sync)) :
    Inv { s with cache := s.cache.clearAllDirty } := by
  have hget : ∀ p, s.cache.clearAllDirty.getReadOnly p = s.cache.getReadOnly p := fun _ => rfl
  have hclean : ∀ p, s.cache.clearAllDirty.isDirty p = false := fun _ => rfl
  refine ⟨h.uncut, ?_, h.cached, ?_, ?_, ?_⟩
  · refine ⟨h.coherent.mapped, h.coherent.free, h.coherent.nodup, ?_⟩
    intro p flag hflag
    cases hflag
  · intro p hp
    cases hp
  · intro p d hd
    left
    rcases h.safe p d hd with hf | ⟨hdirty, -⟩
    · exact hf
    · rcases hok.covered [] rfl p hdirty with hmem | hf | ⟨data, hheld⟩
      · cases hmem
      · exact hf.trans hd
      · cases hheld
  · intro u
    have hu := h.threads u
    refine ⟨hu.nodup, hu.held, ?_⟩
    intro rest hpend p hp
    cases hp

theorem Inv.step (h : Inv s) {event : Event} (hq : s.Quiet t event)
    (hstep : s.step t event = some s') : Inv s' := by
  have hok := h.threads t
  have hidle : ∀ s : State, s.Ok .idle := fun _ => ok_of_no_pending rfl rfl
  unfold State.step at hstep
  split at hstep
  next pageNum data hth =>
    cases hstep
    exact h.write pageNum data hq
  next sync hth =>
    split at hstep
    · cases hstep
      exact h
    · cases hstep
      exact h.goto (ok_collected h sync)
  next sync dirty ok hth =>
    split at hstep
    · split at hstep
      · cases hstep
        exact h.goto (hidle _)
      · cases hstep
        rw [hth] at hok
        exact (h.fileLock _ _).goto ⟨hok.nodup, hok.held, hok.covered⟩
    · cases hstep
  next sync pageNum rest ok hth =>
    cases hstep
    rw [hth] at hok
    exact h.goto (ok_writing h hok)
  next sync pageNum rest ok hth =>
    cases hstep
    rw [hth] at hok
    exact h.goto (ok_skipped hok)
  next sync pageNum data rest ok hth =>
    rw [hth] at hok
    split at hstep
    next e _ =>
      cases hstep
      exact h.abandon t e
    next block hblock =>
      -- The page lands in its place.
      have hlatest := (hok.held pageNum data rfl).1
      obtain ⟨hword, huncut⟩ := h.uncut pageNum data hlatest
      have hnum : (UInt64.ofNat pageNum).toNat = pageNum := UInt64.toNat_ofNat_of_lt' hword
      have hplace := landing_exact (by rwa [hnum]) hblock
      rw [hnum] at hplace
      subst hplace
      split at hstep
      · cases hstep
        exact (h.copy hlatest).goto (ok_copied hok)
      · cases hstep
        exact h.abandon t _
  next ok hth =>
    rw [hth] at hok
    split at hstep
    · cases hstep
      exact h.goto (ok_clearing hok)
    · cases hstep
      exact h.abandon t _
  next ok hth =>
    cases hstep
    rw [hth] at hok
    have hclear := ok_clearing hok
    exact (h.fileLock none _).goto ⟨hclear.nodup, hclear.held, hclear.covered⟩
  next sync ok hth =>
    cases hstep
    rw [hth] at hok
    apply (h.clear hok).goto
    split
    · exact ok_of_no_pending rfl rfl
    · exact hidle _
  next ok hth =>
    cases hstep
    exact (h.fileLock none _).goto (hidle _)
  · cases hstep

theorem Reached.inv (hr : Reached Quiet s) : Inv s := by
  induction hr with
  | opened checks capacity file readOnly => exact inv_opened checks capacity file readOnly
  | step _ hq hstep ih => exact ih.step hq hstep

-- In every interleaving in which a page is written only while each flush under
-- way has still to read it, and no offset is cut, no write is forgotten.
theorem flush_keeps_writes (hr : Reached Quiet s) : s.Safe := hr.inv.safe

section Runs

variable {P : State → Nat → Event → Prop}

def run (s : State) : List (Nat × Event) → Option State
  | [] => some s
  | (t, event) :: rest => (s.step t event).bind fun s => s.run rest

-- The state after a write that succeeds.
def written (s : State) (pageNum : PageNum) (data : Bytes) : State :=
  { s with
    cache := s.cache.putDirtyAtomic pageNum data
    latest := Function.update s.latest pageNum (some data) }

theorem step_write (hth : s.threads t = .idle) (hro : s.readOnly = false) (pageNum : PageNum)
    {data : Bytes} (hlen : data.length = PAGE_SIZE) :
    s.step t (.write pageNum data) = some (s.written pageNum data) := by
  simp [State.step, hth, writePageTransfer, hro, hlen, written]

theorem Reached.next (hr : Reached P s) (hP : ∀ s ok, P s t (.next ok)) {n : Nat}
    (hrun : s.run (List.replicate n (t, .next true)) = some s') : Reached P s' := by
  induction n generalizing s with
  | zero =>
    cases hrun
    exact hr
  | succ n ih =>
    simp only [List.replicate_succ, run, Option.bind_eq_some_iff] at hrun
    obtain ⟨u, hu, hrest⟩ := hrun
    exact ih (hr.step (hP _ _) hu) hrest

-- A page is written and flushed by the thread 0, up to the copy in the file.
theorem reached_copied {a : Bytes} (ha : a.length = PAGE_SIZE)
    (hwrite : ∀ s, (∀ t, s.threads t = .idle) → P s 0 (.write 1 a))
    (hflush : ∀ s, P s 0 (.flush false)) (hnext : ∀ s ok, P s 0 (.next ok)) :
    ∃ s, Reached P s ∧ s.threads 0 = .copying false [] ∧ s.threads 1 = .idle ∧
      s.readOnly = false ∧ s.file 1 = some a ∧ s.latest 1 = some a := by
  let s₁ := (opened false 10 (fun _ => none) false).written 1 a
  have hr₁ : Reached P s₁ :=
    (Reached.opened false 10 (fun _ => none) false).step (hwrite _ fun _ => rfl)
      (step_write rfl rfl 1 ha)
  obtain ⟨s₂, hs₂⟩ : ∃ s, s₁.step 0 (.flush false) = some s := ⟨_, rfl⟩
  have hr₂ : Reached P s₂ := hr₁.step (hflush _) hs₂
  obtain ⟨s₃, hs₃⟩ : ∃ s, s₂.run (List.replicate 3 (0, .next true)) = some s := by
    cases hs₂
    exact ⟨_, rfl⟩
  refine ⟨s₃, hr₂.next hnext hs₃, ?_⟩
  cases hs₂
  cases hs₃
  exact ⟨rfl, rfl, rfl, rfl, rfl⟩

-- Another thread writes the page again before the flags are cleared.
theorem overtaken_lost {a b : Bytes} (ha : a.length = PAGE_SIZE) (hb : b.length = PAGE_SIZE)
    (hab : a ≠ b) : ∃ s, Reached (fun _ _ _ => True) s ∧ ¬ s.Safe := by
  obtain ⟨s, hr, hth₀, hth₁, hro, hfile, -⟩ := reached_copied (P := fun _ _ _ => True) ha
    (fun _ _ => trivial) (fun _ => trivial) (fun _ _ => trivial)
  have hr₁ : Reached (fun _ _ _ => True) (s.written 1 b) :=
    hr.step trivial (step_write hth₁ hro 1 hb)
  have hth : (s.written 1 b).threads 0 = .copying false [] := hth₀
  generalize hs₁ : s.written 1 b = s₁ at hr₁ hth
  let s₂ := State.goto { s₁ with fileLock := none } 0 (.clearing false)
  have hs₂ : s₁.step 0 (.next true) = some s₂ := by simp only [State.step, hth, s₂]
  have hth₂ : s₂.threads 0 = .clearing false := by simp [s₂, State.goto]
  let s₃ := State.goto { s₂ with cache := s₂.cache.clearAllDirty } 0 .idle
  have hs₃ : s₂.step 0 (.next true) = some s₃ := by
    simp only [State.step, hth₂, s₃, Bool.false_eq_true, if_false]
  refine ⟨s₃, (hr₁.step trivial hs₂).step trivial hs₃, fun hsafe => ?_⟩
  have hlatest : s₃.latest 1 = some b := by
    show s₁.latest 1 = some b
    rw [← hs₁]
    simp [written]
  rcases hsafe 1 b hlatest with hlost | ⟨hdirty, -⟩
  · have hold : s₃.file 1 = some a := by
      show s₁.file 1 = some a
      rw [← hs₁]
      exact hfile
    rw [hold] at hlost
    exact hab (Option.some.inj hlost)
  · cases hdirty

end Runs

theorem flush_keeps_writes_copied : ∃ s : State, s.file 1 = some (filledPage 7) ∧ s.Safe := by
  obtain ⟨s, hr, -, -, -, hfile, -⟩ := reached_copied (P := Quiet) (length_filledPage 7)
    (fun s hidle => ⟨⟨by decide, .inr (by decide)⟩, fun t rest hpend => by
      rw [hidle] at hpend
      cases hpend⟩)
    (fun _ => trivial) (fun _ _ => trivial)
  exact ⟨s, hfile, flush_keeps_writes hr⟩

theorem flush_loses_write : ¬ ∀ s, Reached (fun _ _ _ => True) s → s.Safe := by
  intro h
  have hne : filledPage 7 ≠ filledPage 8 := by
    intro heq
    have hhead := congrArg List.head? heq
    simp [filledPage, PAGE_SIZE] at hhead
  obtain ⟨s, hr, hlost⟩ := overtaken_lost (length_filledPage 7) (length_filledPage 8) hne
  exact hlost (h s hr)

end State

end JasonDb.Flush
