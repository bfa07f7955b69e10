import JasonDb.Lib.Broadcast
import JasonDb.QueryBuilder

namespace JasonDb

open Lib

inductive ChangeOperation where
  | insert
  | update
  | delete
deriving DecidableEq

structure ChangeEvent where
  collection : String
  operation : ChangeOperation
  docId : String
  document : Option Json

structure Watcher where
  id : String
  sender : Nat
  filter : Option String

-- `matches`
def Watcher.accepts (tools : QueryTools) (watcher : Watcher) (event : ChangeEvent) : Bool :=
  match watcher.filter with
  | some filter => match event.document with
    | some doc => match Query.compile tools filter with
      | .ok ast => match doc.asObject with
        | some docObj => ast docObj
        | none => false
      | .error _ => false
    | none => false
  | none => true

def watching (tools : QueryTools) : Subscribing Watcher String ChangeEvent :=
  ⟨Watcher.id, Watcher.sender, Watcher.accepts tools⟩

abbrev WatcherStorage := HashMap String (List Watcher)

namespace WatcherStorage

variable (storage : WatcherStorage) (collection : String)

def watchers : List Watcher := (storage.get? collection).getD []

def push (watcher : Watcher) : WatcherStorage :=
  HashMap.insert storage collection (storage.watchers collection ++ [watcher])

-- The collection goes with its last watcher.
def retain (keep : Watcher → Bool) : WatcherStorage :=
  match storage.get? collection with
  | some watchers =>
    if (watchers.filter keep).isEmpty then HashMap.erase storage collection
    else HashMap.insert storage collection (watchers.filter keep)
  | none => storage

end WatcherStorage

abbrev WatchAction := HubAction String Watcher String ChangeEvent

-- The watchers, the channels that they send to, and the calls of `emit_change` under way.
structure WatchState where
  storage : WatcherStorage
  channels : List (Channel ChangeEvent)
  emitters : List (Broadcast String Watcher String ChangeEvent)

namespace WatchState

def start : WatchState := ⟨∅, [], []⟩

variable (tools : QueryTools) (s : WatchState)

-- A writer waits for those that send.
def readLocked : Bool := s.emitters.any Broadcast.isSending

def connected (sender : Nat) : Bool := (s.channels[sender]?.map Channel.connected).getD false

def setEmitter (i : Nat) (emitter : Broadcast String Watcher String ChangeEvent) : WatchState :=
  { s with emitters := s.emitters.set i emitter }

-- `subscribe`, with a channel of its own
def subscribe (collection : String) (watcher : Watcher) : Option WatchState :=
  if s.readLocked || watcher.sender != s.channels.length then none
  else some { s with
    storage := s.storage.push collection watcher
    channels := s.channels ++ [⟨[], [], true⟩] }

-- `WatchHandle::drop`
def dropHandle (collection watcherId : String) : Option WatchState :=
  if s.readLocked then none
  else some { s with storage := s.storage.retain collection fun w => w.id ≠ watcherId }

def dropReceiver (sender : Nat) : WatchState := { s with channels := s.channels.modify sender .disconnect }

def recv (sender : Nat) : Option WatchState :=
  if s.connected sender then some { s with channels := s.channels.modify sender .receive } else none

section EmitChange

def emitChange (collection : String) (event : ChangeEvent) : WatchState :=
  { s with emitters := s.emitters ++ [.called collection event] }

def lockForReading (i : Nat) : Option WatchState :=
  match s.emitters[i]? with
  | some (.called collection event) =>
    some (s.setEmitter i (.sending collection event (s.storage.watchers collection) []))
  | _ => none

-- `send` for the next watcher of the loop
def sendNext (i : Nat) : Option WatchState :=
  match s.emitters[i]? with
  | some (.sending collection event (watcher :: rest) deadWatchers) =>
    if !watcher.accepts tools event then some (s.setEmitter i (.sending collection event rest deadWatchers))
    else if s.connected watcher.sender then
      some ({ s with channels := s.channels.modify watcher.sender (.send event) }.setEmitter i
        (.sending collection event rest deadWatchers))
    else some (s.setEmitter i (.sending collection event rest (deadWatchers ++ [watcher.id])))
  | _ => none

def unlock (i : Nat) : Option WatchState :=
  match s.emitters[i]? with
  | some (.sending collection _ [] deadWatchers) =>
    some (s.setEmitter i (if deadWatchers.isEmpty then .done else .cleaning collection deadWatchers))
  | _ => none

def removeDead (i : Nat) : Option WatchState :=
  match s.emitters[i]? with
  | some (.cleaning collection deadWatchers) =>
    if s.readLocked then none
    else some ({ s with storage := s.storage.retain collection fun w => w.id ∉ deadWatchers }.setEmitter i .done)
  | _ => none

end EmitChange

def step : WatchAction → Option WatchState
  | .subscribe collection watcher => s.subscribe collection watcher
  | .unsubscribe collection watcherId => s.dropHandle collection watcherId
  | .disconnect sender => some (s.dropReceiver sender)
  | .receive sender => s.recv sender
  | .call collection event => some (s.emitChange collection event)
  | .acquire i => s.lockForReading i
  | .send i => s.sendNext tools i
  | .release i => s.unlock i
  | .clean i => s.removeDead i

def run (actions : List WatchAction) : Option WatchState := actions.foldlM (step tools) s

-- What the calls under way still send to a watcher.
def underWay (sender : Nat) : List ChangeEvent := s.emitters.flatMap (Broadcast.toward (watching tools) sender)

end WatchState

namespace WatcherStorage

variable (storage : WatcherStorage) (collection : String)

theorem watchers_push (watcher : Watcher) : (storage.push collection watcher).watchers =
    Function.update storage.watchers collection (storage.watchers collection ++ [watcher]) := by
  funext other
  unfold watchers push
  rw [HashMap.get?_insert]
  by_cases hother : other = collection
  · subst hother
    simp [watchers]
  · simp [hother]

theorem watchers_retain (keep : Watcher → Bool) : (storage.retain collection keep).watchers =
    Function.update storage.watchers collection ((storage.watchers collection).filter keep) := by
  funext other
  unfold retain watchers
  cases hget : storage.get? collection with
  | none =>
    by_cases hother : other = collection
    · subst hother
      simp [hget]
    · simp [hother]
  | some watchers =>
    simp only
    split
    case isTrue hempty =>
      rw [HashMap.get?_erase]
      by_cases hother : other = collection
      · subst hother
        rw [if_pos rfl, Function.update_self]
        exact (List.isEmpty_iff.mp hempty).symm
      · simp [hother]
    case isFalse =>
      rw [HashMap.get?_insert]
      by_cases hother : other = collection
      · subst hother
        simp
      · simp [hother]

-- No collection is kept without watchers.
def Tidy : Prop := ∀ collection, storage.get? collection ≠ some []

variable {storage}

theorem Tidy.push (h : storage.Tidy) (watcher : Watcher) : (storage.push collection watcher).Tidy := by
  intro other
  unfold WatcherStorage.push
  rw [HashMap.get?_insert]
  split
  · simp
  · exact h other

theorem Tidy.retain (h : storage.Tidy) (keep : Watcher → Bool) : (storage.retain collection keep).Tidy := by
  intro other
  unfold WatcherStorage.retain
  split
  case h_2 => exact h other
  case h_1 watchers _ =>
    split
    · rw [HashMap.get?_erase]
      split
      · simp
      · exact h other
    case isFalse hleft =>
      rw [HashMap.get?_insert]
      split
      · simpa using hleft
      · exact h other

end WatcherStorage

namespace WatchState

variable {tools : QueryTools} {s s' : WatchState} {a : WatchAction} {actions : List WatchAction}

def hub (s : WatchState) : Hub String Watcher String ChangeEvent := ⟨s.storage.watchers, s.channels, s.emitters⟩

theorem hub_step (h : s.step tools a = some s') : s.hub.step (watching tools) a = some s'.hub := by
  cases a with
  | subscribe collection watcher =>
    simp only [step, subscribe] at h
    split at h
    · cases h
    case isFalse hcan =>
      obtain rfl := Option.some.inj h
      refine (if_neg hcan).trans (congrArg some ?_)
      simp only [hub, Hub.edit, WatcherStorage.watchers_push]
  | unsubscribe collection watcherId =>
    simp only [step, dropHandle] at h
    split at h
    · cases h
    case isFalse hfree =>
      obtain rfl := Option.some.inj h
      refine (if_neg hfree).trans (congrArg some ?_)
      simp only [hub, Hub.edit, WatcherStorage.watchers_retain]
      rfl
  | disconnect sender =>
    obtain rfl := Option.some.inj h
    rfl
  | receive sender =>
    simp only [step, recv] at h
    split at h
    case isTrue hconnected =>
      obtain rfl := Option.some.inj h
      exact if_pos hconnected
    · cases h
  | call collection event =>
    obtain rfl := Option.some.inj h
    rfl
  | acquire i =>
    simp only [step, lockForReading] at h
    split at h
    case h_1 collection event hi =>
      obtain rfl := Option.some.inj h
      have hi : s.hub.broadcasts[i]? = some (.called collection event) := hi
      simp only [Hub.step, hi]
      rfl
    case h_2 => cases h
  | send i =>
    simp only [step, sendNext] at h
    split at h
    case h_1 collection event watcher rest deadWatchers hi =>
      have hi : s.hub.broadcasts[i]? = some (.sending collection event (watcher :: rest) deadWatchers) := hi
      simp only [Hub.step, hi]
      split at h
      case isTrue hnot =>
        obtain rfl := Option.some.inj h
        exact if_pos hnot
      case isFalse hwants =>
        refine (if_neg hwants).trans ?_
        split at h
        case isTrue hconnected =>
          obtain rfl := Option.some.inj h
          exact if_pos hconnected
        case isFalse hgone =>
          obtain rfl := Option.some.inj h
          exact if_neg hgone
    case h_2 => cases h
  | release i =>
    simp only [step, unlock] at h
    split at h
    case h_1 collection event deadWatchers hi =>
      obtain rfl := Option.some.inj h
      have hi : s.hub.broadcasts[i]? = some (.sending collection event [] deadWatchers) := hi
      simp only [Hub.step, hi]
      rfl
    case h_2 => cases h
  | clean i =>
    simp only [step, removeDead] at h
    split at h
    case h_1 collection deadWatchers hi =>
      have hi : s.hub.broadcasts[i]? = some (.cleaning collection deadWatchers) := hi
      simp only [Hub.step, hi]
      split at h
      · cases h
      case isFalse hfree =>
        obtain rfl := Option.some.inj h
        refine (if_neg hfree).trans (congrArg some ?_)
        simp only [hub, setEmitter, Hub.setBroadcast, Hub.edit, WatcherStorage.watchers_retain]
        rfl
    case h_2 => cases h

theorem hub_run (h : s.run tools actions = some s') : s.hub.run (watching tools) actions = some s'.hub := by
  induction actions generalizing s with
  | nil =>
    obtain rfl := Option.some.inj h
    rfl
  | cons a actions ih =>
    obtain ⟨s₁, hstep, hrest⟩ := Option.bind_eq_some_iff.mp h
    exact Option.bind_eq_some_iff.mpr ⟨s₁.hub, hub_step hstep, ih hrest⟩

theorem storage_step (h : s.step tools a = some s') : s'.storage = s.storage ∨
    (∃ collection watcher, s'.storage = s.storage.push collection watcher) ∨
      ∃ collection keep, s'.storage = s.storage.retain collection keep := by
  cases a with
  | subscribe collection watcher =>
    simp only [step, subscribe, Option.ite_none_left_eq_some] at h
    exact .inr (.inl ⟨collection, watcher, by rw [← Option.some.inj h.2]⟩)
  | unsubscribe collection watcherId =>
    simp only [step, dropHandle, Option.ite_none_left_eq_some] at h
    exact .inr (.inr ⟨collection, _, by rw [← Option.some.inj h.2]⟩)
  | disconnect sender => exact .inl (by rw [← Option.some.inj h]; rfl)
  | receive sender =>
    simp only [step, recv, Option.ite_none_right_eq_some] at h
    exact .inl (by rw [← Option.some.inj h.2])
  | call collection event => exact .inl (by rw [← Option.some.inj h]; rfl)
  | acquire i =>
    simp only [step, lockForReading] at h
    split at h
    · exact .inl (by rw [← Option.some.inj h]; rfl)
    · cases h
  | send i =>
    simp only [step, sendNext] at h
    split at h
    · split at h
      · exact .inl (by rw [← Option.some.inj h]; rfl)
      · split at h <;> exact .inl (by rw [← Option.some.inj h]; rfl)
    · cases h
  | release i =>
    simp only [step, unlock] at h
    split at h
    · exact .inl (by rw [← Option.some.inj h]; rfl)
    · cases h
  | clean i =>
    simp only [step, removeDead] at h
    split at h
    · simp only [Option.ite_none_left_eq_some] at h
      exact .inr (.inr ⟨_, _, by rw [← Option.some.inj h.2]; rfl⟩)
    · cases h

theorem tidy_run (hs : s.storage.Tidy) (h : s.run tools actions = some s') : s'.storage.Tidy := by
  induction actions generalizing s with
  | nil =>
    obtain rfl := Option.some.inj h
    exact hs
  | cons a actions ih =>
    obtain ⟨s₁, hstep, hrest⟩ := Option.bind_eq_some_iff.mp h
    refine ih ?_ hrest
    rcases storage_step hstep with heq | ⟨collection, watcher, heq⟩ | ⟨collection, keep, heq⟩
    · rw [heq]
      exact hs
    · rw [heq]
      exact hs.push collection watcher
    · rw [heq]
      exact hs.retain collection keep

theorem accounts (hids : (actions.flatMap (HubAction.names (watching tools))).Nodup)
    (h : start.run tools actions = some s) :
    ∃ used, Accounts (watching tools) s.hub (Mailing.run (watching tools) .start actions) used :=
  Accounts.start.run hids (by simp) (hub_run h)

end WatchState

section Run

variable {tools : QueryTools} {s : WatchState} {actions : List WatchAction}

-- As long as it has its receiver a watcher gets each event once, and only those it is to get.
theorem watcher_receives (hids : (actions.flatMap (HubAction.names (watching tools))).Nodup)
    (h : WatchState.start.run tools actions = some s) {sender : Nat} {channel : Channel ChangeEvent}
    (hchannel : s.channels[sender]? = some channel) (hconnected : channel.connected) :
    (channel.history ++ s.underWay tools sender).Perm
      ((Mailing.run (watching tools) .start actions).owed sender) := by
  obtain ⟨used, haccounts⟩ := WatchState.accounts hids h
  exact haccounts.owed sender channel hchannel hconnected

-- Watchers are registered from `subscribe` until their own handle is dropped, or their receiver.
theorem watcher_registered (hids : (actions.flatMap (HubAction.names (watching tools))).Nodup)
    (h : WatchState.start.run tools actions = some s) (collection : String) :
    let subscribed := (Mailing.run (watching tools) .start actions).under collection
    (s.storage.watchers collection).Sublist subscribed ∧
      (∀ watcher ∈ subscribed, s.connected watcher.sender → watcher ∈ s.storage.watchers collection) ∧
      s.storage.get? collection ≠ some [] := by
  obtain ⟨used, haccounts⟩ := WatchState.accounts hids h
  have htidy := WatchState.tidy_run (by simp [WatcherStorage.Tidy, WatchState.start]) h collection
  exact ⟨haccounts.stored collection, haccounts.kept collection, htidy⟩

-- Two events at once. The receiver of the first watcher goes away in between, and the last watcher
-- filters by documents that the events do not have.
def twoEvents : List WatchAction :=
  [.subscribe "c" ⟨"w0", 0, none⟩, .subscribe "c" ⟨"w1", 1, none⟩, .subscribe "c" ⟨"w2", 2, some "age > 25"⟩,
    .call "c" ⟨"c", .insert, "a", none⟩, .call "c" ⟨"c", .update, "b", none⟩, .acquire 0, .send 0, .acquire 1,
    .disconnect 0, .send 1, .send 1, .send 1, .release 1, .send 0, .receive 1]

theorem watcher_receives_two : ∃ s channel, WatchState.start.run Query.asciiTools twoEvents = some s ∧
    s.channels[1]? = some channel ∧ channel.connected ∧ channel.received.map ChangeEvent.docId = ["b"] ∧
    channel.queue.map ChangeEvent.docId = ["a"] ∧
    (channel.history ++ s.underWay Query.asciiTools 1).Perm
      ((Mailing.run (watching Query.asciiTools) .start twoEvents).owed 1) := by
  have hids : (twoEvents.flatMap (HubAction.names (watching Query.asciiTools))).Nodup := by decide
  have hrun : ((WatchState.start.run Query.asciiTools twoEvents).bind fun s => s.channels[1]?.map fun channel =>
      (channel.connected, channel.received.map ChangeEvent.docId, channel.queue.map ChangeEvent.docId)) =
      some (true, ["b"], ["a"]) := by
    decide +kernel
  obtain ⟨s, hs, hchannel⟩ := Option.bind_eq_some_iff.mp hrun
  obtain ⟨channel, hchannel, heq⟩ := Option.map_eq_some_iff.mp hchannel
  obtain ⟨hconnected, hreceived, hqueue⟩ : channel.connected = true ∧ channel.received.map ChangeEvent.docId = ["b"] ∧
      channel.queue.map ChangeEvent.docId = ["a"] := by simpa using heq
  exact ⟨s, channel, hs, hchannel, hconnected, hreceived, hqueue, watcher_receives hids hs hchannel hconnected⟩

-- The first call ends, and then the second takes out the watcher that is gone.
def deadRemoved : List WatchAction := twoEvents ++ [.send 0, .release 0, .clean 1]

theorem watcher_registered_two : ∃ s, WatchState.start.run Query.asciiTools deadRemoved = some s ∧
    (s.storage.watchers "c").map Watcher.id = ["w1", "w2"] ∧
    (let subscribed := (Mailing.run (watching Query.asciiTools) .start deadRemoved).under "c"
    (s.storage.watchers "c").Sublist subscribed ∧
      (∀ watcher ∈ subscribed, s.connected watcher.sender → watcher ∈ s.storage.watchers "c") ∧
      s.storage.get? "c" ≠ some []) := by
  have hids : (deadRemoved.flatMap (HubAction.names (watching Query.asciiTools))).Nodup := by decide
  have hrun : (WatchState.start.run Query.asciiTools deadRemoved).map
      (fun s => (s.storage.watchers "c").map Watcher.id) = some ["w1", "w2"] := by
    decide +kernel
  obtain ⟨s, hs, hwatchers⟩ := Option.map_eq_some_iff.mp hrun
  exact ⟨s, hs, hwatchers, watcher_registered hids hs "c"⟩

end Run

end JasonDb
