import Mathlib.Data.List.Nodup
import Mathlib.Data.List.Perm.Basic
import Mathlib.Logic.Function.Basic

namespace JasonDb.Lib

-- A channel, and what its receiver has taken out of it.
structure Channel (E : Type) where
  received : List E
  queue : List E
  connected : Bool

namespace Channel

variable {E : Type}

def history (c : Channel E) : List E := c.received ++ c.queue

def send (message : E) (c : Channel E) : Channel E := { c with queue := c.queue ++ [message] }

def receive (c : Channel E) : Channel E :=
  match c.queue with
  | [] => c
  | message :: rest => { c with received := c.received ++ [message], queue := rest }

def disconnect (c : Channel E) : Channel E := { c with connected := false }

@[simp] theorem history_send (c : Channel E) (message : E) :
    (c.send message).history = c.history ++ [message] := by
  simp [history, send]

@[simp] theorem history_receive (c : Channel E) : c.receive.history = c.history := by
  unfold history receive
  cases hqueue : c.queue <;> simp [hqueue]

@[simp] theorem connected_send (c : Channel E) (message : E) : (c.send message).connected = c.connected := rfl

@[simp] theorem connected_receive (c : Channel E) : c.receive.connected = c.connected := by
  unfold receive
  cases c.queue <;> rfl

end Channel

-- A message to all subscribers of a topic. It goes to one after the other under a lock for reading.
-- Those whose receiver is gone are then taken out of the registry, under a lock for writing.
inductive Broadcast (T S I E : Type) where
  | called (topic : T) (message : E)
  | sending (topic : T) (message : E) (rest : List S) (dead : List I)
  | cleaning (topic : T) (dead : List I)
  | done

structure Hub (T S I E : Type) where
  registry : T → List S
  channels : List (Channel E)
  broadcasts : List (Broadcast T S I E)

inductive HubAction (T S I E : Type) where
  | subscribe (topic : T) (subscriber : S)
  | unsubscribe (topic : T) (name : I)
  | disconnect (channel : Nat)
  | receive (channel : Nat)
  | call (topic : T) (message : E)
  | acquire (i : Nat)
  | send (i : Nat)
  | release (i : Nat)
  | clean (i : Nat)

-- What a subscriber is called, which channel it sends to and which messages it is to get.
structure Subscribing (S I E : Type) where
  name : S → I
  channel : S → Nat
  wants : S → E → Bool

variable {T S I E : Type}

-- The names that an action brings in.
def HubAction.names (r : Subscribing S I E) : HubAction T S I E → List I
  | .subscribe _ s => [r.name s]
  | _ => []

namespace Broadcast

def isSending : Broadcast T S I E → Bool
  | sending _ _ _ _ => true
  | _ => false

def dead : Broadcast T S I E → List I
  | sending _ _ _ dead | cleaning _ dead => dead
  | _ => []

-- What is still to be sent to a channel.
def toward (r : Subscribing S I E) (k : Nat) : Broadcast T S I E → List E
  | sending _ message rest _ =>
    if rest.any (fun s => r.channel s == k && r.wants s message) then [message] else []
  | _ => []

end Broadcast

namespace Hub

variable (r : Subscribing S I E)

def start : Hub T S I E := ⟨fun _ => [], [], []⟩

-- Somebody holds the lock for reading.
def locked (h : Hub T S I E) : Bool := h.broadcasts.any Broadcast.isSending

def onChannel (k : Nat) (f : Channel E → Channel E) (h : Hub T S I E) : Hub T S I E :=
  { h with channels := h.channels.modify k f }

def setBroadcast (i : Nat) (b : Broadcast T S I E) (h : Hub T S I E) : Hub T S I E :=
  { h with broadcasts := h.broadcasts.set i b }

def live (h : Hub T S I E) (k : Nat) : Bool := (h.channels[k]?.map Channel.connected).getD false

-- What broadcasts under way still send to a channel.
def pending (h : Hub T S I E) (k : Nat) : List E := h.broadcasts.flatMap (Broadcast.toward r k)

variable [DecidableEq T] [DecidableEq I]

def edit (topic : T) (f : List S → List S) (h : Hub T S I E) : Hub T S I E :=
  { h with registry := Function.update h.registry topic (f (h.registry topic)) }

-- One action, where no lock and no earlier action is in its way.
def step (h : Hub T S I E) : HubAction T S I E → Option (Hub T S I E)
  | .subscribe topic s =>
    if h.locked || r.channel s != h.channels.length then none
    else some { h.edit topic (· ++ [s]) with channels := h.channels ++ [⟨[], [], true⟩] }
  | .unsubscribe topic name =>
    if h.locked then none else some (h.edit topic (·.filter fun s => r.name s ≠ name))
  | .disconnect k => some (h.onChannel k .disconnect)
  | .receive k => if h.live k then some (h.onChannel k .receive) else none
  | .call topic message => some { h with broadcasts := h.broadcasts ++ [.called topic message] }
  | .acquire i => match h.broadcasts[i]? with
    | some (.called topic message) => some (h.setBroadcast i (.sending topic message (h.registry topic) []))
    | _ => none
  | .send i => match h.broadcasts[i]? with
    | some (.sending topic message (s :: rest) dead) =>
      if !r.wants s message then some (h.setBroadcast i (.sending topic message rest dead))
      else if h.live (r.channel s) then
        some ((h.onChannel (r.channel s) (.send message)).setBroadcast i (.sending topic message rest dead))
      else some (h.setBroadcast i (.sending topic message rest (dead ++ [r.name s])))
    | _ => none
  | .release i => match h.broadcasts[i]? with
    | some (.sending topic _ [] dead) =>
      some (h.setBroadcast i (if dead.isEmpty then .done else .cleaning topic dead))
    | _ => none
  | .clean i => match h.broadcasts[i]? with
    | some (.cleaning topic dead) =>
      if h.locked then none
      else some ((h.edit topic (·.filter fun s => r.name s ∉ dead)).setBroadcast i .done)
    | _ => none

def run (h : Hub T S I E) (actions : List (HubAction T S I E)) : Option (Hub T S I E) :=
  actions.foldlM (step r) h

end Hub

-- Who is subscribed, and what the channels are owed if a broadcast reached everybody at once.
structure Mailing (T S E : Type) where
  members : List (T × S)
  calls : List (T × E)
  owed : Nat → List E

namespace Mailing

variable (r : Subscribing S I E)

def start : Mailing T S E := ⟨[], [], fun _ => []⟩

variable [DecidableEq T] [DecidableEq I]

def under (m : Mailing T S E) (topic : T) : List S := (m.members.filter (·.1 = topic)).map Prod.snd

-- What a channel gets of a message to a topic.
def share (m : Mailing T S E) (topic : T) (message : E) (k : Nat) : List E :=
  if (m.under topic).any fun s => r.channel s == k && r.wants s message then [message] else []

def step (m : Mailing T S E) : HubAction T S I E → Mailing T S E
  | .subscribe topic s => { m with members := m.members ++ [(topic, s)] }
  | .unsubscribe topic name =>
    { m with members := m.members.filter fun p => ¬ (p.1 = topic ∧ r.name p.2 = name) }
  | .call topic message => { m with calls := m.calls ++ [(topic, message)] }
  | .acquire i => match m.calls[i]? with
    | some (topic, message) => { m with owed := fun k => m.owed k ++ m.share r topic message k }
    | none => m
  | _ => m

def run (m : Mailing T S E) (actions : List (HubAction T S I E)) : Mailing T S E := actions.foldl (step r) m

end Mailing

variable {r : Subscribing S I E} {h h' : Hub T S I E} {m m' : Mailing T S E} {used : List I} {i k : Nat}
  {topic : T} {message : E}

namespace Mailing

@[simp] theorem mem_under [DecidableEq T] {s : S} : s ∈ m.under topic ↔ (topic, s) ∈ m.members := by
  simp [under]

end Mailing

namespace Hub

theorem live_iff : h.live k ↔ ∃ c, h.channels[k]? = some c ∧ c.connected := by
  unfold live
  cases h.channels[k]? <;> simp

theorem live_eq (hsame : h'.channels.map Channel.connected = h.channels.map Channel.connected) (k : Nat) :
    h'.live k = h.live k := by
  unfold live
  rw [← List.getElem?_map, ← List.getElem?_map, hsame]

theorem pending_eq_nil (hfree : h.locked = false) (k : Nat) : h.pending r k = [] := by
  unfold locked at hfree
  rw [List.any_eq_false] at hfree
  refine List.flatMap_eq_nil_iff.mpr fun b hb => ?_
  have hnot := hfree b hb
  cases b <;> simp_all [Broadcast.toward, Broadcast.isSending]

theorem not_sending (hfree : h.locked = false) {rest : List S} {dead : List I} :
    .sending topic message rest dead ∉ h.broadcasts := by
  unfold locked at hfree
  rw [List.any_eq_false] at hfree
  exact fun hmem => hfree _ hmem rfl

-- A broadcast among the others.
theorem exists_perm_pending {b : Broadcast T S I E} (hi : h.broadcasts[i]? = some b) (k : Nat) :
    ∃ others, (h.pending r k).Perm (b.toward r k ++ others) ∧
      ∀ b', ((h.broadcasts.set i b').flatMap (Broadcast.toward r k)).Perm (b'.toward r k ++ others) := by
  obtain ⟨hlt, rfl⟩ := List.getElem?_eq_some_iff.mp hi
  refine ⟨(h.broadcasts.eraseIdx i).flatMap (Broadcast.toward r k), ?_, fun b' => ?_⟩
  · exact ((List.getElem_cons_eraseIdx_perm hlt).symm.flatMap_right _).trans (by simp)
  · exact ((List.set_perm_cons_eraseIdx hlt b').flatMap_right _).trans (by simp)

end Hub

variable [DecidableEq T]

-- The hub against the mailing, where `used` are the names that subscribers have had.
structure Accounts (r : Subscribing S I E) (h : Hub T S I E) (m : Mailing T S E) (used : List I) : Prop where
  length : h.broadcasts.length = m.calls.length
  calls : ∀ (i : Nat) (topic : T) (message : E), h.broadcasts[i]? = some (Broadcast.called topic message) →
    m.calls[i]? = some (topic, message)
  names : (m.members.map fun p => r.name p.2).Nodup
  known : ∀ p ∈ m.members, r.name p.2 ∈ used
  apart : (m.members.map fun p => r.channel p.2).Nodup
  opened : ∀ p ∈ m.members, r.channel p.2 < h.channels.length
  stored : ∀ topic, (h.registry topic).Sublist (m.under topic)
  kept : ∀ topic, ∀ s ∈ m.under topic, h.live (r.channel s) → s ∈ h.registry topic
  rest : ∀ topic message rest dead, Broadcast.sending topic message rest dead ∈ h.broadcasts →
    rest.Sublist (h.registry topic)
  gone : ∀ b ∈ h.broadcasts, ∀ n ∈ b.dead, n ∈ used ∧
    ∀ p ∈ m.members, r.name p.2 = n → h.live (r.channel p.2) = false
  owed : ∀ k c, h.channels[k]? = some c → c.connected → (c.history ++ h.pending r k).Perm (m.owed k)
  fresh : ∀ k, h.channels.length ≤ k → m.owed k = []

namespace Accounts

theorem start : Accounts r (Hub.start : Hub T S I E) .start [] := by
  constructor <;> simp [Hub.start, Mailing.start, Mailing.under]

-- A broadcast goes on. What a channel gets it was owed before, or is owed from now on.
theorem advance (ha : Accounts r h m used) {b b' : Broadcast T S I E} (hi : h.broadcasts[i]? = some b)
    {channels : List (Channel E)} {owed : Nat → List E}
    (hsame : channels.map Channel.connected = h.channels.map Channel.connected)
    (hcalled : ∀ topic message, b' ≠ .called topic message)
    (hrest : ∀ topic message rest dead, b' = .sending topic message rest dead → rest.Sublist (h.registry topic))
    (hdead : ∀ n ∈ b'.dead, n ∈ used ∧ ∀ p ∈ m.members, r.name p.2 = n → h.live (r.channel p.2) = false)
    (howed : ∀ k c', channels[k]? = some c' → c'.connected → ∃ c, h.channels[k]? = some c ∧ c.connected ∧
      ∀ others, (c.history ++ (b.toward r k ++ others)).Perm (m.owed k) →
        (c'.history ++ (b'.toward r k ++ others)).Perm (owed k))
    (hfresh : ∀ k, h.channels.length ≤ k → owed k = m.owed k) :
    Accounts r ⟨h.registry, channels, h.broadcasts.set i b'⟩ { m with owed } used := by
  have hlength : channels.length = h.channels.length := by simpa using congrArg List.length hsame
  have hlive := @Hub.live_eq T S I E h ⟨h.registry, channels, h.broadcasts.set i b'⟩ hsame
  refine { ha with
    length := by simpa using ha.length
    calls := fun j topic message hj => ?_
    opened := fun p hp => by rw [hlength]; exact ha.opened p hp
    kept := fun topic s hs hl => ha.kept topic s hs (hlive _ ▸ hl)
    rest := fun topic message rest dead hmem => ?_
    gone := fun c hc n hn => ?_
    owed := fun k c' hc' hconn => ?_
    fresh := fun k hk => ?_ }
  · rw [List.getElem?_set] at hj
    split at hj
    · split at hj
      · exact absurd (Option.some.inj hj) (hcalled topic message)
      · cases hj
    · exact ha.calls j topic message hj
  · rcases List.mem_or_eq_of_mem_set hmem with hmem | heq
    · exact ha.rest topic message rest dead hmem
    · exact hrest topic message rest dead heq.symm
  · have hg : n ∈ used ∧ ∀ p ∈ m.members, r.name p.2 = n → h.live (r.channel p.2) = false := by
      rcases List.mem_or_eq_of_mem_set hc with hc | rfl
      · exact ha.gone c hc n hn
      · exact hdead n hn
    exact ⟨hg.1, fun p hp hname => by rw [hlive]; exact hg.2 p hp hname⟩
  · obtain ⟨c, hc, hconnected, hperm⟩ := howed k c' hc' hconn
    obtain ⟨others, hbefore, hafter⟩ := Hub.exists_perm_pending (r := r) hi k
    have hold := ha.owed k c hc hconnected
    exact ((hafter b').append_left _).trans (hperm others ((hbefore.symm.append_left _).trans hold))
  · rw [hlength] at hk
    exact (hfresh k hk).trans (ha.fresh k hk)

theorem subscribe [DecidableEq I] (ha : Accounts r h m used) {s : S} (hfree : h.locked = false)
    (hchannel : r.channel s = h.channels.length) (hname : r.name s ∉ used) :
    Accounts r { h.edit topic (· ++ [s]) with channels := h.channels ++ [⟨[], [], true⟩] }
      { m with members := m.members ++ [(topic, s)] } (r.name s :: used) := by
  have hlive : ∀ p ∈ m.members, ({ h.edit topic (· ++ [s]) with
      channels := h.channels ++ [⟨[], [], true⟩] } : Hub T S I E).live (r.channel p.2) = h.live (r.channel p.2) := by
    intro p hp
    unfold Hub.live
    rw [List.getElem?_append_left (ha.opened p hp)]
  have hunder : ∀ topic', ({ m with members := m.members ++ [(topic, s)] } : Mailing T S E).under topic' =
      m.under topic' ++ if topic = topic' then [s] else [] := by
    intro topic'
    unfold Mailing.under
    rw [List.filter_append, List.map_append]
    by_cases heq : topic = topic' <;> simp [heq]
  refine { ha with names := ?_, known := ?_, apart := ?_, opened := ?_, stored := ?_, kept := ?_, rest := ?_,
                   gone := ?_, owed := ?_, fresh := ?_ }
  · rw [List.map_append, List.nodup_append]
    refine ⟨ha.names, by simp, ?_⟩
    rintro n hn _ hlast rfl
    obtain rfl : n = r.name s := by simpa using hlast
    obtain ⟨p, hp, hpn⟩ := List.mem_map.mp hn
    exact hname (hpn ▸ ha.known p hp)
  · intro p hp
    rcases List.mem_append.mp hp with hp | hp
    · exact List.mem_cons_of_mem _ (ha.known p hp)
    · obtain rfl : p = (topic, s) := by simpa using hp
      exact List.mem_cons_self
  · rw [List.map_append, List.nodup_append]
    refine ⟨ha.apart, by simp, ?_⟩
    rintro k hk _ hlast rfl
    obtain rfl : k = r.channel s := by simpa using hlast
    obtain ⟨p, hp, hpk⟩ := List.mem_map.mp hk
    exact absurd (ha.opened p hp) (by omega)
  · intro p hp
    rw [List.length_append, List.length_singleton]
    rcases List.mem_append.mp hp with hp | hp
    · exact Nat.lt_succ_of_lt (ha.opened p hp)
    · obtain rfl : p = (topic, s) := by simpa using hp
      exact hchannel ▸ Nat.lt_succ_self _
  · intro topic'
    rw [hunder, Hub.edit]
    by_cases heq : topic = topic'
    · subst heq
      simpa using (ha.stored topic).append_right [s]
    · simpa [heq, Function.update_of_ne (Ne.symm heq)] using ha.stored topic'
  · intro topic' s' hs' hl
    rw [hunder] at hs'
    rw [Hub.edit]
    rcases List.mem_append.mp hs' with hs' | hs'
    · have hmem : s' ∈ h.registry topic' := ha.kept topic' s' hs' (hlive _ (Mailing.mem_under.mp hs') ▸ hl)
      by_cases heq : topic' = topic
      · subst heq
        simpa using Or.inl hmem
      · simpa [Function.update_of_ne heq] using hmem
    · by_cases heq : topic = topic'
      · subst heq
        obtain rfl : s' = s := by simpa using hs'
        simp
      · simp [heq] at hs'
  · exact fun _ _ _ _ hmem => absurd hmem (Hub.not_sending hfree)
  · intro b hb n hn
    obtain ⟨hused, hg⟩ := ha.gone b hb n hn
    refine ⟨List.mem_cons_of_mem _ hused, fun p hp hpn => ?_⟩
    rcases List.mem_append.mp hp with hp | hp
    · rw [hlive p hp]
      exact hg p hp hpn
    · obtain rfl : p = (topic, s) := by simpa using hp
      exact absurd (hpn ▸ hused) hname
  · intro k c hc hconn
    have hpending : ({ h.edit topic (· ++ [s]) with channels := h.channels ++ [⟨[], [], true⟩] } :
        Hub T S I E).pending r k = h.pending r k := rfl
    rw [hpending]
    by_cases hk : k < h.channels.length
    · rw [List.getElem?_append_left hk] at hc
      exact ha.owed k c hc hconn
    · have hlast : c = ⟨[], [], true⟩ := by
        rw [List.getElem?_append_right (Nat.le_of_not_lt hk)] at hc
        exact List.mem_singleton.mp (List.mem_of_getElem? hc)
      have hnone := ha.fresh k (Nat.le_of_not_lt hk)
      rw [hlast, Hub.pending_eq_nil hfree, hnone]
      rfl
  · intro k hk
    rw [List.length_append] at hk
    exact ha.fresh k (by omega)

-- Subscribers are taken out of a topic while nobody sends.
theorem edit (ha : Accounts r h m used) (hfree : h.locked = false) {keep : S → Bool} {members : List (T × S)}
    (hsub : members.Sublist m.members)
    (hstored : ((h.registry topic).filter keep).Sublist (({ m with members } : Mailing T S E).under topic))
    (hkept : ∀ s, (topic, s) ∈ members → h.live (r.channel s) → keep s)
    (hother : ∀ topic', topic' ≠ topic → ({ m with members } : Mailing T S E).under topic' = m.under topic') :
    Accounts r (h.edit topic (·.filter keep)) { m with members } used := by
  refine { ha with
    names := ha.names.sublist (hsub.map _)
    known := fun p hp => ha.known p (hsub.subset hp)
    apart := ha.apart.sublist (hsub.map _)
    opened := fun p hp => ha.opened p (hsub.subset hp)
    stored := fun topic' => ?_
    kept := fun topic' s hs hl => ?_
    rest := fun _ _ _ _ hmem => absurd hmem (Hub.not_sending hfree)
    gone := fun b hb n hn => ⟨(ha.gone b hb n hn).1, fun p hp => (ha.gone b hb n hn).2 p (hsub.subset hp)⟩ }
  · rw [Hub.edit]
    by_cases heq : topic' = topic
    · subst heq
      simpa using hstored
    · simpa [Function.update_of_ne heq, hother topic' heq] using ha.stored topic'
  · have hmem : s ∈ h.registry topic' := by
      refine ha.kept topic' s (Mailing.mem_under.mpr (hsub.subset (Mailing.mem_under.mp hs))) hl
    rw [Hub.edit]
    by_cases heq : topic' = topic
    · subst heq
      simpa using ⟨hmem, hkept s (Mailing.mem_under.mp hs) hl⟩
    · simpa [Function.update_of_ne heq] using hmem

theorem unsubscribe [DecidableEq I] (ha : Accounts r h m used) (hfree : h.locked = false) (n : I) :
    Accounts r (h.edit topic (·.filter fun s => r.name s ≠ n))
      { m with members := m.members.filter fun p => ¬ (p.1 = topic ∧ r.name p.2 = n) } used := by
  have hunder : ∀ topic', ({ m with members := m.members.filter fun p => ¬ (p.1 = topic ∧ r.name p.2 = n) } :
      Mailing T S E).under topic' = if topic' = topic then (m.under topic).filter fun s => r.name s ≠ n
        else m.under topic' := by
    intro topic'
    unfold Mailing.under
    rw [List.filter_filter]
    by_cases heq : topic' = topic
    · subst heq
      rw [if_pos rfl, List.filter_map, List.filter_filter]
      refine congrArg _ (List.filter_congr fun p _ => ?_)
      by_cases hp : p.1 = topic' <;> simp [hp]
    · rw [if_neg heq]
      refine congrArg _ (List.filter_congr fun p _ => ?_)
      by_cases hp : p.1 = topic' <;> simp [hp, heq]
  refine ha.edit hfree List.filter_sublist ?_ (fun s hs _ => ?_) fun topic' hne => ?_
  · rw [hunder, if_pos rfl]
    exact (ha.stored topic).filter _
  · simpa using (List.mem_filter.mp hs).2
  · rw [hunder, if_neg hne]

theorem call (ha : Accounts r h m used) (topic : T) (message : E) :
    Accounts r { h with broadcasts := h.broadcasts ++ [.called topic message] }
      { m with calls := m.calls ++ [(topic, message)] } used := by
  refine { ha with
    length := by simp [ha.length]
    calls := fun i topic' message' hi => ?_
    rest := fun topic' message' rest dead hmem => ?_
    gone := fun b hb => ?_
    owed := fun k c hc hconn => ?_ }
  · by_cases hlt : i < h.broadcasts.length
    · rw [List.getElem?_append_left hlt] at hi
      rw [List.getElem?_append_left (ha.length ▸ hlt)]
      exact ha.calls i topic' message' hi
    · have hle := Nat.le_of_not_lt hlt
      rw [List.getElem?_append_right hle] at hi
      rw [List.getElem?_append_right (ha.length ▸ hle), ← ha.length]
      cases hindex : i - h.broadcasts.length with
      | zero => simpa [hindex] using hi
      | succ j => simp [hindex] at hi
  · exact ha.rest topic' message' rest dead (by simpa using hmem)
  · rcases List.mem_append.mp hb with hb | hb
    · exact ha.gone b hb
    · obtain rfl : b = .called topic message := by simpa using hb
      exact fun n hn => absurd hn List.not_mem_nil
  · have hpending : ({ h with broadcasts := h.broadcasts ++ [.called topic message] } : Hub T S I E).pending r k =
        h.pending r k := by
      simp [Hub.pending, Broadcast.toward]
    rw [hpending]
    exact ha.owed k c hc hconn

-- A receiver that takes a message, or goes away.
theorem onChannel (ha : Accounts r h m used) (k : Nat) {f : Channel E → Channel E}
    (hf : ∀ c, (f c).connected → c.connected ∧ (f c).history = c.history) :
    Accounts r (h.onChannel k f) m used := by
  have hget : ∀ (j : Nat) (c' : Channel E), (h.onChannel k f).channels[j]? = some c' → c'.connected →
      ∃ c, h.channels[j]? = some c ∧ c.connected ∧ c'.history = c.history := by
    intro j c' hc' hconn
    rw [Hub.onChannel, List.getElem?_modify] at hc'
    obtain ⟨c, hc, rfl⟩ := Option.map_eq_some_iff.mp hc'
    by_cases hkj : k = j
    · rw [if_pos hkj] at hconn ⊢
      exact ⟨c, hc, hf c hconn⟩
    · rw [if_neg hkj] at hconn ⊢
      exact ⟨c, hc, hconn, rfl⟩
  have hlive : ∀ j, (h.onChannel k f).live j → h.live j := by
    intro j hl
    obtain ⟨c', hc', hconn⟩ := Hub.live_iff.mp hl
    obtain ⟨c, hc, hconnected, -⟩ := hget j c' hc' hconn
    exact Hub.live_iff.mpr ⟨c, hc, hconnected⟩
  refine { ha with
    opened := fun p hp => by rw [Hub.onChannel, List.length_modify]; exact ha.opened p hp
    kept := fun topic s hs hl => ha.kept topic s hs (hlive _ hl)
    gone := fun b hb n hn => ⟨(ha.gone b hb n hn).1, fun p hp hpn => ?_⟩
    owed := fun j c' hc' hconn => ?_
    fresh := fun j hj => ha.fresh j (by rwa [Hub.onChannel, List.length_modify] at hj) }
  · have hnot := (ha.gone b hb n hn).2 p hp hpn
    by_contra hl
    rw [Bool.not_eq_false] at hl
    exact absurd (hlive _ hl) (by simp [hnot])
  · obtain ⟨c, hc, hconnected, hhistory⟩ := hget j c' hc' hconn
    rw [hhistory]
    exact ha.owed j c hc hconnected

section Sending

variable {s : S} {rest : List S} {dead : List I}

-- A broadcast sees who is there when it gets the lock.
theorem acquire (ha : Accounts r h m used) (hi : h.broadcasts[i]? = some (.called topic message)) :
    Accounts r (h.setBroadcast i (.sending topic message (h.registry topic) []))
      { m with owed := fun k => m.owed k ++ m.share r topic message k } used := by
  refine ha.advance hi rfl (by simp) ?_ (by simp [Broadcast.dead]) ?_ ?_
  · rintro _ _ _ _ ⟨⟩
    exact List.Sublist.refl _
  · intro k c hc hconn
    refine ⟨c, hc, hconn, fun others hperm => ?_⟩
    have hshare : Broadcast.toward r k (.sending topic message (h.registry topic) ([] : List I)) =
        m.share r topic message k := by
      unfold Broadcast.toward Mailing.share
      have hany : (h.registry topic).any (fun s => r.channel s == k && r.wants s message) =
          (m.under topic).any (fun s => r.channel s == k && r.wants s message) := by
        rw [Bool.eq_iff_iff, List.any_eq_true, List.any_eq_true]
        constructor
        · rintro ⟨s, hs, hw⟩
          exact ⟨s, (ha.stored topic).subset hs, hw⟩
        · rintro ⟨s, hs, hw⟩
          have hk : r.channel s = k := by simpa using (Bool.and_eq_true_iff.mp hw).1
          exact ⟨s, ha.kept topic s hs (hk ▸ Hub.live_iff.mpr ⟨c, hc, hconn⟩), hw⟩
      simp only [hany]
    rw [hshare]
    have hnone : Broadcast.toward r k (.called topic message : Broadcast T S I E) = [] := rfl
    rw [hnone, List.nil_append] at hperm
    refine List.Perm.trans ?_ (hperm.append_right _)
    rw [List.append_assoc]
    exact List.perm_append_comm.append_left _
  · intro k hk
    have hnone : m.share r topic message k = [] := by
      refine if_neg fun hany => ?_
      obtain ⟨s, hs, hw⟩ := List.any_eq_true.mp hany
      have hk' : r.channel s = k := by simpa using (Bool.and_eq_true_iff.mp hw).1
      exact absurd (ha.opened _ (Mailing.mem_under.mp hs)) (by simp only; omega)
    simp only [hnone, List.append_nil]

-- The broadcast has sent to the first of the rest what it had to.
theorem sendNone (ha : Accounts r h m used)
    (hi : h.broadcasts[i]? = some (.sending topic message (s :: rest) dead))
    {dead' : List I} (hnone : r.wants s message = false ∨ h.live (r.channel s) = false)
    (hdead : ∀ n ∈ dead', n ∈ dead ∨ n = r.name s ∧ h.live (r.channel s) = false) :
    Accounts r (h.setBroadcast i (.sending topic message rest dead')) m used := by
  have hmem := List.mem_of_getElem? hi
  have hrest := ha.rest _ _ _ _ hmem
  refine ha.advance hi rfl (by simp) ?_ ?_ ?_ fun _ _ => rfl
  · rintro _ _ _ _ ⟨⟩
    exact (List.sublist_cons_self s rest).trans hrest
  · intro n hn
    rcases hdead n hn with hn | ⟨rfl, hl⟩
    · exact ha.gone _ hmem n hn
    · have hs : (topic, s) ∈ m.members :=
        Mailing.mem_under.mp ((hrest.trans (ha.stored topic)).subset List.mem_cons_self)
      refine ⟨ha.known _ hs, fun p hp hpn => ?_⟩
      obtain rfl := List.inj_on_of_nodup_map ha.names hp hs hpn
      exact hl
  · intro k c hc hconn
    refine ⟨c, hc, hconn, fun others hperm => ?_⟩
    have hsame : (r.channel s == k && r.wants s message) = false := by
      rcases hnone with hw | hl
      · rw [hw, Bool.and_false]
      · have hne : r.channel s ≠ k := by
          rintro rfl
          rw [Hub.live_iff.mpr ⟨c, hc, hconn⟩] at hl
          cases hl
        rw [beq_false_of_ne hne, Bool.false_and]
    simpa [Broadcast.toward, hsame] using hperm

theorem sendLive (ha : Accounts r h m used)
    (hi : h.broadcasts[i]? = some (.sending topic message (s :: rest) dead))
    (hwants : r.wants s message) :
    Accounts r ((h.onChannel (r.channel s) (.send message)).setBroadcast i (.sending topic message rest dead)) m
      used := by
  have hmem := List.mem_of_getElem? hi
  have hrest := ha.rest _ _ _ _ hmem
  have hunder : (s :: rest).Sublist (m.under topic) := hrest.trans (ha.stored topic)
  refine ha.advance hi ?_ (by simp) ?_ (fun n hn => ha.gone _ hmem n hn) ?_ fun _ _ => rfl
  · rw [Hub.onChannel]
    refine List.ext_getElem? fun j => ?_
    rw [List.getElem?_map, List.getElem?_map, List.getElem?_modify]
    cases h.channels[j]? with
    | none => rfl
    | some c => by_cases hj : r.channel s = j <;> simp [hj]
  · rintro _ _ _ _ ⟨⟩
    exact (List.sublist_cons_self s rest).trans hrest
  · intro k c' hc' hconn
    rw [Hub.onChannel, List.getElem?_modify] at hc'
    obtain ⟨c, hc, rfl⟩ := Option.map_eq_some_iff.mp hc'
    by_cases hk : r.channel s = k
    · subst hk
      rw [if_pos rfl] at hconn ⊢
      refine ⟨c, hc, hconn, fun others hperm => ?_⟩
      -- nobody else in the topic sends to the channel
      have hapart : (m.under topic |>.map r.channel).Nodup := by
        unfold Mailing.under
        rw [List.map_map]
        exact ha.apart.sublist (List.filter_sublist.map _)
      have hnodup := hapart.sublist (hunder.map r.channel)
      rw [List.map_cons, List.nodup_cons] at hnodup
      have hothers : rest.any (fun s' => r.channel s' == r.channel s && r.wants s' message) = false := by
        rw [List.any_eq_false]
        intro s' hs' hw
        have heq : r.channel s' = r.channel s := by simpa using (Bool.and_eq_true_iff.mp hw).1
        exact hnodup.1 (heq ▸ List.mem_map_of_mem hs')
      have hbefore : Broadcast.toward r (r.channel s) (.sending topic message (s :: rest) dead) = [message] := by
        simp [Broadcast.toward, hwants]
      have hafter : Broadcast.toward r (r.channel s) (.sending topic message rest dead) = [] := by
        simp [Broadcast.toward, hothers]
      rw [hbefore] at hperm
      rw [hafter, Channel.history_send]
      simpa using hperm
    · rw [if_neg hk] at hconn ⊢
      refine ⟨c, hc, hconn, fun others hperm => ?_⟩
      simpa [Broadcast.toward, beq_false_of_ne hk] using hperm

theorem release (ha : Accounts r h m used) (hi : h.broadcasts[i]? = some (.sending topic message [] dead))
    {b : Broadcast T S I E} (hb : b = .done ∨ b = .cleaning topic dead) :
    Accounts r (h.setBroadcast i b) m used := by
  have hmem := List.mem_of_getElem? hi
  refine ha.advance hi rfl ?_ ?_ ?_ ?_ fun _ _ => rfl
  · rcases hb with rfl | rfl <;> simp
  · rcases hb with rfl | rfl <;> simp
  · rcases hb with rfl | rfl
    · simp [Broadcast.dead]
    · exact fun n hn => ha.gone _ hmem n hn
  · intro k c hc hconn
    refine ⟨c, hc, hconn, fun others hperm => ?_⟩
    rcases hb with rfl | rfl <;> simpa [Broadcast.toward] using hperm

theorem clean [DecidableEq I] (ha : Accounts r h m used) (hfree : h.locked = false)
    (hi : h.broadcasts[i]? = some (.cleaning topic dead)) :
    Accounts r ((h.edit topic (·.filter fun s => r.name s ∉ dead)).setBroadcast i .done) m used := by
  have hmem := List.mem_of_getElem? hi
  have hedit : Accounts r (h.edit topic (·.filter fun s => r.name s ∉ dead)) m used := by
    refine ha.edit hfree (List.Sublist.refl _) (List.filter_sublist.trans (ha.stored topic)) ?_ fun _ _ => rfl
    intro s hs hl
    rw [decide_eq_true_iff]
    intro hdead
    rw [(ha.gone _ hmem _ hdead).2 _ hs rfl] at hl
    cases hl
  refine hedit.advance (b := .cleaning topic dead) hi rfl (by simp) (by simp) (by simp [Broadcast.dead]) ?_
    fun _ _ => rfl
  intro k c hc hconn
  exact ⟨c, hc, hconn, fun others hperm => by simpa [Broadcast.toward] using hperm⟩

end Sending

variable [DecidableEq I] {a : HubAction T S I E} {actions : List (HubAction T S I E)}

theorem step (ha : Accounts r h m used) (hnames : ∀ n ∈ a.names r, n ∉ used) (hstep : h.step r a = some h') :
    Accounts r h' (m.step r a) (a.names r ++ used) := by
  cases a with
  | subscribe topic s =>
    simp only [Hub.step] at hstep
    split at hstep
    · cases hstep
    case isFalse hcan =>
      obtain rfl := Option.some.inj hstep
      simp only [Bool.or_eq_true, bne_iff_ne, ne_eq, not_or, Bool.not_eq_true, not_not] at hcan
      exact ha.subscribe hcan.1 hcan.2 (hnames _ (by simp [HubAction.names]))
  | unsubscribe topic n =>
    simp only [Hub.step] at hstep
    split at hstep
    · cases hstep
    case isFalse hfree =>
      obtain rfl := Option.some.inj hstep
      exact ha.unsubscribe (by simpa using hfree) n
  | disconnect k =>
    obtain rfl := Option.some.inj hstep
    exact ha.onChannel k fun c hconn => by cases hconn
  | receive k =>
    simp only [Hub.step] at hstep
    split at hstep
    · obtain rfl := Option.some.inj hstep
      exact ha.onChannel k fun c hconn => ⟨by simpa using hconn, by simp⟩
    · cases hstep
  | call topic message =>
    obtain rfl := Option.some.inj hstep
    exact ha.call topic message
  | acquire i =>
    simp only [Hub.step] at hstep
    split at hstep
    case h_1 topic message hi =>
      obtain rfl := Option.some.inj hstep
      have hm : m.step r (.acquire i) = { m with owed := fun k => m.owed k ++ m.share r topic message k } := by
        simp only [Mailing.step, ha.calls i topic message hi]
      rw [hm]
      exact ha.acquire hi
    case h_2 => cases hstep
  | send i =>
    simp only [Hub.step] at hstep
    split at hstep
    case h_1 topic message s rest dead hi =>
      split at hstep
      case isTrue hwants =>
        obtain rfl := Option.some.inj hstep
        exact ha.sendNone hi (.inl (by simpa using hwants)) fun n hn => .inl hn
      case isFalse hwants =>
        split at hstep
        case isTrue hl =>
          obtain rfl := Option.some.inj hstep
          exact ha.sendLive hi (by simpa using hwants)
        case isFalse hl =>
          obtain rfl := Option.some.inj hstep
          have hl : h.live (r.channel s) = false := by simpa using hl
          refine ha.sendNone hi (.inr hl) fun n hn => ?_
          rcases List.mem_append.mp hn with hn | hn
          · exact .inl hn
          · exact .inr ⟨List.mem_singleton.mp hn, hl⟩
    case h_2 => cases hstep
  | release i =>
    simp only [Hub.step] at hstep
    split at hstep
    case h_1 topic message dead hi =>
      obtain rfl := Option.some.inj hstep
      exact ha.release hi (by cases dead <;> simp)
    case h_2 => cases hstep
  | clean i =>
    simp only [Hub.step] at hstep
    split at hstep
    case h_1 topic dead hi =>
      split at hstep
      · cases hstep
      case isFalse hfree =>
        obtain rfl := Option.some.inj hstep
        exact ha.clean (by simpa using hfree) hi
    case h_2 => cases hstep

theorem run (ha : Accounts r h m used) (hnodup : (actions.flatMap (HubAction.names r)).Nodup)
    (hnew : ∀ n ∈ actions.flatMap (HubAction.names r), n ∉ used) (hrun : h.run r actions = some h') :
    ∃ used', Accounts r h' (m.run r actions) used' := by
  induction actions generalizing h m used with
  | nil =>
    obtain rfl := Option.some.inj hrun
    exact ⟨used, ha⟩
  | cons a actions ih =>
    rw [List.flatMap_cons] at hnodup hnew
    obtain ⟨-, hrest, hapart⟩ := List.nodup_append.mp hnodup
    obtain ⟨h₁, hstep, hrun⟩ := Option.bind_eq_some_iff.mp hrun
    refine ih (ha.step (fun n hn => hnew n (List.mem_append_left _ hn)) hstep) hrest (fun n hn hmem => ?_) hrun
    rcases List.mem_append.mp hmem with hmem | hmem
    · exact hapart n hmem n hn rfl
    · exact hnew n (List.mem_append_right _ hn) hmem

end Accounts

end JasonDb.Lib
