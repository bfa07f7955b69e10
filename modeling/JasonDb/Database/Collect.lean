import JasonDb.Database.Build
import JasonDb.Database.Maintain
import JasonDb.Mvcc
import JasonDb.Transaction.Client
import JasonDb.Transaction.Observe
import JasonDb.TxBTree.Steps

namespace JasonDb

open Lib

def DocumentVersion.isVisible (version : DocumentVersion) (txId : TransactionID) : Bool :=
  if version.xmin > txId then false
  else if version.xmax ≠ 0 ∧ version.xmax ≤ txId then false
  else true

def VersionChains.versions (chains : VersionChains) (collection id : String) : List DocumentVersion :=
  ((chains.get? collection).bind (·.get? id)).getD []

section Kept

variable {κ α β : Type} [DecidableEq κ] {p : β → Bool}

-- A copy of a map that leaves out some of the values.
theorem get?_foldl_insert_unless (f : α → β) (m : HashMap κ α) (k : κ) :
    (m.toList.foldl (fun kept entry => if p (f entry.2) then kept else kept.insert entry.1 (f entry.2))
      (∅ : HashMap κ β)).get? k = ((m.get? k).map f).filter fun b => !p b := by
  have hfilter : ∀ (entries : List (κ × α)) (kept : HashMap κ β),
      entries.foldl (fun kept entry => if p (f entry.2) then kept else kept.insert entry.1 (f entry.2)) kept =
        (entries.filter fun entry => !p (f entry.2)).foldl
          (fun kept entry => kept.insert entry.1 (f entry.2)) kept := by
    intro entries
    induction entries with
    | nil => exact fun _ => rfl
    | cons entry rest ih =>
      intro kept
      rw [List.foldl_cons, ih, List.filter_cons]
      cases p (f entry.2) <;> rfl
  have hnodup : ((m.toList.filter fun entry => !p (f entry.2)).map Prod.fst).Nodup := by
    refine List.Nodup.sublist (List.filter_sublist.map _) ?_
    rw [HashMap.map_fst_toList]
    exact HashMap.nodup_keys m
  rw [hfilter, get?_foldl_insert f _ hnodup, HashMap.get?_empty, Option.or_none]
  have hvalue : ∀ a, ∀ entry ∈ m.toList, entry.1 = k → m.get? k = some a → entry.2 = a := by
    rintro a ⟨k', b⟩ hmem rfl hget
    exact Option.some.inj ((HashMap.mem_toList.mp hmem).symm.trans hget)
  cases hget : m.get? k with
  | none =>
    have hnone : (m.toList.filter fun entry => !p (f entry.2)).find? (fun entry => entry.1 = k) = none := by
      refine List.find?_eq_none.mpr fun entry hentry hk => ?_
      have hk : entry.1 = k := by simpa using hk
      rw [← hk, HashMap.mem_toList.mp (List.mem_of_mem_filter hentry)] at hget
      cases hget
    rw [hnone]
    rfl
  | some a =>
    rw [Option.map_some, Option.filter_some]
    split
    case isTrue hkeep =>
      have hmem : (k, a) ∈ m.toList.filter fun entry => !p (f entry.2) :=
        List.mem_filter.mpr ⟨HashMap.mem_toList.mpr hget, hkeep⟩
      obtain ⟨entry, hfind⟩ : ∃ entry, (m.toList.filter fun entry => !p (f entry.2)).find?
          (fun entry => entry.1 = k) = some entry :=
        Option.isSome_iff_exists.mp (List.find?_isSome.mpr ⟨_, hmem, by simp⟩)
      rw [hfind, Option.map_some, hvalue a entry (List.mem_of_mem_filter (List.mem_of_find?_eq_some hfind))
        (by simpa using List.find?_some hfind) hget]
    case isFalse hdrop =>
      refine Option.map_eq_none_iff.mpr (List.find?_eq_none.mpr fun entry hentry hk => ?_)
      obtain ⟨hmem, hkeep⟩ := List.mem_filter.mp hentry
      rw [hvalue a entry hmem (by simpa using hk) hget] at hkeep
      exact hdrop hkeep

-- The versions of a document that stay.
theorem versions_keptChains (oldestActiveTx : TransactionID) (chains : VersionChains)
    (collection id : String) :
    VersionChains.versions (keptChains oldestActiveTx chains) collection id =
      (chains.versions collection id).filter (·.isKept oldestActiveTx) := by
  have hdocs : ∀ docs : HashMap String (List DocumentVersion), (keptDocuments oldestActiveTx docs).get? id =
      ((docs.get? id).map fun versions => versions.filter (·.isKept oldestActiveTx)).filter fun versions =>
        !versions.isEmpty :=
    fun docs => get?_foldl_insert_unless (p := List.isEmpty) (List.filter (DocumentVersion.isKept oldestActiveTx))
      docs id
  have hchains : (keptChains oldestActiveTx chains).get? collection =
      ((chains.get? collection).map (keptDocuments oldestActiveTx)).filter fun docs => !docs.isEmpty :=
    get?_foldl_insert_unless (p := HashMap.isEmpty) (keptDocuments oldestActiveTx) chains collection
  unfold VersionChains.versions
  rw [hchains]
  cases chains.get? collection with
  | none => rfl
  | some docs =>
    rw [Option.map_some, Option.filter_some, Option.bind_some]
    have hkept := hdocs docs
    split
    case isTrue =>
      rw [Option.bind_some, hkept]
      cases docs.get? id with
      | none => rfl
      | some versions =>
        rw [Option.map_some, Option.filter_some]
        split
        case isTrue => rfl
        case isFalse hempty => exact (List.isEmpty_iff.mp (by simpa using hempty)).symm
    case isFalse hempty =>
      have hnone : (keptDocuments oldestActiveTx docs).get? id = none := by
        by_contra hsome
        have hmem := HashMap.get?_isSome.mp (Option.ne_none_iff_isSome.mp hsome)
        rw [HashMap.isEmpty_of_mem hmem] at hempty
        exact hempty rfl
      rw [hnone] at hkept
      rw [Option.bind_none]
      cases hget : docs.get? id with
      | none => simp
      | some versions =>
        rw [hget, Option.map_some, Option.filter_some] at hkept
        split at hkept
        · cases hkept
        case isFalse hleft => simpa [hget] using hleft

end Kept

-- The client of a transaction. An id is taken, the time is read, both are entered, and only then the
-- snapshot is read that the client sees from then on.
inductive Client where
  | numbered (txId : TransactionID)
  | timed (txId startTime : TransactionID)
  | registered (txId : TransactionID)
  | reading (txId snapshotId : TransactionID)
  | ended

def Client.txId : Client → Option TransactionID
  | numbered txId | timed txId _ | registered txId | reading txId _ => some txId
  | ended => none

structure Clients where
  db : Database
  clients : List Client

namespace Clients

open TransactionManager

-- One atomic action of a client, or of the rest of the system.
inductive Step : Clients → Clients → Prop where
  | begin {s : Clients} {txId : TransactionID} {db : Database}
    (h : Proc.exec fetchNextTxId () s.db = (.ok txId, (), db)) : Step s ⟨db, s.clients ++ [.numbered txId]⟩
  | time {s : Clients} {i : Nat} {txId startTime : TransactionID} {db : Database}
    (hi : s.clients[i]? = some (.numbered txId))
    (h : Proc.exec getLatestCommittedTxId () s.db = (.ok startTime, (), db)) :
    Step s ⟨db, s.clients.set i (.timed txId startTime)⟩
  | register {s : Clients} {i : Nat} {txId startTime : TransactionID} {db : Database}
    (hi : s.clients[i]? = some (.timed txId startTime))
    (h : Proc.exec (register ⟨txId, startTime, .active⟩) () s.db = (.ok (), (), db)) :
    Step s ⟨db, s.clients.set i (.registered txId)⟩
  | snapshot {s : Clients} {i : Nat} {txId snapshotId : TransactionID} {db : Database}
    (hi : s.clients[i]? = some (.registered txId))
    (h : Proc.exec getLatestCommittedTxId () s.db = (.ok snapshotId, (), db)) :
    Step s ⟨db, s.clients.set i (.reading txId snapshotId)⟩
  | commit {s : Clients} {i : Nat} {txId snapshotId : TransactionID} {db : Database}
    (hi : s.clients[i]? = some (.reading txId snapshotId))
    (h : Proc.exec (commitTransaction txId) () s.db = (.ok (), (), db)) : Step s ⟨db, s.clients.set i .ended⟩
  | abort {s : Clients} {i : Nat} {txId snapshotId : TransactionID} {db : Database}
    (hi : s.clients[i]? = some (.reading txId snapshotId))
    (h : Proc.exec (abortTransaction txId) () s.db = (.ok (), (), db)) : Step s ⟨db, s.clients.set i .ended⟩
  | other {s : Clients} {db : Database} (h : db.txManager = s.db.txManager) : Step s ⟨db, s.clients⟩

abbrev Run : Clients → Clients → Prop := Relation.ReflTransGen Step

def manager (s : Clients) : TransactionManager := s.db.txManager

-- Whoever reads has an entry, which is not younger than the snapshot.
structure Entered (s : Clients) : Prop where
  bounded : ∀ txId info, s.manager.activeTxs.get? txId = some info → info.startTime ≤ s.manager.lastCommittedTxId
  apart : ∀ (i j : Nat) (c d : Client) (txId : TransactionID), s.clients[i]? = some c → s.clients[j]? = some d →
    c.txId = some txId → d.txId = some txId → i = j
  issued : ∀ c ∈ s.clients, ∀ txId, c.txId = some txId → txId < s.manager.nextTxId
  timed : ∀ txId startTime, Client.timed txId startTime ∈ s.clients → startTime ≤ s.manager.lastCommittedTxId
  registered : ∀ txId, Client.registered txId ∈ s.clients → ∃ info, s.manager.activeTxs.get? txId = some info
  reading : ∀ txId snapshotId, Client.reading txId snapshotId ∈ s.clients →
    ∃ info, s.manager.activeTxs.get? txId = some info ∧ info.startTime ≤ snapshotId

-- What is older than `oldest` no client will see.
structure Past (oldest : TransactionID) (s : Clients) : Prop where
  committed : oldest ≤ s.manager.lastCommittedTxId + 1
  reading : ∀ txId snapshotId, Client.reading txId snapshotId ∈ s.clients → oldest ≤ snapshotId + 1

theorem lastCommitted_step {s s' : Clients} (h : Step s s') :
    s.manager.lastCommittedTxId ≤ s'.manager.lastCommittedTxId := by
  cases h with
  | begin h | time hi h | register hi h | snapshot hi h | abort hi h =>
    obtain rfl := congrArg (fun out => out.2.2) h
    exact le_refl _
  | @commit i txId snapshotId db hi h =>
    obtain rfl := congrArg (fun out => out.2.2) h
    change s.manager.lastCommittedTxId ≤ if txId > s.manager.lastCommittedTxId then txId else _
    split
    case isTrue hlt => exact Nat.le_of_lt hlt
    case isFalse => exact le_refl _
  | other h => exact le_of_eq (congrArg lastCommittedTxId h.symm)

theorem Past.step {oldest : TransactionID} {s s' : Clients} (h : Past oldest s) (hstep : Step s s') :
    Past oldest s' := by
  refine ⟨h.committed.trans (Nat.succ_le_succ (lastCommitted_step hstep)), fun txId snapshotId hmem => ?_⟩
  cases hstep with
  | begin hexec =>
    exact h.reading txId snapshotId (by simpa using hmem)
  | snapshot hi hexec =>
    rcases List.mem_or_eq_of_mem_set hmem with hmem | heq
    · exact h.reading txId snapshotId hmem
    · cases heq
      obtain rfl := Except.ok.inj (congrArg Prod.fst hexec)
      exact h.committed
  | time hi hexec | register hi hexec | commit hi hexec | abort hi hexec =>
    rcases List.mem_or_eq_of_mem_set hmem with hmem | heq
    · exact h.reading txId snapshotId hmem
    · cases heq
  | other hsame => exact h.reading txId snapshotId hmem

theorem Past.run {oldest : TransactionID} {s s' : Clients} (h : Past oldest s) (hrun : Run s s') :
    Past oldest s' := by
  induction hrun with
  | refl => exact h
  | tail _ hstep ih => exact ih.step hstep

-- A change of one client that keeps its id, or ends it.
theorem apart_set {s : Clients} (h : Entered s) {i : Nat} {c c' : Client} (hi : s.clients[i]? = some c)
    (hid : ∀ txId, c'.txId = some txId → c.txId = some txId) (j k : Nat) (d e : Client) (txId : TransactionID)
    (hj : (s.clients.set i c')[j]? = some d) (hk : (s.clients.set i c')[k]? = some e)
    (hd : d.txId = some txId)
    (he : e.txId = some txId) : j = k := by
  have hold : ∀ (j : Nat) (d : Client), (s.clients.set i c')[j]? = some d → d.txId = some txId →
      ∃ d, s.clients[j]? = some d ∧ d.txId = some txId := by
    intro j d hj hd
    rw [List.getElem?_set] at hj
    split at hj
    case isTrue hij =>
      split at hj
      · obtain rfl := Option.some.inj hj
        exact ⟨c, hij ▸ hi, hid txId hd⟩
      · cases hj
    case isFalse => exact ⟨d, hj, hd⟩
  obtain ⟨d', hj', hd'⟩ := hold j d hj hd
  obtain ⟨e', hk', he'⟩ := hold k e hk he
  exact h.apart j k d' e' txId hj' hk' hd' he'

-- One client goes on. The entries of the others are left alone.
theorem Entered.set {s : Clients} (h : Entered s) {i : Nat} {c c' : Client} {db : Database}
    (hi : s.clients[i]? = some c) (hid : ∀ txId, c'.txId = some txId → c.txId = some txId)
    (hnext : db.txManager.nextTxId = s.manager.nextTxId)
    (hlast : s.manager.lastCommittedTxId ≤ db.txManager.lastCommittedTxId)
    (hothers : ∀ txId, c.txId ≠ some txId →
      db.txManager.activeTxs.get? txId = s.manager.activeTxs.get? txId)
    (hown : ∀ txId info, c.txId = some txId → db.txManager.activeTxs.get? txId = some info →
      info.startTime ≤ db.txManager.lastCommittedTxId)
    (htimed : ∀ txId startTime, c' = .timed txId startTime → startTime ≤ db.txManager.lastCommittedTxId)
    (hregistered : ∀ txId, c' = .registered txId → ∃ info, db.txManager.activeTxs.get? txId = some info)
    (hreading : ∀ txId snapshotId, c' = .reading txId snapshotId →
      ∃ info, db.txManager.activeTxs.get? txId = some info ∧ info.startTime ≤ snapshotId) :
    Entered ⟨db, s.clients.set i c'⟩ := by
  have hcases : ∀ d ∈ s.clients.set i c', d = c' ∨
      d ∈ s.clients ∧ ∀ txId, d.txId = some txId → c.txId ≠ some txId := by
    intro d hd
    obtain ⟨j, hj⟩ := List.mem_iff_getElem?.mp hd
    by_cases hij : i = j
    · subst hij
      rw [List.getElem?_set_self (List.getElem?_eq_some_iff.mp hi).1] at hj
      exact .inl (Option.some.inj hj).symm
    · rw [List.getElem?_set_ne hij] at hj
      exact .inr ⟨List.mem_of_getElem? hj, fun txId hd hc => hij (h.apart i j c d txId hi hj hc hd)⟩
  refine ⟨fun txId info hinfo => ?_, apart_set h hi hid, fun d hd txId hdid => ?_, fun txId startTime hd => ?_,
    fun txId hd => ?_, fun txId snapshotId hd => ?_⟩
  · by_cases hc : c.txId = some txId
    · exact hown txId info hc hinfo
    · exact (h.bounded txId info ((hothers txId hc).symm.trans hinfo)).trans hlast
  · change txId < db.txManager.nextTxId
    rw [hnext]
    rcases hcases d hd with rfl | ⟨hd, -⟩
    · exact h.issued c (List.mem_of_getElem? hi) txId (hid txId hdid)
    · exact h.issued d hd txId hdid
  · rcases hcases _ hd with heq | ⟨hd, -⟩
    · exact htimed txId startTime heq.symm
    · exact (h.timed txId startTime hd).trans hlast
  · rcases hcases _ hd with heq | ⟨hd, hne⟩
    · exact hregistered txId heq.symm
    · obtain ⟨info, hinfo⟩ := h.registered txId hd
      exact ⟨info, (hothers txId (hne txId rfl)).trans hinfo⟩
  · rcases hcases _ hd with heq | ⟨hd, hne⟩
    · exact hreading txId snapshotId heq.symm
    · obtain ⟨info, hinfo, hle⟩ := h.reading txId snapshotId hd
      exact ⟨info, (hothers txId (hne txId rfl)).trans hinfo, hle⟩

theorem Entered.begin {s : Clients} (h : Entered s) {db : Database}
    (hdb : db.txManager = { s.manager with nextTxId := s.manager.nextTxId + 1 }) :
    Entered ⟨db, s.clients ++ [.numbered s.manager.nextTxId]⟩ := by
  have hlast : db.txManager.lastCommittedTxId = s.manager.lastCommittedTxId := by rw [hdb]
  have hactive : db.txManager.activeTxs = s.manager.activeTxs := by rw [hdb]
  have hold : ∀ c ∈ s.clients ++ [.numbered s.manager.nextTxId], c = .numbered s.manager.nextTxId ∨ c ∈ s.clients := by
    intro c hc
    rcases List.mem_append.mp hc with hc | hc
    · exact .inr hc
    · exact .inl (List.mem_singleton.mp hc)
  have hnew : ∀ (j : Nat) (d : Client), (s.clients ++ [.numbered s.manager.nextTxId])[j]? = some d →
      d.txId = some s.manager.nextTxId → j = s.clients.length := by
    intro j d hj hd
    by_contra hne
    by_cases hlt : j < s.clients.length
    · rw [List.getElem?_append_left hlt] at hj
      exact absurd (h.issued d (List.mem_of_getElem? hj) _ hd) (lt_irrefl _)
    · have hlen := (List.getElem?_eq_some_iff.mp hj).1
      rw [List.length_append, List.length_singleton] at hlen
      omega
  refine ⟨?_, ?_, ?_, ?_, ?_, ?_⟩
  · intro txId info hinfo
    change info.startTime ≤ db.txManager.lastCommittedTxId
    rw [hlast]
    exact h.bounded txId info (hactive ▸ hinfo)
  · intro j k d e txId hj hk hd he
    by_cases hid : txId = s.manager.nextTxId
    · subst hid
      rw [hnew j d hj hd, hnew k e hk he]
    · have hin : ∀ (j : Nat) (d : Client), (s.clients ++ [.numbered s.manager.nextTxId])[j]? = some d →
          d.txId = some txId → s.clients[j]? = some d := by
        intro j d hj hd
        by_cases hlt : j < s.clients.length
        · rwa [List.getElem?_append_left hlt] at hj
        · rw [List.getElem?_append_right (Nat.le_of_not_lt hlt)] at hj
          obtain rfl := List.mem_singleton.mp (List.mem_of_getElem? hj)
          exact absurd (Option.some.inj hd).symm hid
      exact h.apart j k d e txId (hin j d hj hd) (hin k e hk he) hd he
  · intro c hc txId hid
    change txId < db.txManager.nextTxId
    rw [hdb]
    rcases hold c hc with rfl | hc
    · obtain rfl := Option.some.inj hid
      exact Nat.lt_succ_self _
    · exact Nat.lt_succ_of_lt (h.issued c hc txId hid)
  · intro txId startTime hc
    change startTime ≤ db.txManager.lastCommittedTxId
    rw [hlast]
    exact h.timed txId startTime ((hold _ hc).resolve_left (by simp))
  · intro txId hc
    change ∃ info, db.txManager.activeTxs.get? txId = some info
    rw [hactive]
    exact h.registered txId ((hold _ hc).resolve_left (by simp))
  · intro txId snapshotId hc
    change ∃ info, db.txManager.activeTxs.get? txId = some info ∧ _
    rw [hactive]
    exact h.reading txId snapshotId ((hold _ hc).resolve_left (by simp))

-- A client ends, and its entry goes with it.
theorem Entered.finish {s : Clients} (h : Entered s) {i : Nat} {txId snapshotId : TransactionID}
    {db : Database}
    (hi : s.clients[i]? = some (.reading txId snapshotId))
    (hnext : db.txManager.nextTxId = s.manager.nextTxId)
    (hlast : s.manager.lastCommittedTxId ≤ db.txManager.lastCommittedTxId)
    (hactive : db.txManager.activeTxs = s.manager.activeTxs.erase txId) :
    Entered ⟨db, s.clients.set i .ended⟩ := by
  have hget : ∀ other, db.txManager.activeTxs.get? other =
      if other = txId then none else s.manager.activeTxs.get? other := by
    intro other
    rw [hactive]
    exact HashMap.get?_erase _ _ _
  refine h.set hi (by simp [Client.txId]) hnext hlast (fun other hne => ?_) (fun other info hid hinfo => ?_)
    (by simp) (by simp) (by simp)
  · refine (hget other).trans (if_neg ?_)
    rintro rfl
    exact hne rfl
  · obtain rfl := Option.some.inj hid
    have hinfo := (hget txId).symm.trans hinfo
    rw [if_pos rfl] at hinfo
    cases hinfo

theorem Entered.step {s s' : Clients} (h : Entered s) (hstep : Step s s') : Entered s' := by
  cases hstep with
  | begin hexec =>
    obtain rfl := Except.ok.inj (congrArg Prod.fst hexec)
    obtain rfl := congrArg (fun out => out.2.2) hexec
    exact h.begin rfl
  | @time i txId startTime db hi hexec =>
    obtain rfl := Except.ok.inj (congrArg Prod.fst hexec)
    obtain rfl := congrArg (fun out => out.2.2) hexec
    refine h.set hi (fun _ hid => hid) rfl (le_refl _) (fun _ _ => rfl) (fun txId info _ => h.bounded txId info) ?_
      (by simp) (by simp)
    rintro _ _ ⟨⟩
    exact le_refl _
  | @register i txId startTime db hi hexec =>
    obtain rfl := congrArg (fun out => out.2.2) hexec
    have hget : ∀ other, (s.db.txManager.activeTxs.insert txId ⟨txId, startTime, .active⟩).get? other =
        if other = txId then some ⟨txId, startTime, .active⟩ else s.db.txManager.activeTxs.get? other :=
      fun other => HashMap.get?_insert _ _ _ _
    refine h.set hi (fun _ hid => hid) rfl (le_refl _) (fun other hne => ?_) (fun other info hid hinfo => ?_)
      (by simp) ?_ (by simp)
    · refine (hget other).trans (if_neg ?_)
      rintro rfl
      exact hne rfl
    · obtain rfl := Option.some.inj hid
      have hinfo := (hget txId).symm.trans hinfo
      rw [if_pos rfl] at hinfo
      obtain rfl := Option.some.inj hinfo
      exact h.timed txId startTime (List.mem_of_getElem? hi)
    · rintro _ ⟨⟩
      exact ⟨_, (hget txId).trans (if_pos rfl)⟩
  | @snapshot i txId snapshotId db hi hexec =>
    obtain rfl := Except.ok.inj (congrArg Prod.fst hexec)
    obtain rfl := congrArg (fun out => out.2.2) hexec
    refine h.set hi (fun _ hid => hid) rfl (le_refl _) (fun _ _ => rfl) (fun txId info _ => h.bounded txId info)
      (by simp) (by simp) ?_
    rintro _ _ ⟨⟩
    obtain ⟨info, hinfo⟩ := h.registered txId (List.mem_of_getElem? hi)
    exact ⟨info, hinfo, h.bounded txId info hinfo⟩
  | commit hi hexec =>
    have hlast := lastCommitted_step (.commit hi hexec)
    obtain rfl := congrArg (fun out => out.2.2) hexec
    exact h.finish hi rfl hlast rfl
  | abort hi hexec =>
    obtain rfl := congrArg (fun out => out.2.2) hexec
    exact h.finish hi rfl (le_refl _) rfl
  | @other db hsame =>
    obtain ⟨hbounded, hapart, hissued, htimed, hregistered, hreading⟩ := h
    unfold manager at hbounded hissued htimed hregistered hreading
    rw [← hsame] at hbounded hissued htimed hregistered hreading
    exact ⟨hbounded, hapart, hissued, htimed, hregistered, hreading⟩

theorem Entered.run {s s' : Clients} (h : Entered s) (hrun : Run s s') : Entered s' := by
  induction hrun with
  | refl => exact h
  | tail _ hstep ih => exact ih.step hstep

theorem entered_start {db : Database} (h : db.txManager.activeTxs = ∅) : Entered ⟨db, []⟩ := by
  refine ⟨fun txId info hinfo => ?_, by simp, by simp, by simp, by simp, by simp⟩
  rw [manager, h, HashMap.get?_empty] at hinfo
  cases hinfo

theorem oldestActive_le {m : TransactionManager} {txId : TransactionID} {info : TransactionInfo}
    (h : m.activeTxs.get? txId = some info) : m.oldestActive ≤ info.startTime := by
  have hmem : info.startTime ∈ m.activeTxs.toList.map fun entry => entry.2.startTime :=
    List.mem_map.mpr ⟨(txId, info), HashMap.mem_toList.mpr h, rfl⟩
  unfold oldestActive
  cases hmin : (m.activeTxs.toList.map fun entry => entry.2.startTime).min? with
  | none =>
    rw [List.min?_eq_none_iff.mp hmin] at hmem
    cases hmem
  | some oldest => exact (List.min?_eq_some_iff.mp hmin).2 _ hmem

theorem Entered.past {s : Clients} (h : Entered s) : Past s.manager.oldestActive s := by
  refine ⟨?_, fun txId snapshotId hmem => ?_⟩
  · unfold oldestActive
    cases hmin : (s.manager.activeTxs.toList.map fun entry => entry.2.startTime).min? with
    | none => exact le_refl _
    | some oldest =>
      obtain ⟨⟨txId, info⟩, hmem, rfl⟩ := List.mem_map.mp (List.min?_eq_some_iff.mp hmin).1
      exact Nat.le_succ_of_le (h.bounded txId info (HashMap.mem_toList.mp hmem))
  · obtain ⟨info, hinfo, hle⟩ := h.reading txId snapshotId hmem
    exact Nat.le_succ_of_le ((oldestActive_le hinfo).trans hle)

end Clients

theorem DocumentVersion.isKept_of_visible {version : DocumentVersion} {oldest snapshotId : TransactionID}
    (h : oldest ≤ snapshotId + 1) (hvisible : version.isVisible snapshotId) : version.isKept oldest := by
  unfold DocumentVersion.isVisible at hvisible
  unfold DocumentVersion.isKept
  split at hvisible
  · cases hvisible
  · split at hvisible
    · cases hvisible
    case isFalse hlive =>
      rw [Bool.or_eq_true, Bool.or_eq_true, decide_eq_true_iff, decide_eq_true_iff, decide_eq_true_iff]
      by_cases hxmax : version.xmax = 0
      · exact .inr (.inl hxmax)
      · have hlt : ¬ version.xmax ≤ snapshotId := fun hle => hlive ⟨hxmax, hle⟩
        exact .inr (.inr (h.trans (Nat.lt_of_not_le hlt)))

-- Whoever reads at some time after the collection chose its bound sees what it leaves.
theorem Clients.Past.filter_versions {oldest : TransactionID} {s : Clients} (h : s.Past oldest)
    {txId snapshotId : TransactionID} (hclient : Client.reading txId snapshotId ∈ s.clients)
    (chains : VersionChains) (collection id : String) :
    (VersionChains.versions (keptChains oldest chains) collection id).filter (·.isVisible snapshotId) =
      (chains.versions collection id).filter (·.isVisible snapshotId) := by
  rw [versions_keptChains, List.filter_filter]
  refine List.filter_congr fun version _ => ?_
  cases hvisible : version.isVisible snapshotId with
  | false => rfl
  | true =>
    rw [DocumentVersion.isKept_of_visible (h.reading txId snapshotId hclient) hvisible]
    rfl

section Collect

variable {ℓ : Type}

-- Pages are freed in the pager alone.
def PagerOnly (db db' : Database) : Prop := ∃ pager, db' = { db with pager }

theorem acts_freePage (p : PageNum) : Proc.Acts PagerOnly (freePage p : DbM ℓ Unit) :=
  Proc.acts_atomicE fun _ => ⟨_, rfl⟩

theorem acts_readPage (p : PageNum) : Proc.Acts PagerOnly (readPage p : DbM ℓ Page) :=
  Proc.acts_atomicE fun _ => ⟨_, rfl⟩

theorem acts_freeOverflow (fuel : Nat) (page : PageNum) (visited : List PageNum) :
    Proc.Acts PagerOnly (freeOverflow fuel page visited : DbM ℓ Unit) := by
  induction fuel generalizing page visited with
  | zero =>
    unfold freeOverflow
    split
    · exact Proc.acts_pure _
    · split <;> exact Proc.acts_fail _
  | succ fuel ih =>
    unfold freeOverflow
    split
    · exact Proc.acts_pure _
    · split
      · exact Proc.acts_fail _
      · exact (acts_readPage _).bind fun _ => (acts_freePage _).bind fun _ => ih _ _

theorem acts_freeVersions (versions : List DocumentVersion) (stats : GarbageCollectionStats) :
    Proc.Acts PagerOnly (freeVersions versions stats : DbM ℓ GarbageCollectionStats) := by
  induction versions generalizing stats with
  | nil => exact Proc.acts_pure _
  | cons version rest ih =>
    have hdelete : Proc.Acts PagerOnly (deleteDocument version.pageNum : DbM ℓ Unit) :=
      (acts_readPage _).bind fun _ => (acts_freeOverflow _ _ _).bind fun _ => acts_freePage _
    refine (acts_catching hdelete).bind fun r => ?_
    cases r with
    | error e => exact ih _
    | ok u => exact ih _

theorem exec_collectVersions (oldest : TransactionID) (l : ℓ) (db : Database) :
    let db' := (Proc.exec (collectVersions oldest) l db).2.2
    db'.txManager = db.txManager ∧
      (db'.versionChains = db.versionChains ∨ db'.versionChains = keptChains oldest db.versionChains) := by
  have hacts := acts_freeVersions (ℓ := ℓ) (removedVersions oldest db.versionChains) ⟨0, 0, 0⟩
  have hmanager := hacts.keeps Database.txManager (by rintro _ _ ⟨pager, rfl⟩; rfl) l db
  have hchains := hacts.keeps Database.versionChains (by rintro _ _ ⟨pager, rfl⟩; rfl) l db
  rcases hfree : Proc.exec (freeVersions (removedVersions oldest db.versionChains) ⟨0, 0, 0⟩) l db with ⟨r, l', db₁⟩
  rw [hfree] at hmanager hchains
  have hread : Proc.exec (Proc.atomic fun db : Database => (db.versionChains, db) : DbM ℓ VersionChains) l db =
      (.ok db.versionChains, l, db) := rfl
  unfold collectVersions
  rw [Proc.exec_bind_ok hread]
  cases r with
  | error e =>
    rw [Proc.exec_bind_error hfree]
    exact ⟨hmanager, .inl hchains⟩
  | ok stats =>
    rw [Proc.exec_bind_ok hfree]
    exact ⟨hmanager, .inr rfl⟩

end Collect

-- A version that nobody sees any more, and one that the client of the next theorem sees.
def sampleVersions : List DocumentVersion := [⟨"a", 1, 2, none, 7⟩, ⟨"a", 2, 4, none, 8⟩]

def sampleVersioned : Database := { Database.ofPages [] 2 [] 3 with
  versionChains := (∅ : VersionChains).insert "users"
    ((∅ : HashMap String (List DocumentVersion)).insert "a" sampleVersions) }

-- A client that nobody interrupts.
theorem Clients.run_reading (db : Database) : ∃ db', Run ⟨db, []⟩
      ⟨db', [.reading db.txManager.nextTxId db.txManager.lastCommittedTxId]⟩ ∧
    db'.versionChains = db.versionChains ∧ db'.txManager.activeTxs = db.txManager.activeTxs.insert
      db.txManager.nextTxId ⟨db.txManager.nextTxId, db.txManager.lastCommittedTxId, .active⟩ := by
  let txId := db.txManager.nextTxId
  let startTime := db.txManager.lastCommittedTxId
  let issued : Database := { db with txManager := { db.txManager with nextTxId := txId + 1 } }
  let entered : Database := { issued with txManager := { issued.txManager with
    activeTxs := issued.txManager.activeTxs.insert txId ⟨txId, startTime, .active⟩ } }
  have hbegin : Step ⟨db, []⟩ ⟨issued, [.numbered txId]⟩ := .begin rfl
  have htime : Step ⟨issued, [.numbered txId]⟩ ⟨issued, [.timed txId startTime]⟩ := .time (i := 0) rfl rfl
  have hregister : Step ⟨issued, [.timed txId startTime]⟩ ⟨entered, [.registered txId]⟩ :=
    .register (i := 0) rfl rfl
  have hsnapshot : Step ⟨entered, [.registered txId]⟩ ⟨entered, [.reading txId startTime]⟩ :=
    .snapshot (i := 0) rfl rfl
  exact ⟨entered, (((Relation.ReflTransGen.single hbegin).tail htime).tail hregister).tail hsnapshot, rfl, rfl⟩

end JasonDb
