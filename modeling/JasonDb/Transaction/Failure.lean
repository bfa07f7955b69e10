import JasonDb.Database.Build
import JasonDb.Transaction.Apply
import JasonDb.Transaction.Observe
import JasonDb.Transaction.Validate

namespace JasonDb

open Lib TxBTree

variable {ℓ : Type} {db db' : Database} {l l' : ℓ}

-- The trees of a database: all their pages are in use, and the metadata page is not one of them.
structure Intact (db : Database) : Prop where
  pager : db.pager.WF
  trees : ∀ c, Sound db (db.metadata.root c)
  apart : ∀ c, db.metadata.root c ≠ 0 →
    ¬ Reaches db.pager.view (db.metadata.root c) db.pager.metadataPage

theorem Intact.withWal (h : Intact db) (wal : WAL) : Intact { db with wal } :=
  ⟨h.pager, h.trees, h.apart⟩

theorem intact_ofPages {pages : List (PageNum × Page)} {numPages : Nat}
    {roots : List (String × PageNum)} {nextTxId : TransactionID} (S : List PageNum)
    (hpos : 0 < numPages) (hzero : pages.lookup 0 = none) (hroots : ∀ root ∈ roots.map Prod.snd, root ∈ S)
    (hS : ∀ p ∈ S, p ≠ 0 ∧ p ≠ 1 ∧ p < numPages)
    (hclosed : ∀ p ∈ S, ∀ q ∈ (pages.lookup p).elim [] Page.links, q ∈ S) :
    Intact (Database.ofPages pages numPages roots nextTxId) := by
  have hview : ∀ p ∈ S, ∀ page,
      (Database.ofPages pages numPages roots nextTxId).pager.view p = some page →
      ∀ q ∈ page.links, q ∈ S := by
    intro p hp page hpage q hq
    rw [Database.view_ofPages (hS p hp).2.1] at hpage
    refine hclosed p hp q ?_
    rw [hpage]
    exact hq
  have hreach : ∀ c p, (Metadata.ofRoots roots).root c ≠ 0 →
      Reaches (Database.ofPages pages numPages roots nextTxId).pager.view
        ((Metadata.ofRoots roots).root c) p → p ∈ S := by
    intro c p hne hr
    exact hr.mem_of_closed hview
      (hroots _ ((Metadata.root_ofRoots roots c).resolve_left hne))
  refine ⟨Database.ofPages_wf hpos, fun c => ?_, fun c hne hr => ?_⟩
  · by_cases hne : (Metadata.ofRoots roots).root c = 0
    · refine Or.inl ⟨hne, ?_⟩
      rintro n ⟨page, hv, _⟩
      rw [Database.view_ofPages (by decide), hzero] at hv
      cases hv
    · refine Or.inr fun p hr => ?_
      obtain ⟨h0, _, hlt⟩ := hS p (hreach c p hne hr)
      exact ⟨h0, hlt, by simp [Database.ofPages]⟩
  · exact (hS 1 (hreach c 1 hne hr)).2.1 rfl

namespace Commit

-- A transaction that waits for its commit: its pages are its own, and so are the roots it set.
structure Prepared (db : Database) (pending : PendingWrite) : Prop where
  held : Held db pending.writes
  roots : ∀ c ∈ pending.modifiedCollections, ∀ r, pending.updatedRoots.get? c = some r →
    r ≠ db.metadata.root c

-- Whether the commit gives a collection a new root: it inserts and deletes the documents again
-- in a tree that has changed since the snapshot, else it takes the root of the transaction.
def Moves (m : Metadata) (pending : PendingWrite) (c : String) : Prop :=
  if m.root c ≠ snapshotRoot pending c then (docsOf pending c).toList ≠ []
  else (pending.updatedRoots.get? c).getD (m.root c) ≠ m.root c

instance (m : Metadata) (pending : PendingWrite) (c : String) : Decidable (Moves m pending c) :=
  if h : m.root c ≠ snapshotRoot pending c then
    decidable_of_iff ((docsOf pending c).toList ≠ []) (by rw [Moves, if_pos h])
  else
    decidable_of_iff ((pending.updatedRoots.get? c).getD (m.root c) ≠ m.root c)
      (by rw [Moves, if_neg h])

def items (batch : List PendingWrite) : List (PendingWrite × String) :=
  batch.flatMap fun pending => pending.modifiedCollections.keys.map fun c => (pending, c)

def firstMove (m : Metadata) (batch : List PendingWrite) : Option (PendingWrite × String) :=
  (items batch).find? fun item => Moves m item.1 item.2

def Fails {α : Type} (m : DbM ℓ α) (l : ℓ) (db : Database) : Prop :=
  ∃ e, (Proc.exec m l db).1 = .error e

-- The database once the frames of the batch are in the log.
def logged (batch : List PendingWrite) (l : ℓ) (db : Database) : Database :=
  (Proc.exec (Proc.forEach writeFrames batch) l db).2.2

-- Validation fails, or the log, or the batch changes no root, or the rebase of the first
-- collection that is to get a new root fails.
def StopsEarly (batch : List PendingWrite) (l : ℓ) (db : Database) : Prop :=
  Fails (Proc.forEach validatePendingWrite batch) l db ∨
  checkBatchConflicts batch ≠ .ok () ∨
  Fails (Proc.forEach writeFrames batch) l db ∨
  ∀ pending c, firstMove db.metadata batch = some (pending, c) →
    Fails (rebaseIfMoved pending c (db.metadata.root c)) l (logged batch l db)

section Quiet

variable {pending : PendingWrite} {c : String}

-- Without documents a rebase does nothing.
theorem rebase_quiet {root : PageNum} (h : (docsOf pending c).toList = []) :
    Proc.exec (rebase pending c root) l db =
      (.ok { pending with updatedRoots := pending.updatedRoots.insert c root }, l, db) := by
  have happly : Proc.exec (reapply (docsOf pending c)) (TxBTree.new root pending.writes) db =
      (.ok (), TxBTree.new root pending.writes, db) := by
    unfold reapply
    rw [h]
    rfl
  have hsingle : Proc.exec (rebaseSingleCollection pending c root) l db =
      (.ok { pending with updatedRoots := pending.updatedRoots.insert c root }, l, db) := by
    have hwithin : Proc.exec (Proc.within (TxBTree.new root pending.writes)
        (reapply (docsOf pending c)) : DbM ℓ (Unit × TxBTree)) l db =
        (.ok ((), TxBTree.new root pending.writes), l, db) := by
      rw [Proc.exec_within, happly]
      rfl
    exact (Proc.exec_bind_ok hwithin).trans rfl
  have hskip : ∀ entries : List (PageNum × Page), (∀ entry ∈ entries, entry.1 ∈ pending.writes) →
      Proc.exec (Proc.forEach (fun entry => if entry.1 ∈ pending.writes then pure ()
        else writeFrame pending.mvccTxId entry.1 entry.2) entries) l db = (.ok (), l, db) := by
    intro entries hmem
    induction entries with
    | nil => rfl
    | cons entry rest ih =>
      have he : Proc.exec (if entry.1 ∈ pending.writes then pure ()
          else writeFrame pending.mvccTxId entry.1 entry.2) l db = (.ok (), l, db) := by
        rw [if_pos (hmem entry (by simp))]
        rfl
      exact (Proc.exec_bind_ok he).trans (ih fun e he => hmem e (List.mem_cons_of_mem _ he))
  unfold rebase
  rw [Proc.exec_bind_ok hsingle]
  refine (Proc.exec_bind_ok (hskip _ ?_)).trans rfl
  intro entry hmem
  exact HashMap.mem_of_get? (HashMap.mem_toList.mp hmem)

-- A collection that keeps its root is not touched.
theorem applyCollection_quiet (h : ¬ Moves db.metadata pending c) :
    ∃ u, (∀ c', c' ≠ c → u.get? c' = pending.updatedRoots.get? c') ∧
      Proc.exec (applyCollection pending c) l db = (.ok { pending with updatedRoots := u }, l, db) := by
  unfold applyCollection
  have hmeta : Proc.exec (getMetadata : DbM ℓ Metadata) l db = (.ok db.metadata, l, db) := rfl
  rw [Proc.exec_bind_ok hmeta]
  simp only
  unfold Moves at h
  by_cases hroot : db.metadata.root c ≠ snapshotRoot pending c
  · rw [if_pos hroot, not_not] at h
    refine ⟨pending.updatedRoots.insert c (db.metadata.root c), ?_, ?_⟩
    · intro c' hne
      exact HashMap.get?_insert_of_ne _ _ hne
    · have hreb : Proc.exec (rebaseIfMoved pending c (db.metadata.root c)) l db =
          (.ok { pending with
            updatedRoots := pending.updatedRoots.insert c (db.metadata.root c) }, l, db) := by
        rw [rebaseIfMoved, if_pos hroot]
        exact rebase_quiet h
      rw [Proc.exec_bind_ok hreb]
      have hinst : Proc.exec (installRoot { pending with
          updatedRoots := pending.updatedRoots.insert c (db.metadata.root c) } c
          (db.metadata.root c)) l db = (.ok (), l, db) := by
        simp only [installRoot, HashMap.get?_insert_self, Option.getD_some, ne_eq,
          not_true_eq_false, ↓reduceIte]
        rfl
      rw [Proc.exec_bind_ok hinst]
      rfl
  · rw [if_neg hroot, not_not] at h
    refine ⟨pending.updatedRoots, fun _ _ => rfl, ?_⟩
    have hsame : Proc.exec (rebaseIfMoved pending c (db.metadata.root c)) l db = (.ok pending, l, db) := by
      rw [rebaseIfMoved, if_neg hroot]
      rfl
    rw [Proc.exec_bind_ok hsame]
    have hinst : Proc.exec (installRoot pending c (db.metadata.root c)) l db = (.ok (), l, db) := by
      simp only [installRoot, h, ne_eq, not_true_eq_false, ↓reduceIte]
      rfl
    rw [Proc.exec_bind_ok hinst]
    rfl

end Quiet

section Off

-- Once a root has left its old value it does not come back.
variable {db₀ : Database} {pending : PendingWrite} {c c₀ : String}

theorem Applied.off {r : Except Error PendingWrite} (h : Applied db pending c r db')
    (hadv : Advances db₀ db)
    (hroot : db₀.metadata.root c₀ = 0 ∨ db₀.pager.Allocated (db₀.metadata.root c₀))
    (hown : ∀ root, pending.updatedRoots.get? c = some root → root ≠ db₀.metadata.root c)
    (hoff : db.metadata.root c₀ ≠ db₀.metadata.root c₀) :
    db'.metadata.root c₀ ≠ db₀.metadata.root c₀ := by
  have hinst := h.installs
  generalize db'.metadata = m at hinst
  cases hinst with
  | kept => exact hoff
  | @moved root new origin =>
    by_cases hc : c₀ = c
    · subst hc
      rw [root_setRoot_self]
      rcases origin with horigin | ⟨hne, hfree⟩
      · exact hown root horigin
      · intro heq
        rcases hroot with hzero | halloc
        · exact hne (heq.trans hzero)
        · exact hfree (heq ▸ hadv.alloc _ halloc)
    · rw [root_setRoot_of_ne _ _ hc]
      exact hoff

variable (hroot : db₀.metadata.root c₀ = 0 ∨ db₀.pager.Allocated (db₀.metadata.root c₀))

include hroot

theorem applyCollections_off {cs : List String} (hnodup : cs.Nodup) (hadv : Advances db₀ db)
    (hheld : Held db pending.writes) (hown : ∀ c ∈ cs, ∀ root,
      pending.updatedRoots.get? c = some root → root ≠ db₀.metadata.root c)
    (hoff : db.metadata.root c₀ ≠ db₀.metadata.root c₀) {r : Except Error PendingWrite}
    (he : Proc.exec (applyCollections pending cs) l db = (r, l', db')) :
    db'.metadata.root c₀ ≠ db₀.metadata.root c₀ := by
  induction cs generalizing pending l db with
  | nil =>
    simp only [applyCollections, Proc.exec_pure, Prod.mk.injEq] at he
    obtain ⟨_, _, rfl⟩ := he
    exact hoff
  | cons c rest ih =>
    unfold applyCollections at he
    rcases hrun : Proc.exec (applyCollection pending c) l db with ⟨r₁, l₁, db₁⟩
    have happ := applyCollection_spec hadv.wf hheld hrun
    have hoff₁ := happ.off hadv hroot (hown c (by simp)) hoff
    cases r₁ with
    | error e =>
      simp only [Proc.exec_bind_error hrun, Prod.mk.injEq] at he
      obtain ⟨_, _, rfl⟩ := he
      exact hoff₁
    | ok pending₁ =>
      rw [Proc.exec_bind_ok hrun] at he
      rw [List.nodup_cons] at hnodup
      refine ih hnodup.2 (hadv.trans happ.advances) (happ.held _ rfl) ?_ hoff₁ he
      intro c' hc' root hr
      rw [happ.roots _ rfl c' (ne_of_mem_of_not_mem hc' hnodup.1)] at hr
      exact hown c' (by simp [hc']) root hr

theorem applyBatch_off {batch : List PendingWrite} (hadv : Advances db₀ db)
    (hprep : ∀ pending ∈ batch, Prepared db₀ pending)
    (hoff : db.metadata.root c₀ ≠ db₀.metadata.root c₀) {r : Except Error (List PendingWrite)}
    (he : Proc.exec (applyBatch batch) l db = (r, l', db')) :
    db'.metadata.root c₀ ≠ db₀.metadata.root c₀ := by
  induction batch generalizing l l' db db' r with
  | nil =>
    simp only [applyBatch, Proc.exec_pure, Prod.mk.injEq] at he
    obtain ⟨_, _, rfl⟩ := he
    exact hoff
  | cons pending rest ih =>
    have hp := hprep pending (by simp)
    have hheld := hp.held.advances hadv
    unfold applyBatch at he
    rcases hrun : Proc.exec (applyCollections pending pending.modifiedCollections.keys) l db
      with ⟨r₁, l₁, db₁⟩
    have hoff₁ := applyCollections_off hroot (HashMap.nodup_keys _) hadv hheld hp.roots hoff hrun
    have hprog := (applyCollections_spec hadv.wf hheld hrun).1
    cases r₁ with
    | error e =>
      simp only [Proc.exec_bind_error hrun, Prod.mk.injEq] at he
      obtain ⟨_, _, rfl⟩ := he
      exact hoff₁
    | ok pending₁ =>
      rw [Proc.exec_bind_ok hrun] at he
      rcases hrun₂ : Proc.exec (applyBatch rest) l₁ db₁ with ⟨r₂, l₂, db₂⟩
      have hoff₂ := ih (hadv.trans hprog.advances) (fun p hp => hprep p (by simp [hp])) hoff₁ hrun₂
      cases r₂ with
      | error e =>
        simp only [Proc.exec_bind_error hrun₂, Prod.mk.injEq] at he
        obtain ⟨_, _, rfl⟩ := he
        exact hoff₂
      | ok rest₂ =>
        simp only [Proc.exec_bind_ok hrun₂, Proc.exec_pure, Prod.mk.injEq] at he
        obtain ⟨_, _, rfl⟩ := he
        exact hoff₂

end Off

section Move

variable {pending : PendingWrite} {c : String}

theorem fails_rebaseIfMoved {root : PageNum} (u : HashMap String PageNum) :
    Fails (rebaseIfMoved { pending with updatedRoots := u } c root) l db ↔
      Fails (rebaseIfMoved pending c root) l db := by
  have hsnap : snapshotRoot { pending with updatedRoots := u } c = snapshotRoot pending c := rfl
  unfold Fails rebaseIfMoved
  rw [hsnap]
  split
  · obtain ⟨f, hf⟩ := rebase_updatedRoots (ℓ := ℓ) pending c root u
    rw [hf]
    cases (Proc.exec (rebase pending c root) l db).1 <;> simp [Except.map]
  · simp [Proc.exec_pure]

-- A collection that is to get a new root gets it, unless its rebase fails.
theorem applyCollection_move (hwf : db.pager.WF) (hheld : Held db pending.writes)
    (hsound : Sound db (db.metadata.root c)) (hm : Moves db.metadata pending c)
    {r : Except Error PendingWrite}
    (he : Proc.exec (applyCollection pending c) l db = (r, l', db')) :
    (Fails (rebaseIfMoved pending c (db.metadata.root c)) l db ∧ (∃ e, r = .error e) ∧
      db'.metadata = db.metadata) ∨
    (¬ Fails (rebaseIfMoved pending c (db.metadata.root c)) l db ∧ (∃ pending', r = .ok pending') ∧
      db'.metadata.root c ≠ db.metadata.root c) := by
  have happ := applyCollection_spec hwf hheld he
  have hmeta : Proc.exec (getMetadata : DbM ℓ Metadata) l db = (.ok db.metadata, l, db) := rfl
  unfold applyCollection at he
  rw [Proc.exec_bind_ok hmeta] at he
  rcases hrun : Proc.exec (rebaseIfMoved pending c (db.metadata.root c)) l db with ⟨r₁, l₁, db₁⟩
  cases r₁ with
  | error e =>
    simp only [Proc.exec_bind_error hrun, Prod.mk.injEq] at he
    obtain ⟨rfl, _, rfl⟩ := he
    exact Or.inl ⟨⟨e, by rw [hrun]⟩, ⟨e, rfl⟩, happ.error e rfl⟩
  | ok pending₁ =>
    have hnew : (pending₁.updatedRoots.get? c).getD (db.metadata.root c) ≠ db.metadata.root c := by
      unfold Moves at hm
      unfold rebaseIfMoved at hrun
      split at hm
      case isTrue hroot =>
        rw [if_pos hroot] at hrun
        obtain ⟨newRoot, hreb⟩ := (rebase_spec hwf hheld hrun).2.2.2 pending₁ rfl
        rw [hreb.eq]
        simpa using hreb.moved hm hsound
      case isFalse hroot =>
        rw [if_neg hroot] at hrun
        obtain ⟨rfl, _, rfl⟩ : pending = pending₁ ∧ l = l₁ ∧ db = db₁ := by
          simpa [Proc.exec_pure] using hrun
        exact hm
    have hinst : Proc.exec (installRoot pending₁ c (db.metadata.root c)) l₁ db₁ =
        (.ok (), l₁, { db₁ with
          metadata := setRoot c ((pending₁.updatedRoots.get? c).getD (db.metadata.root c))
            db₁.metadata }) := by
      simp only [installRoot]
      rw [if_pos hnew]
      rfl
    simp only [Proc.exec_bind_ok hrun, Proc.exec_bind_ok hinst, Proc.exec_pure, Prod.mk.injEq] at he
    obtain ⟨rfl, _, rfl⟩ := he
    refine Or.inr ⟨?_, ⟨_, rfl⟩, ?_⟩
    · rintro ⟨e, hfail⟩
      rw [hrun] at hfail
      cases hfail
    · rw [root_setRoot_self]
      exact hnew

theorem moves_updatedRoots {m : Metadata} {u : HashMap String PageNum}
    (hu : u.get? c = pending.updatedRoots.get? c) :
    Moves m { pending with updatedRoots := u } c ↔ Moves m pending c := by
  have hsnap : snapshotRoot { pending with updatedRoots := u } c = snapshotRoot pending c := rfl
  have hdocs : docsOf { pending with updatedRoots := u } c = docsOf pending c := rfl
  unfold Moves
  rw [hsnap, hdocs, hu]

-- The outcome of a loop whose first collection to move is `c`, in terms of its rebase.
def Decides (pending : PendingWrite) (c : String) (l : ℓ) (db : Database) {α : Type}
    (r : Except Error α) (db' : Database) : Prop :=
  (Fails (rebaseIfMoved pending c (db.metadata.root c)) l db ∧ (∃ e, r = .error e) ∧
    db'.metadata = db.metadata) ∨
  (¬ Fails (rebaseIfMoved pending c (db.metadata.root c)) l db ∧
    db'.metadata.root c ≠ db.metadata.root c)

theorem applyCollections_first (hint : Intact db) (hheld : Held db pending.writes)
    {cs : List String} (hnodup : cs.Nodup) {u : HashMap String PageNum}
    (hu : ∀ c ∈ cs, u.get? c = pending.updatedRoots.get? c)
    (hown : ∀ c ∈ cs, ∀ root, pending.updatedRoots.get? c = some root → root ≠ db.metadata.root c)
    {r : Except Error PendingWrite}
    (he : Proc.exec (applyCollections { pending with updatedRoots := u } cs) l db = (r, l', db')) :
    match cs.find? fun c => Moves db.metadata pending c with
    | none => (∃ pending', r = .ok pending') ∧ l' = l ∧ db' = db
    | some c => Decides pending c l db r db' := by
  induction cs generalizing u with
  | nil =>
    simp only [applyCollections, Proc.exec_pure, Prod.mk.injEq] at he
    obtain ⟨rfl, rfl, rfl⟩ := he
    exact ⟨⟨_, rfl⟩, rfl, rfl⟩
  | cons c rest ih =>
    rw [List.nodup_cons] at hnodup
    have huc := hu c (by simp)
    have hheld' : Held db ({ pending with updatedRoots := u } : PendingWrite).writes := hheld
    have hrest : ∀ c' ∈ rest, c' ≠ c := fun c' hc' => ne_of_mem_of_not_mem hc' hnodup.1
    unfold applyCollections at he
    by_cases hm : Moves db.metadata pending c
    · rw [List.find?_cons_of_pos (by simpa using hm)]
      rcases hrun : Proc.exec (applyCollection { pending with updatedRoots := u } c) l db
        with ⟨r₁, l₁, db₁⟩
      have happ := applyCollection_spec hint.pager hheld' hrun
      have hmove := applyCollection_move hint.pager hheld' (hint.trees c)
        ((moves_updatedRoots huc).mpr hm) hrun
      rw [fails_rebaseIfMoved] at hmove
      rcases hmove with ⟨hfail, ⟨e, rfl⟩, hmeta⟩ | ⟨hok, ⟨pending₁, rfl⟩, hoff⟩
      · simp only [Proc.exec_bind_error hrun, Prod.mk.injEq] at he
        obtain ⟨rfl, _, rfl⟩ := he
        exact Or.inl ⟨hfail, ⟨e, rfl⟩, hmeta⟩
      · rw [Proc.exec_bind_ok hrun] at he
        refine Or.inr ⟨hok, applyCollections_off (hint.trees c).root hnodup.2 happ.advances
          (happ.held _ rfl) ?_ hoff he⟩
        intro c' hc' root hr
        rw [happ.roots _ rfl c' (hrest c' hc')] at hr
        exact hown c' (by simp [hc']) root ((hu c' (by simp [hc'])).symm.trans hr)
    · rw [List.find?_cons_of_neg (by simpa using hm)]
      obtain ⟨u₁, hu₁, hrun⟩ := applyCollection_quiet (l := l)
        ((moves_updatedRoots huc).not.mpr hm)
      rw [Proc.exec_bind_ok hrun] at he
      refine ih hnodup.2 ?_ (fun c' hc' => hown c' (by simp [hc'])) he
      intro c' hc'
      rw [hu₁ c' (hrest c' hc'), hu c' (by simp [hc'])]

theorem applyBatch_first (hint : Intact db) {batch : List PendingWrite}
    (hprep : ∀ pending ∈ batch, Prepared db pending) {r : Except Error (List PendingWrite)}
    (he : Proc.exec (applyBatch batch) l db = (r, l', db')) :
    match firstMove db.metadata batch with
    | none => (∃ batch', r = .ok batch') ∧ db' = db
    | some (pending, c) => Decides pending c l db r db' := by
  induction batch generalizing l' db' r with
  | nil =>
    simp only [applyBatch, Proc.exec_pure, Prod.mk.injEq] at he
    obtain ⟨rfl, _, rfl⟩ := he
    exact ⟨⟨_, rfl⟩, rfl⟩
  | cons pending rest ih =>
    have hp := hprep pending (by simp)
    have hrest : ∀ p ∈ rest, Prepared db p := fun p hp => hprep p (by simp [hp])
    unfold applyBatch at he
    rcases hrun : Proc.exec (applyCollections pending pending.modifiedCollections.keys) l db
      with ⟨r₁, l₁, db₁⟩
    have hfirst := applyCollections_first hint hp.held (HashMap.nodup_keys _)
      (fun _ _ => rfl) hp.roots hrun
    have hprog := (applyCollections_spec hint.pager hp.held hrun).1
    have hitems : firstMove db.metadata (pending :: rest) =
        ((pending.modifiedCollections.keys.find? fun c => Moves db.metadata pending c).map
          fun c => (pending, c)).or (firstMove db.metadata rest) := by
      simp only [firstMove, items, List.flatMap_cons, List.find?_append, List.find?_map]
      rfl
    rw [hitems]
    cases hfind : pending.modifiedCollections.keys.find? fun c => Moves db.metadata pending c with
    | none =>
      rw [hfind] at hfirst
      obtain ⟨⟨pending₁, rfl⟩, rfl, rfl⟩ := hfirst
      rw [Proc.exec_bind_ok hrun] at he
      simp only [Option.map_none, Option.none_or]
      rcases hrun₂ : Proc.exec (applyBatch rest) l₁ db₁ with ⟨r₂, l₂, db₂⟩
      have hrec := ih hrest hrun₂
      cases r₂ with
      | error e =>
        simp only [Proc.exec_bind_error hrun₂, Prod.mk.injEq] at he
        obtain ⟨rfl, _, rfl⟩ := he
        exact hrec
      | ok rest₂ =>
        simp only [Proc.exec_bind_ok hrun₂, Proc.exec_pure, Prod.mk.injEq] at he
        obtain ⟨rfl, _, rfl⟩ := he
        cases hnext : firstMove db₁.metadata rest with
        | none =>
          rw [hnext] at hrec
          exact ⟨⟨_, rfl⟩, hrec.2⟩
        | some item =>
          rw [hnext] at hrec
          rcases hrec with ⟨_, ⟨e, hok⟩, _⟩ | hoff
          · cases hok
          · exact Or.inr hoff
    | some c =>
      rw [hfind] at hfirst
      simp only [Option.map_some, Option.some_or]
      rcases hfirst with ⟨hfail, ⟨e, rfl⟩, hmeta⟩ | ⟨hok, hoff⟩
      · simp only [Proc.exec_bind_error hrun, Prod.mk.injEq] at he
        obtain ⟨rfl, _, rfl⟩ := he
        exact Or.inl ⟨hfail, ⟨e, rfl⟩, hmeta⟩
      · refine Or.inr ⟨hok, ?_⟩
        cases r₁ with
        | error e =>
          simp only [Proc.exec_bind_error hrun, Prod.mk.injEq] at he
          obtain ⟨_, _, rfl⟩ := he
          exact hoff
        | ok pending₁ =>
          rw [Proc.exec_bind_ok hrun, Proc.exec_bind] at he
          rcases hrun₂ : Proc.exec (applyBatch rest) l₁ db₁ with ⟨r₂, l₂, db₂⟩
          have hoff₂ := applyBatch_off (hint.trees c).root hprog.advances hrest hoff hrun₂
          rw [hrun₂] at he
          cases r₂ with
          | error e =>
            obtain ⟨_, _, rfl⟩ : .error e = r ∧ l₂ = l' ∧ db₂ = db' := by simpa using he
            exact hoff₂
          | ok rest₂ =>
            simp only [Proc.exec_pure, Prod.mk.injEq] at he
            obtain ⟨_, _, rfl⟩ := he
            exact hoff₂

end Move

-- What is to stay when a commit fails: the metadata, and what transactions that begin now find.
def Unchanged [SerdeJson] (db db' : Database) : Prop :=
  db'.metadata = db.metadata ∧ ∀ name id,
    (Proc.exec (observe name id) () db').1 = (Proc.exec (observe name id) () db).1

theorem unchanged_of_metadata [SerdeJson] (hint : Intact db) (hmeta : db'.metadata = db.metadata)
    (htx : db'.txManager = db.txManager) (hwf : db'.pager.WF)
    (hpages : ∀ n, db.pager.Allocated n → db'.pager.Allocated n ∧
      (n ≠ db.pager.metadataPage → db'.pager.view n = db.pager.view n)) : Unchanged db db' := by
  refine ⟨hmeta, fun name id => observe_agree hint.pager hwf hmeta htx ?_ id () ()⟩
  intro p hne hr
  have halloc : db.pager.Allocated p := by
    rcases hint.trees name with ⟨hzero, _⟩ | hall
    · exact absurd hzero hne
    · exact hall p hr
  refine ⟨halloc, (hpages p halloc).1, (hpages p halloc).2 ?_⟩
  rintro rfl
  exact hint.apart name hne hr

section Prepare

variable {batch : List PendingWrite}

theorem Prepared.withWal {pending : PendingWrite} (h : Prepared db pending) (wal : WAL) :
    Prepared { db with wal } pending := ⟨h.held, h.roots⟩

-- What the end of phase 4 does to a database that phase 4 has come to.
theorem unchanged_writeMetadata [SerdeJson] {db₁ : Database} (hint : Intact db) (hprog : Progress db db₁)
    (hmeta : db₁.metadata = db.metadata) {txId : TransactionID} {r : Except Error Unit}
    (he : Proc.exec (writeMetadata txId) l db₁ = (r, l', db')) : Unchanged db db' := by
  obtain ⟨hpages, hwf, hkept⟩ := writeMetadata_kept hprog.advances.wf txId he
  have hmp : db₁.pager.metadataPage = db.pager.metadataPage := hprog.frame.2.1
  refine unchanged_of_metadata hint ?_ ?_ hwf fun n hn => ?_
  · rw [hpages]
    exact hmeta
  · rw [hpages, hprog.shared]
  · obtain ⟨halloc, hview⟩ := hkept n (hprog.advances.alloc n hn)
    refine ⟨halloc, fun hne => ?_⟩
    rw [hview (hmp ▸ hne), hprog.advances.view n hn]

-- Phase 4, from the database in which the frames are logged.
theorem applyPhase_unchanged_iff [SerdeJson] (leader : TransactionID) (hint : Intact db)
    (hprep : ∀ pending ∈ batch, Prepared db pending) {r : Except Error (List PendingWrite)}
    {e : Error} (hr : r = .error e) (he : Proc.exec (do
      let batch ← applyBatch batch
      writeMetadata (maxTxId leader batch)
      pure batch) l db = (r, l', db')) :
    Unchanged db db' ↔ ∀ pending c, firstMove db.metadata batch = some (pending, c) →
      Fails (rebaseIfMoved pending c (db.metadata.root c)) l db := by
  subst hr
  rcases hrun : Proc.exec (applyBatch batch) l db with ⟨r₁, l₁, db₁⟩
  have hprog := (applyBatch_spec hint.pager (fun p hp => (hprep p hp).held) hrun).1
  have hfirst := applyBatch_first hint hprep hrun
  -- what comes after `applyBatch` keeps the metadata
  have hafter : db'.metadata = db₁.metadata ∧ (db₁.metadata = db.metadata → Unchanged db db') := by
    cases r₁ with
    | error e₁ =>
      simp only [Proc.exec_bind_error hrun, Prod.mk.injEq] at he
      obtain ⟨_, _, rfl⟩ := he
      refine ⟨rfl, fun hmeta => unchanged_of_metadata hint hmeta ?_ hprog.advances.wf fun n hn =>
        ⟨hprog.advances.alloc n hn, fun _ => hprog.advances.view n hn⟩⟩
      rw [hprog.shared]
    | ok batch₁ =>
      rw [Proc.exec_bind_ok hrun, Proc.exec_bind] at he
      rcases hrun₂ : Proc.exec (writeMetadata (maxTxId leader batch₁)) l₁ db₁ with ⟨r₂, l₂, db₂⟩
      rw [hrun₂] at he
      obtain rfl : db₂ = db' := by
        cases r₂ with
        | error e₂ => exact (Prod.mk.inj (Prod.mk.inj he).2).2
        | ok u => exact (Prod.mk.inj (Prod.mk.inj he).2).2
      refine ⟨?_, fun hmeta => unchanged_writeMetadata hint hprog hmeta hrun₂⟩
      rw [(writeMetadata_kept hprog.advances.wf _ hrun₂).1]
  cases hfind : firstMove db.metadata batch with
  | none =>
    rw [hfind] at hfirst
    refine ⟨fun _ _ _ h => by simp at h, fun _ => hafter.2 ?_⟩
    rw [hfirst.2]
  | some item =>
    obtain ⟨pending, c⟩ := item
    rw [hfind] at hfirst
    rcases hfirst with ⟨hfail, _, hmeta⟩ | ⟨hok, hoff⟩
    · refine ⟨fun _ p c' h => ?_, fun _ => hafter.2 hmeta⟩
      simp only [Option.some.injEq, Prod.mk.injEq] at h
      obtain ⟨rfl, rfl⟩ := h
      exact hfail
    · refine ⟨fun hun => ?_, fun h => absurd (h pending c rfl) hok⟩
      refine absurd ?_ hoff
      rw [← hafter.1, hun.1]

-- The part of a commit before the log is synced, when it fails.
theorem prepareBatch_unchanged_iff [SerdeJson] (leader : TransactionID) (hint : Intact db)
    (hprep : ∀ pending ∈ batch, Prepared db pending) {e : Error}
    (he : Proc.exec (prepareBatch leader batch) () db = (.error e, (), db')) :
    Unchanged db db' ↔ StopsEarly batch () db := by
  have hsame : ∀ wal, Unchanged db { db with wal } := fun wal =>
    unchanged_of_metadata hint rfl rfl hint.pager fun n hn => ⟨hn, fun _ => rfl⟩
  unfold prepareBatch at he
  -- phase 1 leaves everything as it is
  have hval := validate_unchanged batch () db
  rcases hrun : Proc.exec (Proc.forEach validatePendingWrite batch) () db with ⟨r₁, l₁, db₁⟩
  rw [hrun] at hval
  obtain rfl : db₁ = db := hval
  cases r₁ with
  | error e₁ =>
    simp only [Proc.exec_bind_error hrun, Prod.mk.injEq] at he
    obtain ⟨_, _, rfl⟩ := he
    exact iff_of_true (hsame db₁.wal) (Or.inl ⟨e₁, by rw [hrun]⟩)
  | ok u₁ =>
    have hval' : ¬ Fails (Proc.forEach validatePendingWrite batch) () db₁ := by
      rintro ⟨e', hfail⟩
      rw [hrun] at hfail
      cases hfail
    rw [Proc.exec_bind_ok hrun] at he
    -- phase 2 looks at the batch only
    cases hcheck : checkBatchConflicts batch with
    | error e₂ =>
      have hstep : Proc.exec (Proc.ofExcept (.error e₂) : DbM Unit Unit) l₁ db₁ =
          (.error e₂, l₁, db₁) := rfl
      rw [hcheck, Proc.exec_bind_error hstep] at he
      obtain rfl : db₁ = db' := (Prod.mk.inj (Prod.mk.inj he).2).2
      exact iff_of_true (hsame db₁.wal) (Or.inr (Or.inl (by rw [hcheck]; simp)))
    | ok u₂ =>
      rw [hcheck, show (Proc.ofExcept (.ok u₂) : DbM Unit Unit) = pure u₂ from rfl,
        Proc.exec_bind_ok (Proc.exec_pure u₂ l₁ db₁)] at he
      -- phase 3 touches the log only
      obtain ⟨wal, hwal⟩ := wal_only (Proc.acts_forEach batch fun p _ => acts_writeFrames p) l₁ db₁
      rcases hrun₃ : Proc.exec (Proc.forEach writeFrames batch) l₁ db₁ with ⟨r₃, l₃, db₃⟩
      rw [hrun₃] at hwal
      obtain rfl : db₃ = { db₁ with wal } := hwal
      cases r₃ with
      | error e₃ =>
        simp only [Proc.exec_bind_error hrun₃, Prod.mk.injEq] at he
        obtain ⟨_, _, rfl⟩ := he
        exact iff_of_true (hsame wal) (Or.inr (Or.inr (Or.inl ⟨e₃, by rw [hrun₃]⟩)))
      | ok u₃ =>
        have hlog : ¬ Fails (Proc.forEach writeFrames batch) () db₁ := by
          rintro ⟨e', hfail⟩
          rw [hrun₃] at hfail
          cases hfail
        have hlogged : logged batch () db₁ = { db₁ with wal } := by
          unfold logged
          rw [hrun₃]
        rw [Proc.exec_bind_ok hrun₃] at he
        have hiff := applyPhase_unchanged_iff leader (hint.withWal wal)
          (fun p hp => (hprep p hp).withWal wal) rfl he
        have hlift : Unchanged db₁ db' ↔ Unchanged { db₁ with wal } db' := by
          have hobs := (hsame wal).2
          constructor
          · exact fun h => ⟨h.1, fun name id => (h.2 name id).trans (hobs name id).symm⟩
          · exact fun h => ⟨h.1, fun name id => (h.2 name id).trans (hobs name id)⟩
        rw [hlift, hiff]
        unfold StopsEarly
        rw [hlogged, hcheck]
        simp only [hval', hlog, ne_eq, not_true_eq_false, false_or]

end Prepare

section DeletedTwice

def leafOf (p : PageNum) (entries : List LeafEntry) : Page :=
  .node { BTreeNode.newLeaf p with entries, numKeys := entries.length }

def docOf (id : String) (xmin : TransactionID) : Page :=
  .doc ⟨xmin, 0, id, .obj [("_id", .str id)], 0⟩

-- Page 2 is the root of the collection as both transactions could have seen it, page 3 the root
-- since a third one deleted `y`. The first one updated `x`, the second one deleted `y` too.
def deletedTwice : Database :=
  .ofPages [(2, leafOf 2 [⟨"x", 7⟩, ⟨"y", 8⟩]), (3, leafOf 3 [⟨"x", 7⟩]), (4, leafOf 4 [⟨"x", 5⟩]),
    (5, docOf "x" 3), (6, leafOf 6 [⟨"x", 7⟩]), (7, docOf "x" 1), (8, docOf "y" 1)] 9 [("a", 3)] 5

def updateOfX : PendingWrite where
  writes := ((∅ : HashMap PageNum Page).insert 4 (leafOf 4 [⟨"x", 5⟩])).insert 5 (docOf "x" 3)
  docWrites := insertNested ∅ "a" "x" (some 5)
  snapshotRoots := (∅ : HashMap String PageNum).insert "a" 3
  updatedRoots := (∅ : HashMap String PageNum).insert "a" 4
  oldVersions := ∅
  modifiedCollections := (∅ : HashSet String).insert "a" ()
  docExistedInSnapshot := insertNested ∅ "a" "x" true
  docOriginalXmin := insertNested ∅ "a" "x" 1
  txId := 0
  snapshotId := 2
  mvccTxId := 3

def deleteOfY : PendingWrite where
  writes := (∅ : HashMap PageNum Page).insert 6 (leafOf 6 [⟨"x", 7⟩])
  docWrites := insertNested ∅ "a" "y" none
  snapshotRoots := (∅ : HashMap String PageNum).insert "a" 2
  updatedRoots := (∅ : HashMap String PageNum).insert "a" 6
  oldVersions := ∅
  modifiedCollections := (∅ : HashSet String).insert "a" ()
  docExistedInSnapshot := ∅
  docOriginalXmin := ∅
  txId := 1
  snapshotId := 1
  mvccTxId := 4

theorem intact_deletedTwice : Intact deletedTwice :=
  intact_ofPages [3, 7] (by decide) (by decide) (by decide) (by decide) (by decide)

theorem prepared_updateOfX : Prepared deletedTwice updateOfX := by
  refine ⟨((held_empty _).insert (by decide) rfl).insert (by decide) rfl, ?_⟩
  intro c hc r hr
  obtain rfl : c = "a" := (HashMap.mem_insert.mp hc).resolve_right (HashMap.not_mem_empty c)
  obtain rfl : 4 = r := Option.some.inj hr
  decide

theorem prepared_deleteOfY : Prepared deletedTwice deleteOfY := by
  refine ⟨(held_empty _).insert (by decide) rfl, ?_⟩
  intro c hc r hr
  obtain rfl : c = "a" := (HashMap.mem_insert.mp hc).resolve_right (HashMap.not_mem_empty c)
  obtain rfl : 6 = r := Option.some.inj hr
  decide

theorem exec_eq_of_error {α : Type} {m : DbM Unit α} {e : Error}
    (h : (Proc.exec m () db).1.map (fun _ => ()) = .error e) :
    Proc.exec m () db = (.error e, (), (Proc.exec m () db).2.2) := by
  rcases hrun : Proc.exec m () db with ⟨r, l, db'⟩
  rw [hrun] at h
  cases r with
  | ok a => cases h
  | error e' =>
    obtain rfl := Except.error.inj h
    rfl

theorem fails_of_error {α : Type} {m : DbM Unit α} {e : Error}
    (h : (Proc.exec m () db).1.map (fun _ => ()) = .error e) : Fails m () db := by
  refine ⟨e, ?_⟩
  rw [exec_eq_of_error h]

set_option maxRecDepth 100000 in
-- Alone, the second delete fails in its own rebase and leaves no trace.
attribute [local instance] SerdeJson.exact

theorem prepareBatch_unchanged_alone :
    Unchanged deletedTwice (Proc.exec (prepareBatch 4 [deleteOfY]) () deletedTwice).2.2 := by
  refine (prepareBatch_unchanged_iff (e := notFound "y") 4 intact_deletedTwice ?_
    (exec_eq_of_error (by decide +kernel))).mpr (Or.inr (Or.inr (Or.inr ?_)))
  · intro pending hp
    obtain rfl := List.mem_singleton.mp hp
    exact prepared_deleteOfY
  · intro pending c hfirst
    have hmove : firstMove deletedTwice.metadata [deleteOfY] = some (deleteOfY, "a") := rfl
    rw [hmove, Option.some.injEq, Prod.mk.injEq] at hfirst
    obtain ⟨rfl, rfl⟩ := hfirst
    exact fails_of_error (e := notFound "y") (by decide +kernel)

set_option maxRecDepth 100000 in
-- In one batch with the update, it fails when the root of the update is in the metadata already.
theorem prepareBatch_changed : Intact deletedTwice ∧
    (∀ pending ∈ [updateOfX, deleteOfY], Prepared deletedTwice pending) ∧
    (Proc.exec (prepareBatch 3 [updateOfX, deleteOfY]) () deletedTwice).1.map (fun _ => ()) =
      .error (notFound "y") ∧
    ¬ Unchanged deletedTwice
      (Proc.exec (prepareBatch 3 [updateOfX, deleteOfY]) () deletedTwice).2.2 := by
  refine ⟨intact_deletedTwice, ?_, by decide +kernel, ?_⟩
  · intro pending hp
    rcases List.mem_pair.mp hp with rfl | rfl
    · exact prepared_updateOfX
    · exact prepared_deleteOfY
  · rintro ⟨hmeta, _⟩
    have hroot := congrArg (fun m => m.root "a") hmeta
    revert hroot
    decide +kernel

end DeletedTwice

end Commit

end JasonDb
