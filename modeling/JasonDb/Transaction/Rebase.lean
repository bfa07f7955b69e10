import JasonDb.Transaction.Commit
import JasonDb.TxBTree.Moves
import JasonDb.TxBTree.Steps

namespace JasonDb

open Lib

variable {ℓ : Type} {db db' db'' : Database}

namespace TxBTree

theorem owns_new {root : PageNum} {writes : HashMap PageNum Page} (hwf : db.pager.WF)
    (hw : ∀ n page, writes.get? n = some page → db.pager.view n = some page) :
    Owns (new root writes) db := by
  refine ⟨hwf, ?_, ?_, Or.inl rfl, ?_, hw⟩
  · intro p q hpq
    simp [new] at hpq
  · intro p hp
    exact absurd hp (HashMap.not_mem_empty p)
  · intro hc
    exact absurd rfl hc

end TxBTree

-- What the pages of the committed trees and of the transactions need from everybody else: a page
-- in use stays in use and keeps its content.
structure Advances (db db' : Database) : Prop where
  wf : db'.pager.WF
  alloc : ∀ n, db.pager.Allocated n → db'.pager.Allocated n
  view : ∀ n, db.pager.Allocated n → db'.pager.view n = db.pager.view n

theorem Advances.refl (h : db.pager.WF) : Advances db db := ⟨h, fun _ hn => hn, fun _ _ => rfl⟩

theorem Advances.trans (h : Advances db db') (h' : Advances db' db'') : Advances db db'' :=
  ⟨h'.wf, fun n hn => h'.alloc n (h.alloc n hn),
    fun n hn => (h'.view n (h.alloc n hn)).trans (h.view n hn)⟩

-- Pages and log may differ, nothing else.
def OnlyPages (db db' : Database) : Prop := db' = { db with pager := db'.pager, wal := db'.wal }

theorem OnlyPages.trans (h : OnlyPages db db') (h' : OnlyPages db' db'') : OnlyPages db db'' := by
  rw [OnlyPages, h', h]

-- The pages of a transaction: in use, and as the transaction wrote them.
def Held (db : Database) (writes : HashMap PageNum Page) : Prop :=
  ∀ n page, writes.get? n = some page → db.pager.Allocated n ∧ db.pager.view n = some page

theorem Held.advances {writes : HashMap PageNum Page} (h : Held db writes) (ha : Advances db db') :
    Held db' writes := by
  intro n page hn
  obtain ⟨hal, hv⟩ := h n page hn
  exact ⟨ha.alloc n hal, (ha.view n hal).trans hv⟩

theorem held_empty (db : Database) : Held db ∅ := by
  intro n page hn
  cases hn

theorem Held.insert {writes : HashMap PageNum Page} (h : Held db writes) {p : PageNum} {page : Page}
    (hp : db.pager.Allocated p) (hv : db.pager.view p = some page) :
    Held db (writes.insert p page) := by
  intro n page' hn
  rw [HashMap.get?_insert] at hn
  split at hn
  case isTrue heq =>
    subst heq
    rw [hv]
    exact ⟨hp, hn⟩
  case isFalse => exact h n page' hn

namespace Commit

open TxBTree

-- Steps of the commit that only touch the log.
inductive WalStep : Database → Database → Prop
  | log (db : Database) (wal : WAL) : WalStep db { db with wal }

theorem acts_writeFrame (txId : TransactionID) (pageNum : PageNum) (page : Page) :
    Proc.Acts WalStep (writeFrame txId pageNum page : DbM ℓ Unit) :=
  Proc.acts_atomicE fun db => .log db _

theorem acts_writeFrames (pending : PendingWrite) :
    Proc.Acts WalStep (writeFrames pending : DbM ℓ Unit) :=
  Proc.acts_forEach _ fun _ _ => acts_writeFrame _ _ _

theorem wal_only {α : Type} {m : DbM ℓ α} (h : Proc.Acts WalStep m) (l : ℓ) (db : Database) :
    ∃ wal, (Proc.exec m l db).2.2 = { db with wal } := by
  have hrun := h.exec l db
  generalize (Proc.exec m l db).2.2 = db' at hrun
  induction hrun with
  | refl => exact ⟨db.wal, rfl⟩
  | tail _ hstep ih =>
    obtain ⟨wal, rfl⟩ := ih
    cases hstep with
    | log wal => exact ⟨wal, rfl⟩

section Reapply

variable {t t₀ : TxBTree} {db₀ : Database}

theorem confined_applyInsert (h : Owns t db) (entry : String × Option PageNum) :
    Confined t db (applyInsert entry) fun _ _ => True := by
  unfold applyInsert
  split
  · exact confined_insert h
  · exact confined_pure h trivial

theorem confined_applyDelete (h : Owns t db) (entry : String × Option PageNum) :
    Confined t db (applyDelete entry) fun _ _ => True := by
  unfold applyDelete
  split
  · exact confined_pure h trivial
  · exact confined_delete h

theorem confined_reapply (h : Owns t db) (docs : HashMap String (Option PageNum)) :
    Confined t db (reapply docs) fun _ _ => True :=
  (confined_forEach h _ fun entry _ _ h' => confined_applyInsert h' entry).bind fun _ _ _ h' _ =>
    confined_forEach h' _ fun entry _ _ h'' => confined_applyDelete h'' entry

variable (h : Owns t₀ db₀) (hnew : ∀ p, p ∉ t₀.newPages) (hcow : ∀ p, t₀.actualPage p = p)
  (hmod : t₀.modifiedRoot = 0)
  (hall : Sound db₀ t₀.snapshotRoot)

include h hnew hcow hmod hall

-- The first document that is really inserted or deleted moves the root.
theorem moves_applyInserts (docs : List (String × Option PageNum))
    (hdocs : ∃ entry ∈ docs, entry.2 ≠ none) :
    Confined t₀ db₀ (Proc.forEach applyInsert docs) fun _ t' => t'.modifiedRoot ≠ 0 := by
  induction docs with
  | nil => simp at hdocs
  | cons entry rest ih =>
    obtain ⟨id, target⟩ := entry
    cases target with
    | some page =>
      exact (moves_insert h hnew hcow hmod hall id page).movedThen fun _ _ _ h' =>
        confined_forEach h' _ fun entry _ _ h'' => confined_applyInsert h'' entry
    | none =>
      refine ih ?_
      obtain ⟨entry, hmem, hne⟩ := hdocs
      rcases List.mem_cons.mp hmem with rfl | hmem
      · exact absurd rfl hne
      · exact ⟨entry, hmem, hne⟩

theorem moves_reapply (docs : HashMap String (Option PageNum)) (hdocs : docs.toList ≠ []) :
    Confined t₀ db₀ (reapply docs) fun _ t' => t'.modifiedRoot ≠ 0 := by
  unfold reapply
  by_cases hins : ∃ entry ∈ docs.toList, entry.2 ≠ none
  · exact (moves_applyInserts h hnew hcow hmod hall _ hins).movedThen fun _ _ _ h' =>
      confined_forEach h' _ fun entry _ _ h'' => confined_applyDelete h'' entry
  · -- only deletes: the first loop does nothing
    have hnone : ∀ entry ∈ docs.toList, entry.2 = none := by
      intro entry hmem
      by_contra hne
      exact hins ⟨entry, hmem, hne⟩
    have hskip : ∀ items : List (String × Option PageNum), (∀ entry ∈ items, entry.2 = none) →
        Proc.exec (Proc.forEach applyInsert items) t₀ db₀ = (.ok (), t₀, db₀) := by
      intro items hitems
      induction items with
      | nil => rfl
      | cons entry rest ih =>
        have he : Proc.exec (applyInsert entry) t₀ db₀ = (.ok (), t₀, db₀) := by
          simp [applyInsert, hitems entry (by simp), Proc.exec_pure]
        exact (Proc.exec_bind_ok he).trans (ih fun e hmem => hitems e (List.mem_cons_of_mem _ hmem))
    refine confined_bind_same h (hskip _ hnone) fun _ _ => ?_
    obtain ⟨entry, rest, hcons⟩ := List.exists_cons_of_ne_nil hdocs
    rw [hcons]
    have hdelete : applyDelete entry = TxBTree.delete entry.1 := by
      simp [applyDelete, hnone entry (by simp [hcons])]
    have hmove := moves_delete h hnew hcow hmod hall entry.1
    rw [← hdelete] at hmove
    exact hmove.movedThen fun _ _ _ h' =>
      confined_forEach h' _ fun entry _ _ h'' => confined_applyDelete h'' entry

end Reapply

-- The pending write after the rebase of one collection: the handle's pages have come to its own,
-- and the root is a page that was not in use before, or the old one.
structure Rebased (db : Database) (pending : PendingWrite) (collection : String) (root : PageNum)
    (db' : Database) (pending' : PendingWrite) (newRoot : PageNum) : Prop where
  eq : pending' = { pending with
    writes := pending'.writes
    updatedRoots := pending.updatedRoots.insert collection newRoot }
  held : Held db' pending'.writes
  fresh : newRoot = root ∨ (newRoot ≠ 0 ∧ ¬ db.pager.Allocated newRoot)
  moved : (docsOf pending collection).toList ≠ [] → Sound db root → newRoot ≠ root

section Rebase

variable {pending : PendingWrite} {collection : String} {root : PageNum} {l l' : ℓ}

theorem rebaseSingleCollection_spec (hwf : db.pager.WF) (hheld : Held db pending.writes)
    {r : Except Error PendingWrite}
    (he : Proc.exec (rebaseSingleCollection pending collection root) l db = (r, l', db')) :
    Advances db db' ∧ db' = { db with pager := db'.pager } ∧ db.pager.Frame db'.pager ∧
      ∀ pending', r = .ok pending' → ∃ newRoot, Rebased db pending collection root db' pending' newRoot := by
  have ho : Owns (TxBTree.new root pending.writes) db := owns_new hwf fun n page hn => (hheld n page hn).2
  have hnew : ∀ p, p ∉ (TxBTree.new root pending.writes).newPages := HashMap.not_mem_empty
  rcases hrun : Proc.exec (reapply (docsOf pending collection)) (TxBTree.new root pending.writes) db
    with ⟨r', t', db''⟩
  obtain ⟨ho', hon, _⟩ := confined_reapply ho (docsOf pending collection) r' t' db'' hrun
  have hadv : Advances db db'' := by
    refine ⟨ho'.pager, hon.alloc, fun n hn => hon.view n ?_⟩
    exact not_mem_newPages hnew hon hn
  have hwithin : Proc.exec (Proc.within (TxBTree.new root pending.writes)
      (reapply (docsOf pending collection)) : DbM ℓ (Unit × TxBTree)) l db =
      (r'.map fun a => (a, t'), l, db'') := by
    rw [Proc.exec_within, hrun]
  unfold rebaseSingleCollection at he
  cases r' with
  | error e =>
    rw [Proc.exec_bind_error hwithin] at he
    obtain ⟨rfl, _, rfl⟩ : .error e = r ∧ l = l' ∧ db'' = db' := by simpa using he
    exact ⟨hadv, hon.shared, hon.pager, by simp⟩
  | ok u =>
    rw [Proc.exec_bind_ok hwithin] at he
    simp only [Proc.exec_pure, Prod.mk.injEq] at he
    obtain ⟨rfl, _, rfl⟩ := he
    refine ⟨hadv, hon.shared, hon.pager, ?_⟩
    intro pending' hp
    obtain rfl := Except.ok.inj hp
    have hroot : t'.getCurrentRoot = if t'.modifiedRoot ≠ 0 then t'.modifiedRoot else root := by
      unfold getCurrentRoot
      rw [hon.snapshot]
      rfl
    refine ⟨t'.getCurrentRoot, rfl, ?_, ?_, ?_⟩
    · intro n page hn
      refine ⟨?_, ho'.coherent n page hn⟩
      by_cases hmem : n ∈ t'.newPages
      · exact ho'.created n hmem
      · have hn' : t'.txWrites.get? n = pending.writes.get? n := hon.writes n hmem
        rw [hn'] at hn
        exact hadv.alloc n (hheld n page hn).1
    · by_cases hm : t'.modifiedRoot = 0
      · exact Or.inl (by rw [hroot, if_neg (by simp [hm])])
      · refine Or.inr ?_
        rw [hroot, if_pos hm]
        refine ⟨hm, ?_⟩
        rcases hon.fresh _ (ho'.root.resolve_left hm) with hmem | hfresh
        · exact absurd hmem (hnew _)
        · exact hfresh
    · intro hdocs hall
      have hmoved := (moves_reapply ho hnew (fun _ => rfl) rfl hall _ hdocs _ _ _ hrun).2.2 u rfl
      rw [hroot, if_pos hmoved]
      rcases hon.fresh _ (ho'.root.resolve_left hmoved) with hmem | hfresh
      · exact absurd hmem (hnew _)
      · intro heq
        rcases hall.root with hzero | halloc
        · exact hmoved (heq.trans hzero)
        · exact hfresh (heq ▸ halloc)

theorem rebase_spec (hwf : db.pager.WF) (hheld : Held db pending.writes)
    {r : Except Error PendingWrite}
    (he : Proc.exec (rebase pending collection root) l db = (r, l', db')) :
    Advances db db' ∧ OnlyPages db db' ∧ db.pager.Frame db'.pager ∧
      ∀ pending', r = .ok pending' → ∃ newRoot, Rebased db pending collection root db' pending' newRoot := by
  unfold rebase at he
  rcases hrun : Proc.exec (rebaseSingleCollection pending collection root) l db with ⟨r₁, l₁, db₁⟩
  obtain ⟨hadv, hsame, hframe, hok⟩ := rebaseSingleCollection_spec hwf hheld hrun
  cases r₁ with
  | error e =>
    rw [Proc.exec_bind_error hrun] at he
    obtain ⟨rfl, _, rfl⟩ : .error e = r ∧ l₁ = l' ∧ db₁ = db' := by simpa using he
    refine ⟨hadv, ?_, hframe, by simp⟩
    rw [OnlyPages, hsame]
  | ok rebased =>
    rw [Proc.exec_bind_ok hrun, Proc.exec_bind] at he
    -- logging the new pages touches the log only
    have hlog : Proc.Acts WalStep (Proc.forEach (fun entry : PageNum × Page =>
        if entry.1 ∈ pending.writes then pure ()
        else writeFrame pending.mvccTxId entry.1 entry.2) rebased.writes.toList : DbM ℓ Unit) := by
      refine Proc.acts_forEach _ fun entry _ => ?_
      split
      · exact Proc.acts_pure _
      · exact acts_writeFrame _ _ _
    obtain ⟨wal, hwal⟩ := wal_only hlog l₁ db₁
    have hwal' : Advances db { db₁ with wal } := ⟨hadv.wf, hadv.alloc, hadv.view⟩
    have hpages : OnlyPages db { db₁ with wal } := by
      rw [OnlyPages, hsame]
    rcases hrun₂ : Proc.exec (Proc.forEach (fun entry : PageNum × Page =>
        if entry.1 ∈ pending.writes then pure ()
        else writeFrame pending.mvccTxId entry.1 entry.2) rebased.writes.toList : DbM ℓ Unit) l₁ db₁
      with ⟨r₂, l₂, db₂⟩
    rw [hrun₂] at he hwal
    obtain rfl : db₂ = { db₁ with wal } := hwal
    cases r₂ with
    | error e =>
      obtain ⟨rfl, _, rfl⟩ : .error e = r ∧ l₂ = l' ∧ { db₁ with wal } = db' := by simpa using he
      exact ⟨hwal', hpages, hframe, by simp⟩
    | ok u =>
      simp only [Proc.exec_pure, Prod.mk.injEq] at he
      obtain ⟨rfl, _, rfl⟩ := he
      refine ⟨hwal', hpages, hframe, ?_⟩
      intro pending' hp
      obtain rfl := Except.ok.inj hp
      obtain ⟨newRoot, hreb⟩ := hok rebased rfl
      exact ⟨newRoot, hreb.eq, hreb.held, hreb.fresh, hreb.moved⟩

-- The other roots of the transaction play no part in a rebase.
theorem rebase_updatedRoots (pending : PendingWrite) (collection : String) (root : PageNum)
    (u : HashMap String PageNum) :
    ∃ f : PendingWrite → PendingWrite, ∀ l : ℓ, ∀ db,
      Proc.exec (rebase { pending with updatedRoots := u } collection root) l db =
        ((Proc.exec (rebase pending collection root) l db).1.map f,
          (Proc.exec (rebase pending collection root) l db).2) := by
  refine ⟨fun q => { q with
    updatedRoots := u.insert collection ((q.updatedRoots.get? collection).getD root) }, fun l db => ?_⟩
  have hdocs : docsOf { pending with updatedRoots := u } collection = docsOf pending collection := rfl
  unfold rebase rebaseSingleCollection
  simp only [Proc.exec_bind, hdocs]
  rcases Proc.exec (Proc.within (TxBTree.new root pending.writes)
    (reapply (docsOf pending collection)) : DbM ℓ (Unit × TxBTree)) l db with ⟨r, l₁, db₁⟩
  cases r with
  | error e => rfl
  | ok a =>
    simp only [Proc.exec_pure]
    rcases Proc.exec (Proc.forEach (fun entry : PageNum × Page =>
      if entry.1 ∈ pending.writes then pure () else writeFrame pending.mvccTxId entry.1 entry.2)
      a.2.txWrites.toList : DbM ℓ Unit) l₁ db₁ with ⟨r₂, l₂, db₂⟩
    cases r₂ with
    | error e => rfl
    | ok _ =>
      simp only [Except.map, HashMap.get?_insert_self, Option.getD_some]

end Rebase

end Commit

end JasonDb
