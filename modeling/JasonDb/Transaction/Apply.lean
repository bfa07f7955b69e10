import JasonDb.Transaction.Rebase

namespace JasonDb

open Lib TxBTree

variable {ℓ : Type} {db db' : Database}

namespace Commit

section Apply

variable {pending : PendingWrite} {collection : String} {l l' : ℓ}

theorem root_setRoot_self (m : Metadata) (root : PageNum) :
    (setRoot collection root m).root collection = root := by
  simp [setRoot]

theorem root_setRoot_of_ne (m : Metadata) (root : PageNum) {c : String} (h : c ≠ collection) :
    (setRoot collection root m).root c = m.root c :=
  Metadata.root_modifyCollection_of_ne m _ h

-- One collection of one transaction: what the metadata can be afterwards.
inductive Installs (db : Database) (pending : PendingWrite) (collection : String) :
    Metadata → Prop
  | kept : Installs db pending collection db.metadata
  | moved {root : PageNum} (new : root ≠ db.metadata.root collection)
      (origin : pending.updatedRoots.get? collection = some root ∨
        (root ≠ 0 ∧ ¬ db.pager.Allocated root)) :
      Installs db pending collection (setRoot collection root db.metadata)

-- The same transaction with pages and roots added.
def Grown (pending pending' : PendingWrite) : Prop :=
  pending' = { pending with writes := pending'.writes, updatedRoots := pending'.updatedRoots }

structure Applied (db : Database) (pending : PendingWrite) (collection : String)
    (r : Except Error PendingWrite) (db' : Database) : Prop where
  advances : Advances db db'
  shared : db' = { db with pager := db'.pager, wal := db'.wal, metadata := db'.metadata }
  frame : db.pager.Frame db'.pager
  installs : Installs db pending collection db'.metadata
  error : ∀ e, r = .error e → db'.metadata = db.metadata
  held : ∀ pending', r = .ok pending' → Held db' pending'.writes
  grown : ∀ pending', r = .ok pending' → Grown pending pending'
  roots : ∀ pending', r = .ok pending' → ∀ c, c ≠ collection →
    pending'.updatedRoots.get? c = pending.updatedRoots.get? c

theorem rebaseIfMoved_spec (hwf : db.pager.WF) (hheld : Held db pending.writes)
    {r : Except Error PendingWrite}
    (he : Proc.exec (rebaseIfMoved pending collection (db.metadata.root collection)) l db =
      (r, l', db')) :
    Advances db db' ∧ OnlyPages db db' ∧ db.pager.Frame db'.pager ∧
      ∀ pending', r = .ok pending' → Held db' pending'.writes ∧ Grown pending pending' ∧
        (∀ c, c ≠ collection → pending'.updatedRoots.get? c = pending.updatedRoots.get? c) ∧
        ∀ root, pending'.updatedRoots.get? collection = some root →
          root = db.metadata.root collection ∨ pending.updatedRoots.get? collection = some root ∨
            (root ≠ 0 ∧ ¬ db.pager.Allocated root) := by
  unfold rebaseIfMoved at he
  split at he
  · obtain ⟨hadv, hpages, hframe, hok⟩ := rebase_spec hwf hheld he
    refine ⟨hadv, hpages, hframe, ?_⟩
    intro pending' hp
    obtain ⟨newRoot, hreb⟩ := hok pending' hp
    refine ⟨hreb.held, ?_, ?_, ?_⟩
    · rw [Grown, hreb.eq]
    · intro c hc
      rw [hreb.eq]
      exact HashMap.get?_insert_of_ne _ _ hc
    · intro root hroot
      rw [hreb.eq] at hroot
      obtain rfl := Option.some.inj ((HashMap.get?_insert_self _ _ _).symm.trans hroot)
      exact hreb.fresh.imp id Or.inr
  · simp only [Proc.exec_pure, Prod.mk.injEq] at he
    obtain ⟨rfl, _, rfl⟩ := he
    refine ⟨Advances.refl hwf, rfl, Pager.Frame.refl _, ?_⟩
    intro pending' hp
    obtain rfl := Except.ok.inj hp
    exact ⟨hheld, rfl, fun _ _ => rfl, fun _ h => Or.inr (Or.inl h)⟩

theorem applyCollection_spec (hwf : db.pager.WF) (hheld : Held db pending.writes)
    {r : Except Error PendingWrite}
    (he : Proc.exec (applyCollection pending collection) l db = (r, l', db')) :
    Applied db pending collection r db' := by
  have hmeta : Proc.exec (getMetadata : DbM ℓ Metadata) l db = (.ok db.metadata, l, db) := rfl
  unfold applyCollection at he
  rw [Proc.exec_bind_ok hmeta] at he
  rcases hrun : Proc.exec (rebaseIfMoved pending collection (db.metadata.root collection)) l db
    with ⟨r₁, l₁, db₁⟩
  obtain ⟨hadv, hpages, hframe, hok⟩ := rebaseIfMoved_spec hwf hheld hrun
  have hmd : db₁.metadata = db.metadata := by rw [hpages]
  cases r₁ with
  | error e =>
    simp only [Proc.exec_bind_error hrun, Prod.mk.injEq] at he
    obtain ⟨rfl, _, rfl⟩ := he
    refine ⟨hadv, ?_, hframe, ?_, fun _ _ => hmd, by simp, by simp, by simp⟩
    · rw [hpages]
    · rw [hmd]
      exact .kept
  | ok pending₁ =>
    obtain ⟨hheld₁, hgrown, hothers, horigin⟩ := hok pending₁ rfl
    simp only [Proc.exec_bind_ok hrun] at he
    have hsame {P : PendingWrite → Prop} (h : P pending₁) (pending' : PendingWrite)
        (hp : (.ok pending₁ : Except Error PendingWrite) = .ok pending') : P pending' :=
      Except.ok.inj hp ▸ h
    by_cases hnew : (pending₁.updatedRoots.get? collection).getD (db.metadata.root collection) ≠
        db.metadata.root collection
    · -- the root that is installed is one the transaction has
      obtain ⟨root, hroot⟩ : ∃ root, pending₁.updatedRoots.get? collection = some root := by
        cases hg : pending₁.updatedRoots.get? collection with
        | none => simp [hg] at hnew
        | some root => exact ⟨root, rfl⟩
      rw [hroot, Option.getD_some] at hnew
      have hinst : Proc.exec (installRoot pending₁ collection (db.metadata.root collection)) l₁ db₁ =
          (.ok (), l₁, { db₁ with metadata := setRoot collection root db₁.metadata }) := by
        simp only [installRoot, hroot, Option.getD_some]
        rw [if_pos hnew]
        rfl
      simp only [Proc.exec_bind_ok hinst, Proc.exec_pure, Prod.mk.injEq] at he
      obtain ⟨rfl, _, rfl⟩ := he
      refine ⟨⟨hadv.wf, hadv.alloc, hadv.view⟩, ?_, hframe, ?_, by simp, hsame hheld₁, hsame hgrown, hsame hothers⟩
      · rw [hpages]
      · simp only [hmd]
        exact .moved hnew ((horigin root hroot).resolve_left hnew)
    · have hinst : Proc.exec (installRoot pending₁ collection (db.metadata.root collection)) l₁ db₁ =
          (.ok (), l₁, db₁) := by
        simp only [installRoot]
        rw [if_neg hnew]
        rfl
      simp only [Proc.exec_bind_ok hinst, Proc.exec_pure, Prod.mk.injEq] at he
      obtain ⟨rfl, _, rfl⟩ := he
      refine ⟨hadv, ?_, hframe, ?_, by simp, hsame hheld₁, hsame hgrown, hsame hothers⟩
      · rw [hpages]
      · rw [hmd]
        exact .kept


-- What the loop over the collections, and over the batch, keeps up.
structure Progress (db db' : Database) : Prop where
  advances : Advances db db'
  shared : db' = { db with pager := db'.pager, wal := db'.wal, metadata := db'.metadata }
  frame : db.pager.Frame db'.pager

theorem Progress.refl (h : db.pager.WF) : Progress db db :=
  ⟨Advances.refl h, rfl, Pager.Frame.refl _⟩

theorem Progress.trans {db'' : Database} (h : Progress db db') (h' : Progress db' db'') :
    Progress db db'' :=
  ⟨h.advances.trans h'.advances, by rw [h'.shared, h.shared], h.frame.trans h'.frame⟩

theorem Applied.progress {pending : PendingWrite} {c : String} {r : Except Error PendingWrite}
    (h : Applied db pending c r db') : Progress db db' := ⟨h.advances, h.shared, h.frame⟩

theorem applyCollections_spec {pending : PendingWrite} {cs : List String} (hwf : db.pager.WF)
    (hheld : Held db pending.writes) {r : Except Error PendingWrite}
    (he : Proc.exec (applyCollections pending cs) l db = (r, l', db')) :
    Progress db db' ∧ ∀ pending', r = .ok pending' →
      Held db' pending'.writes ∧ Grown pending pending' := by
  induction cs generalizing pending l db with
  | nil =>
    simp only [applyCollections, Proc.exec_pure, Prod.mk.injEq] at he
    obtain ⟨rfl, _, rfl⟩ := he
    refine ⟨Progress.refl hwf, fun pending' hp => ?_⟩
    obtain rfl := Except.ok.inj hp
    exact ⟨hheld, rfl⟩
  | cons c rest ih =>
    unfold applyCollections at he
    rcases hrun : Proc.exec (applyCollection pending c) l db with ⟨r₁, l₁, db₁⟩
    have happ := applyCollection_spec hwf hheld hrun
    cases r₁ with
    | error e =>
      simp only [Proc.exec_bind_error hrun, Prod.mk.injEq] at he
      obtain ⟨rfl, _, rfl⟩ := he
      exact ⟨happ.progress, by simp⟩
    | ok pending₁ =>
      rw [Proc.exec_bind_ok hrun] at he
      obtain ⟨hprog, hok⟩ := ih happ.advances.wf (happ.held _ rfl) he
      refine ⟨happ.progress.trans hprog, fun pending' hp => ?_⟩
      obtain ⟨hheld', hgrown⟩ := hok pending' hp
      refine ⟨hheld', ?_⟩
      rw [Grown, hgrown, happ.grown _ rfl]

theorem applyBatch_spec {batch : List PendingWrite} (hwf : db.pager.WF)
    (hheld : ∀ pending ∈ batch, Held db pending.writes) {r : Except Error (List PendingWrite)}
    (he : Proc.exec (applyBatch batch) l db = (r, l', db')) :
    Progress db db' ∧ ∀ batch', r = .ok batch' → List.Forall₂ (fun pending pending' =>
      Held db' pending'.writes ∧ Grown pending pending') batch batch' := by
  induction batch generalizing l l' db db' r with
  | nil =>
    simp only [applyBatch, Proc.exec_pure, Prod.mk.injEq] at he
    obtain ⟨rfl, _, rfl⟩ := he
    refine ⟨Progress.refl hwf, fun batch' hp => ?_⟩
    obtain rfl := Except.ok.inj hp
    exact .nil
  | cons pending rest ih =>
    unfold applyBatch at he
    rcases hrun : Proc.exec (applyCollections pending pending.modifiedCollections.keys) l db
      with ⟨r₁, l₁, db₁⟩
    obtain ⟨hprog, hok⟩ := applyCollections_spec hwf (hheld pending (by simp)) hrun
    cases r₁ with
    | error e =>
      simp only [Proc.exec_bind_error hrun, Prod.mk.injEq] at he
      obtain ⟨rfl, _, rfl⟩ := he
      exact ⟨hprog, by simp⟩
    | ok pending₁ =>
      rw [Proc.exec_bind_ok hrun] at he
      rcases hrun₂ : Proc.exec (applyBatch rest) l₁ db₁ with ⟨r₂, l₂, db₂⟩
      obtain ⟨hprog₂, hok₂⟩ := ih hprog.advances.wf
        (fun p hp => (hheld p (by simp [hp])).advances hprog.advances) hrun₂
      cases r₂ with
      | error e =>
        simp only [Proc.exec_bind_error hrun₂, Prod.mk.injEq] at he
        obtain ⟨rfl, _, rfl⟩ := he
        exact ⟨hprog.trans hprog₂, by simp⟩
      | ok rest₂ =>
        simp only [Proc.exec_bind_ok hrun₂, Proc.exec_pure, Prod.mk.injEq] at he
        obtain ⟨rfl, _, rfl⟩ := he
        refine ⟨hprog.trans hprog₂, fun batch' hp => ?_⟩
        obtain rfl := Except.ok.inj hp
        obtain ⟨hheld₁, hgrown₁⟩ := hok pending₁ rfl
        exact .cons ⟨hheld₁.advances hprog₂.advances, hgrown₁⟩ (hok₂ rest₂ rfl)

end Apply

section WriteMetadata

-- The steps that write the metadata to page `q` and then the header.
inductive MetaStep (q : PageNum) : Database → Database → Prop
  | read (db : Database) : MetaStep q db db
  | log (db : Database) (wal : WAL) : MetaStep q db { db with wal }
  | page (db : Database) (page : Page) :
      MetaStep q db { db with pager := (db.pager.writePageTransfer q page).2 }
  | mark (db : Database) (page : PageNum) (txId : TransactionID) :
      MetaStep q db { db with pager := { db.pager with metadataPage := page, nextTxId := txId } }
  | header (db : Database) : MetaStep q db { db with pager := db.pager.writeHeaderNoSync.2 }

theorem acts_writeMetadataTo (txId : TransactionID) (metaData : Page) (q : PageNum) :
    Proc.Acts (MetaStep q) (writeMetadataTo txId metaData q : DbM ℓ Unit) := by
  refine (Proc.acts_atomicE fun db => .log db _).bind fun _ => ?_
  refine (Proc.acts_atomicE fun db => .page db _).bind fun _ => ?_
  refine (Proc.acts_atomic fun db => .read db).bind fun header => ?_
  refine (Proc.acts_atomicE fun db => .log db _).bind fun _ => ?_
  refine (Proc.acts_atomic fun db => .mark db q db.pager.nextTxId).bind fun _ => ?_
  refine (Proc.acts_atomic fun db => .mark db db.pager.metadataPage (txId + 1)).bind fun _ => ?_
  exact Proc.acts_atomicE fun db => .header db

-- Every other page stays as it is.
structure MetaKept (q : PageNum) (db db' : Database) : Prop where
  shared : OnlyPages db db'
  wf : db.pager.WF → db'.pager.WF
  alloc : ∀ n, db'.pager.Allocated n ↔ db.pager.Allocated n
  view : ∀ n, n ≠ 0 → n ≠ q → db'.pager.view n = db.pager.view n

theorem MetaStep.kept {q : PageNum} (h : MetaStep q db db') : MetaKept q db db' := by
  cases h with
  | read => exact ⟨rfl, id, fun _ => Iff.rfl, fun _ _ _ => rfl⟩
  | log wal => exact ⟨rfl, id, fun _ => Iff.rfl, fun _ _ _ => rfl⟩
  | mark page txId =>
    exact ⟨rfl, fun hwf => ⟨hwf.writable, hwf.nonempty, hwf.nodup, hwf.range⟩, fun _ => Iff.rfl,
      fun _ _ _ => rfl⟩
  | page page =>
    unfold Pager.writePageTransfer
    split
    · exact ⟨rfl, id, fun _ => Iff.rfl, fun _ _ _ => rfl⟩
    · split
      · exact ⟨rfl, id, fun _ => Iff.rfl, fun _ _ _ => rfl⟩
      · refine ⟨rfl, fun hwf => ⟨hwf.writable, hwf.nonempty, hwf.nodup, hwf.range⟩,
          fun _ => Iff.rfl, ?_⟩
        intro n _ hn
        simp only [Pager.view_write, Function.update_of_ne hn]
  | header =>
    unfold Pager.writeHeaderNoSync
    split
    · exact ⟨rfl, id, fun _ => Iff.rfl, fun _ _ _ => rfl⟩
    · refine ⟨rfl, fun hwf => ⟨hwf.writable, hwf.nonempty, hwf.nodup, hwf.range⟩,
        fun _ => Iff.rfl, ?_⟩
      intro n hn _
      exact Pager.view_header db.pager _ hn

theorem MetaKept.refl (q : PageNum) (db : Database) : MetaKept q db db :=
  ⟨rfl, id, fun _ => Iff.rfl, fun _ _ _ => rfl⟩

theorem MetaKept.trans {q : PageNum} {db'' : Database} (h : MetaKept q db db')
    (h' : MetaKept q db' db'') : MetaKept q db db'' :=
  ⟨h.shared.trans h'.shared, fun hwf => h'.wf (h.wf hwf),
    fun n => (h'.alloc n).trans (h.alloc n),
    fun n hn hq => (h'.view n hn hq).trans (h.view n hn hq)⟩

theorem writeMetadataTo_kept (db : Database) (txId : TransactionID) (metaData : Page) (q : PageNum)
    (l : ℓ) :
    MetaKept q db (Proc.exec (writeMetadataTo txId metaData q) l db).2.2 := by
  have hrun := (acts_writeMetadataTo txId metaData q).exec l db
  generalize (Proc.exec (writeMetadataTo txId metaData q) l db).2.2 = db' at hrun
  induction hrun with
  | refl => exact MetaKept.refl q db
  | tail _ hstep ih => exact ih.trans hstep.kept

-- The page of the metadata: the one there is, or one that was not in use.
theorem writeMetadata_kept (hwf : db.pager.WF) (txId : TransactionID) {l l' : ℓ}
    {r : Except Error Unit} (he : Proc.exec (writeMetadata txId) l db = (r, l', db')) :
    OnlyPages db db' ∧ db'.pager.WF ∧ ∀ n, db.pager.Allocated n →
      db'.pager.Allocated n ∧
      (n ≠ db.pager.metadataPage → db'.pager.view n = db.pager.view n) := by
  have hmeta : Proc.exec (getMetadata : DbM ℓ Metadata) l db = (.ok db.metadata, l, db) := rfl
  have hpage : Proc.exec (metadataPage : DbM ℓ PageNum) l db =
      (.ok db.pager.metadataPage, l, db) := rfl
  unfold writeMetadata at he
  rw [Proc.exec_bind_ok hmeta, Proc.exec_bind_ok hpage] at he
  by_cases hzero : db.pager.metadataPage = 0
  · simp only [hzero, ↓reduceIte] at he
    obtain ⟨q, p', halloc, ha⟩ := exec_allocPageMinimum (l := l) hwf 0
    rw [allocPage, Proc.exec_bind_ok halloc] at he
    have hkept := writeMetadataTo_kept { db with pager := p' } txId (.metadata db.metadata) q l
    rw [he] at hkept
    refine ⟨?_, hkept.wf ha.wf, fun n hn => ⟨(hkept.alloc n).mpr (ha.keeps n hn), ?_⟩⟩
    · exact (show OnlyPages db { db with pager := p' } from rfl).trans hkept.shared
    · intro _
      rw [hkept.view n hn.1 fun hq => ha.unused (hq ▸ hn)]
      exact congrFun ha.view n
  · simp only [hzero, ↓reduceIte] at he
    rw [Proc.exec_bind_ok (Proc.exec_pure _ l db)] at he
    have hkept := writeMetadataTo_kept db txId (.metadata db.metadata) db.pager.metadataPage l
    rw [he] at hkept
    exact ⟨hkept.shared, hkept.wf hwf, fun n hn => ⟨(hkept.alloc n).mpr hn, hkept.view n hn.1⟩⟩

end WriteMetadata

end Commit

end JasonDb
