import JasonDb.Database.Opened
import JasonDb.Pager.Counter
import JasonDb.Transaction.Grants

namespace JasonDb

open Lib

variable {ℓ : Type} {n k : TransactionID} {db : Database}

-- Header frames count at least the header page.
def HeaderFrames (frames : List WALFrame) : Prop :=
  ∀ frame ∈ frames, ∀ header, frame.pageData = .header header → 0 < header.numPages

-- The next id to be handed out is `k`, the counter that survives a restart is `n`.
structure Database.Counts (n k : TransactionID) (db : Database) : Prop where
  pager : db.pager.Counts n
  manager : db.txManager.nextTxId = k
  frames : HeaderFrames (db.wal.frames ++ db.wal.buffer)

-- What a transaction writes: its documents carry its id and are not deleted.
def Stamped (txId : TransactionID) : Page → Prop
  | .doc d => d.xmin = txId ∧ d.xmax = 0
  | .header _ => False
  | _ => True

section Log

theorem HeaderFrames.writeFrame {wal : WAL} (h : HeaderFrames (wal.frames ++ wal.buffer))
    {txId : TransactionID} {p : PageNum} {page : Page}
    (hpage : ∀ header, page = .header header → 0 < header.numPages) :
    HeaderFrames ((wal.writeFrame txId p page).2.frames ++ (wal.writeFrame txId p page).2.buffer) := by
  have hmore : HeaderFrames (wal.frames ++ wal.buffer ++ [⟨txId, p, page⟩]) := by
    intro frame hmem
    rcases List.mem_append.mp hmem with hmem | hmem
    · exact h frame hmem
    · obtain rfl := List.mem_singleton.mp hmem
      exact hpage
  unfold WAL.writeFrame
  split
  · exact h
  · split
    · exact h
    · unfold WAL.tick WAL.append
      split
      · simpa using hmore
      · exact hmore

end Log

section Commit

theorem grants_counts (W : Page → Prop) : Grants (Database.Counts n k) (· ≠ 0) W := by
  refine ⟨?_, ?_⟩
  · intro db min h
    obtain ⟨hpager, hq⟩ := Pager.counts_allocPageMinimum h.pager min
    exact ⟨⟨hpager, h.manager, h.frames⟩, hq⟩
  · intro db p page h hp _
    exact ⟨h.pager.writePageTransfer hp page, h.manager, h.frames⟩

theorem logs_counts : Commit.Logs (Database.Counts n k) (· ≠ 0) Stamped := by
  intro db txId p page h _ hpage
  refine ⟨h.pager, h.manager, h.frames.writeFrame ?_⟩
  rintro header rfl
  exact absurd hpage id

namespace Commit

variable {l l' : ℓ} {db' : Database}

-- The header frame and the new counter in memory, before the header is in the file.
theorem counts_writeMetadataTo {txId : TransactionID} {m : Metadata} {metaPage : PageNum}
    (hp : metaPage ≠ 0) (h : db.Counts n k) {r : Except Error Unit}
    (he : Proc.exec (writeMetadataTo txId (.metadata m) metaPage) l db = (r, l', db')) :
    (db'.Counts n k ∨ db'.Counts (txId + 1) k) ∧ (r = .ok () → db'.Counts (txId + 1) k) := by
  have hfirst : ∀ {e : Error}, db'.Counts n k → r = .error e →
      (db'.Counts n k ∨ db'.Counts (txId + 1) k) ∧ (r = .ok () → db'.Counts (txId + 1) k) := by
    rintro e hc rfl
    exact ⟨Or.inl hc, by simp⟩
  have hframe : Proc.Safe (Database.Counts n k) (fun _ : ℓ => True) (fun _ => True)
      (writeFrame txId metaPage (.metadata m)) := safe_writeFrame logs_counts hp trivial
  have hwrite : Proc.Safe (Database.Counts n k) (fun _ : ℓ => True) (fun _ => True)
      (writePageTransfer metaPage (.metadata m)) :=
    safe_writePageTransfer (grants_counts fun _ => True) hp trivial
  unfold writeMetadataTo at he
  rcases Proc.exec_bind_cases he with ⟨e, hrun, hr⟩ | ⟨_, l₁, db₁, hrun, he⟩
  · exact hfirst (hframe.exec hrun trivial h).1 hr
  have h₁ := (hframe.exec hrun trivial h).1
  rcases Proc.exec_bind_cases he with ⟨e, hrun, hr⟩ | ⟨_, l₂, db₂, hrun, he⟩
  · exact hfirst (hwrite.exec hrun trivial h₁).1 hr
  have h₂ := (hwrite.exec hrun trivial h₁).1
  have hwritable : db₂.pager.readOnly = false := by
    obtain ⟨hf, _⟩ := Proc.exec_atomicE_inv hrun
    obtain ⟨hok, rfl⟩ := Prod.mk.inj hf
    exact Pager.writable_writePageTransfer hok
  rw [getHeaderData, Proc.exec_bind_ok (Proc.exec_atomic _ _ _)] at he
  rcases Proc.exec_bind_cases he with ⟨e, hrun, hr⟩ | ⟨_, l₃, db₃, hrun, he⟩
  · obtain ⟨hf, _⟩ := Proc.exec_atomicE_inv hrun
    obtain rfl : _ = db' := congrArg Prod.snd hf
    refine hfirst ⟨h₂.pager, h₂.manager, h₂.frames.writeFrame ?_⟩ hr
    rintro header ⟨⟩
    exact h₂.pager.nonempty
  -- the header frame is in the log; from here on nothing fails
  obtain ⟨hf, _⟩ := Proc.exec_atomicE_inv hrun
  have h₃ : db₃.Counts n k := by
    obtain rfl : _ = db₃ := congrArg Prod.snd hf
    refine ⟨h₂.pager, h₂.manager, h₂.frames.writeFrame ?_⟩
    rintro header ⟨⟩
    exact h₂.pager.nonempty
  have hsame : db₃.pager = db₂.pager := (congrArg (fun r => r.2.pager) hf).symm
  rw [setMetadataPage, Proc.exec_bind_ok (Proc.exec_atomic _ _ _), setNextTransactionId,
    Proc.exec_bind_ok (Proc.exec_atomic _ _ _), writeHeaderNoSync, Proc.exec_atomicE] at he
  simp only [Pager.writeHeaderNoSync, hsame, hwritable, Bool.false_eq_true, if_false,
    Prod.mk.injEq] at he
  have hdone : db'.Counts (txId + 1) k := by
    rw [← he.2.2]
    exact ⟨⟨headerSays_write _ _, rfl, h₂.pager.clean, h₂.pager.nonempty, h₂.pager.free⟩,
      h₃.manager, h₃.frames⟩
  exact ⟨Or.inr hdone, fun _ => hdone⟩

theorem counts_writeMetadata {txId : TransactionID} (h : db.Counts n k) {r : Except Error Unit}
    (he : Proc.exec (writeMetadata txId) l db = (r, l', db')) :
    (db'.Counts n k ∨ db'.Counts (txId + 1) k) ∧ (r = .ok () → db'.Counts (txId + 1) k) := by
  rw [writeMetadata, getMetadata, Proc.exec_bind_ok (Proc.exec_atomic _ _ _), metadataPage,
    Proc.exec_bind_ok (Proc.exec_atomic _ _ _)] at he
  simp only at he
  split at he
  · have halloc : Proc.Safe (Database.Counts n k) (fun _ : ℓ => True) (· ≠ 0) allocPage :=
      safe_allocPageMinimum (grants_counts fun _ => True) 0
    rcases Proc.exec_bind_cases he with ⟨e, hrun, rfl⟩ | ⟨metaPage, l₁, db₁, hrun, he⟩
    · exact ⟨Or.inl (halloc.exec hrun trivial h).1, by simp⟩
    · obtain ⟨h₁, _, hpage⟩ := halloc.exec hrun trivial h
      exact counts_writeMetadataTo (hpage metaPage rfl) h₁ he
  case isFalse hne => exact counts_writeMetadataTo hne h he

theorem maxTxId_eq (leader : TransactionID) {batch batch' : List PendingWrite}
    (h : List.Forall₂ (Carries (· ≠ 0) Stamped) batch batch') :
    maxTxId leader batch' = maxTxId leader batch := by
  have hids : batch'.map PendingWrite.mvccTxId = batch.map PendingWrite.mvccTxId := by
    induction h with
    | nil => rfl
    | cons hp _ ih => rw [List.map_cons, List.map_cons, hp.1, ih]
  rw [maxTxId, maxTxId, hids]

theorem counts_prepareBatch {leader : TransactionID} {batch : List PendingWrite}
    (hbatch : ∀ pending ∈ batch, PagesIn (· ≠ 0) (Stamped pending.mvccTxId) pending.writes)
    (h : db.Counts n k) {r : Except Error (List PendingWrite)}
    (he : Proc.exec (prepareBatch leader batch) l db = (r, l', db')) :
    (db'.Counts n k ∨ db'.Counts (maxTxId leader batch + 1) k) ∧
      ∀ batch', r = .ok batch' → db'.Counts (maxTxId leader batch + 1) k ∧
        List.Forall₂ (Carries (· ≠ 0) Stamped) batch batch' := by
  have hvalid : Proc.Safe (Database.Counts n k) (fun _ : ℓ => True) (fun _ => True)
      (Proc.forEach validatePendingWrite batch) :=
    Proc.safe_forEach _ fun _ _ => safe_validatePendingWrite _
  have hframes : Proc.Safe (Database.Counts n k) (fun _ : ℓ => True) (fun _ => True)
      (Proc.forEach writeFrames batch) :=
    Proc.safe_forEach _ fun pending hmem => safe_writeFrames logs_counts (hbatch pending hmem)
  have happly : Proc.Safe (Database.Counts n k) (fun _ : ℓ => True)
      (List.Forall₂ (Carries (· ≠ 0) Stamped) batch) (applyBatch batch) :=
    safe_applyBatch (fun _ => grants_counts _) (fun _ _ => trivial) logs_counts
      (fun _ _ _ hc => ⟨hc.pager, hc.manager, hc.frames⟩) hbatch
  unfold prepareBatch at he
  rcases Proc.exec_bind_cases he with ⟨e, hrun, rfl⟩ | ⟨_, l₁, db₁, hrun, he⟩
  · exact ⟨Or.inl (hvalid.exec hrun trivial h).1, by simp⟩
  have h₁ := (hvalid.exec hrun trivial h).1
  rcases Proc.exec_bind_cases he with ⟨e, hrun, rfl⟩ | ⟨_, l₂, db₂, hrun, he⟩
  · have hcheck := (Proc.safe_ofExcept (I := fun _ : ℓ => True) (Q := fun _ => True)
      fun _ _ => trivial).exec hrun trivial h₁
    exact ⟨Or.inl hcheck.1, by simp⟩
  have h₂ := ((Proc.safe_ofExcept (I := fun _ : ℓ => True) (Q := fun _ => True)
    fun _ _ => trivial).exec hrun trivial h₁).1
  rcases Proc.exec_bind_cases he with ⟨e, hrun, rfl⟩ | ⟨_, l₃, db₃, hrun, he⟩
  · exact ⟨Or.inl (hframes.exec hrun trivial h₂).1, by simp⟩
  have h₃ := (hframes.exec hrun trivial h₂).1
  rcases Proc.exec_bind_cases he with ⟨e, hrun, rfl⟩ | ⟨batch', l₄, db₄, hrun, he⟩
  · exact ⟨Or.inl (happly.exec hrun trivial h₃).1, by simp⟩
  obtain ⟨h₄, _, hcarry⟩ := happly.exec hrun trivial h₃
  have hmax := maxTxId_eq leader (hcarry batch' rfl)
  rw [hmax] at he
  rcases Proc.exec_bind_cases he with ⟨e, hrun, rfl⟩ | ⟨_, l₅, db₅, hrun, he⟩
  · exact ⟨(counts_writeMetadata h₄ hrun).1, by simp⟩
  · have h₅ := (counts_writeMetadata h₄ hrun).2 rfl
    rw [Proc.exec_pure, Prod.mk.injEq, Prod.mk.injEq] at he
    obtain ⟨rfl, _, rfl⟩ := he
    refine ⟨Or.inr h₅, ?_⟩
    rintro _ ⟨⟩
    exact ⟨h₅, hcarry batch' rfl⟩

theorem safe_finishBatch {batch : List PendingWrite}
    (hbatch : ∀ pending ∈ batch, PagesIn (· ≠ 0) (Stamped pending.mvccTxId) pending.writes) :
    Proc.Safe (Database.Counts n k) (fun _ : ℓ => True) (fun _ => True) (finishBatch batch) := by
  refine Proc.Safe.bind (Q := fun _ => True) (m := syncWal) ?_ fun _ _ => ?_
  · refine Proc.safe_atomicE fun db h => ⟨⟨h.pager, h.manager, ?_⟩, fun _ _ => trivial⟩
    change HeaderFrames (db.wal.sync.2.frames ++ db.wal.sync.2.buffer)
    unfold WAL.sync
    split
    · exact h.frames
    · simpa using h.frames
  refine Proc.Safe.bind (Q := fun _ => True) (Proc.safe_forEach _ fun pending hmem =>
    safe_writePages (fun _ => grants_counts _) (hbatch pending hmem)) fun _ _ => ?_
  refine Proc.Safe.bind (Q := fun _ => True) (m := flushNoSync) (Proc.safe_atomic fun db h =>
    ⟨⟨h.pager.flushNoSync, h.manager, h.frames⟩, trivial⟩) fun _ _ => ?_
  refine Proc.Safe.bind (Q := fun _ => True) (m := syncDataOnly) (Proc.safe_atomic fun db h =>
    ⟨⟨h.pager.syncDataOnly, h.manager, h.frames⟩, trivial⟩) fun _ _ => ?_
  refine Proc.Safe.bind (Q := fun _ => True) (Proc.safe_forEach _ fun pending _ =>
    Proc.safe_atomic fun db h => ⟨⟨h.pager, h.manager, h.frames⟩, trivial⟩) fun _ _ => ?_
  exact Proc.safe_forEach _ fun pending _ => Proc.safe_atomic fun db h =>
    ⟨⟨h.pager, h.manager, h.frames⟩, trivial⟩

-- The phases of a commit before it writes anything.
def validateBatch (batch : List PendingWrite) : DbM ℓ Unit := do
  Proc.forEach validatePendingWrite batch
  Proc.ofExcept (checkBatchConflicts batch)

-- A batch that does not pass its validation leaves the counter as it is.
theorem counts_refused (leader : TransactionID) {batch : List PendingWrite} (h : db.Counts n k)
    (hrefused : ¬ (Proc.exec (validateBatch batch) l db).1.isOk) :
    ∃ e l' db', Proc.exec (executeBatchCommit leader batch) l db = (.error e, l', db') ∧ db'.Counts n k := by
  rcases hrun : Proc.exec (validateBatch batch) l db with ⟨r, l', db'⟩
  cases r with
  | ok u =>
    rw [hrun] at hrefused
    exact absurd rfl hrefused
  | error e =>
    have hsafe : Proc.Safe (Database.Counts n k) (fun _ : ℓ => True) (fun _ => True) (validateBatch batch) :=
      Proc.Safe.bind (Q := fun _ => True) (Proc.safe_forEach _ fun _ _ => safe_validatePendingWrite _)
        fun _ _ => Proc.safe_ofExcept fun _ _ => trivial
    refine ⟨e, l', db', Proc.exec_bind_error ?_, (hsafe.exec hrun trivial h).1⟩
    unfold validateBatch at hrun
    rcases Proc.exec_bind_cases hrun with ⟨e', hvalid, herror⟩ | ⟨_, l₁, db₁, hvalid, hcheck⟩
    · obtain rfl := Except.error.inj herror
      exact Proc.exec_bind_error hvalid
    · exact (Proc.exec_bind_ok hvalid).trans (Proc.exec_bind_error hcheck)

-- A commit sets the counter from its own batch, or fails before it gets there.
theorem counts_executeBatchCommit {leader : TransactionID} {batch : List PendingWrite}
    (hbatch : ∀ pending ∈ batch, PagesIn (· ≠ 0) (Stamped pending.mvccTxId) pending.writes)
    (h : db.Counts n k) {r : Except Error Unit}
    (he : Proc.exec (executeBatchCommit leader batch) l db = (r, l', db')) :
    (db'.Counts n k ∨ db'.Counts (maxTxId leader batch + 1) k) ∧
      (r = .ok () → db'.Counts (maxTxId leader batch + 1) k) := by
  unfold executeBatchCommit at he
  rcases Proc.exec_bind_cases he with ⟨e, hrun, rfl⟩ | ⟨batch', l₁, db₁, hrun, he⟩
  · exact ⟨(counts_prepareBatch hbatch h hrun).1, by simp⟩
  · obtain ⟨h₁, hcarry⟩ := (counts_prepareBatch hbatch h hrun).2 batch' rfl
    have hdone := ((safe_finishBatch (pagesIn_of_carries hcarry)).exec he trivial h₁).1
    exact ⟨Or.inr hdone, fun _ => hdone⟩

end Commit

end Commit

section Open

variable {p p' : Pager}

theorem counts_openFile {file : Option (Disk Page)} {readOnly : Bool}
    (hfile : ∀ f, file = some f → HeaderSays n f) (hnew : file = none → n = 1)
    (h : Pager.openFile file readOnly = .ok p) : p.Counts n := by
  cases file with
  | none =>
    obtain rfl := hnew rfl
    simp only [Pager.openFile] at h
    split at h
    · cases h
    · obtain rfl := Except.ok.inj h
      exact Pager.counts_writeHeader (p := Pager.start .empty false) (HashMap.not_mem_empty 0)
        Nat.zero_lt_one List.not_mem_nil rfl
  | some f =>
    obtain ⟨hlen, header, hc, rfl⟩ := hfile f rfl
    have hpage : (Pager.start f readOnly).filePage 0 = some (.header header) := by
      simp [Pager.filePage, Pager.start, hlen, hc]
    simp only [Pager.openFile, Pager.readHeader, hpage, Header.deserialize] at h
    change (Except.bind (Pager.checkHeader _ _) _ = _) at h
    cases hcheck : Pager.checkHeader (Pager.start f readOnly).file.len
        { header with freeList := header.freeList.take FREE_LIST_CAPACITY } with
    | error e =>
      rw [hcheck] at h
      cases h
    | ok u =>
      rw [hcheck] at h
      obtain rfl := Except.ok.inj h
      have hchecked := checkHeader_ok hcheck
      refine ⟨⟨hlen, header, hc, rfl⟩, rfl, HashMap.not_mem_empty 0, hchecked.nonempty, ?_⟩
      exact fun hmem => Nat.lt_irrefl 0 (hchecked.range 0 hmem).1

theorem latestPages_ne_zero (frames : List WALFrame) :
    ∀ entry ∈ (latestPages frames).toList, entry.1 ≠ 0 := by
  have hfold : ∀ (frames : List WALFrame) (pages : HashMap PageNum Page), 0 ∉ pages →
      0 ∉ frames.foldl (fun pages frame =>
        if frame.pageNum ≠ 0 then pages.insert frame.pageNum frame.pageData else pages) pages := by
    intro frames
    induction frames with
    | nil => exact fun _ h => h
    | cons frame rest ih =>
      intro pages h
      refine ih _ ?_
      simp only
      split
      case isTrue hne =>
        intro hmem
        exact (HashMap.mem_insert.mp hmem).elim (fun heq => hne heq.symm) h
      case isFalse => exact h
  rintro ⟨q, page⟩ hmem rfl
  exact hfold frames ∅ (HashMap.not_mem_empty 0) (HashMap.mem_of_get? (HashMap.mem_toList.mp hmem))

theorem replayNumPages_pos (h : p.Counts n) {frames : List WALFrame} (hf : HeaderFrames frames) :
    0 < replayNumPages p frames := by
  unfold replayNumPages
  split
  case h_1 numPages hlatest =>
    obtain ⟨header, hlast, rfl⟩ := Option.map_eq_some_iff.mp hlatest
    have hmem : header ∈ headerFrames frames := List.mem_of_getLast? hlast
    obtain ⟨frame, hframe, heq⟩ := List.mem_filterMap.mp hmem
    split at heq
    case h_1 hpage =>
      obtain rfl := Option.some.inj heq
      exact hf frame hframe _ hpage
    case h_2 => cases heq
  case h_2 =>
    split
    · exact Nat.succ_pos _
    · exact h.nonempty

theorem counts_replay (h : p.Counts n) {frames : List WALFrame} (hf : HeaderFrames frames)
    (he : replay p frames = .ok p') : p'.Counts n := by
  have hnum : ({ p with numPages := replayNumPages p frames } : Pager).Counts n :=
    ⟨h.header, h.next, h.clean, replayNumPages_pos h hf, h.free⟩
  unfold replay at he
  simp only at he
  change (Except.bind (Pager.writePagesDirect _ _) _ = _) at he
  cases hdirect : Pager.writePagesDirect { p with numPages := replayNumPages p frames }
      (latestPages frames).toList with
  | error e =>
    rw [hdirect] at he
    cases he
  | ok p₁ =>
    rw [hdirect] at he
    have h₁ := (hnum.writePagesDirect (latestPages_ne_zero frames) hdirect).flush
    simp only [Except.bind] at he
    split at he
    · split at he
      case h_1 metadataPage _ _ _ _ hheader =>
        obtain rfl := Except.ok.inj he
        have hw := Pager.counts_writeHeader (p := { p₁.flush with metadataPage := metadataPage })
          h₁.clean h₁.nonempty h₁.free hheader
        have hnext : p₁.flush.nextTxId = n := h₁.next
        exact hnext ▸ hw
      case h_2 => cases he
    · obtain rfl := Except.ok.inj he
      exact h₁

theorem counts_createMetadata (h : p.Counts n) {m : Metadata} (he : createMetadata p = .ok (m, p')) :
    p'.Counts n := by
  unfold createMetadata at he
  have halloc := Pager.counts_allocPageMinimum h 0
  split at he
  · cases he
  case h_2 metaPage p₁ heq =>
    rw [heq] at halloc
    have hwrite := halloc.1.writePageTransfer (halloc.2 metaPage rfl) (.metadata .new)
    split at he
    · cases he
    case h_2 u p₂ hw =>
      rw [hw] at hwrite
      split at he
      · cases he
      case h_2 u' p₃ hh =>
        obtain ⟨rfl, rfl⟩ := Prod.mk.inj (Except.ok.inj he)
        have hdone := Pager.counts_writeHeader (p := { p₂ with metadataPage := metaPage })
          hwrite.clean hwrite.nonempty hwrite.free hh
        have hnext : p₂.nextTxId = n := hwrite.next
        exact (hnext ▸ hdone : p₃.Counts n).flush

theorem counts_loadMetadata (h : p.Counts n) {m : Metadata} (he : loadMetadata p = .ok (m, p')) :
    p'.Counts n := by
  unfold loadMetadata at he
  split at he
  · cases hread : p.readPage p.metadataPage with
    | error e =>
      rw [hread] at he
      cases he
    | ok page =>
      rw [hread] at he
      cases hd : Metadata.deserialize page with
      | error e =>
        simp only [bind, Except.bind, hd] at he
        cases he
      | ok m' =>
        simp only [bind, Except.bind, hd, Except.ok.injEq, Prod.mk.injEq] at he
        exact he.2 ▸ h
  · exact counts_createMetadata h he

theorem counts_load (h : p.Counts n) {wal : WAL} (hframes : HeaderFrames (wal.frames ++ wal.buffer))
    {readOnly : Bool} (he : Database.load p wal readOnly = .ok db) :
    db.Counts n n ∧ db.txManager.lastCommittedTxId = n - 1 := by
  unfold Database.load at he
  split at he
  · cases he
  case h_2 metadata pager hload =>
    obtain rfl := Except.ok.inj he
    refine ⟨⟨counts_loadMetadata h hload, h.next, hframes⟩, ?_⟩
    simp only [TransactionManager.initializeFromPager, h.next]
    split
    · rfl
    case isFalse hzero =>
      obtain rfl := Nat.eq_zero_of_not_pos hzero
      rfl

-- An opened database goes on with the counter of the file.
theorem counts_openWithOptions {file : Option (Disk Page)} {wal : WAL} {readOnly : Bool}
    (hfile : ∀ f, file = some f → HeaderSays n f) (hnew : file = none → n = 1)
    (hframes : HeaderFrames wal.frames) (hbuffer : wal.buffer = [])
    (h : Database.openWithOptions file wal readOnly = .ok db) :
    db.Counts n n ∧ db.txManager.lastCommittedTxId = n - 1 := by
  unfold Database.openWithOptions at h
  split at h
  · cases h
  case h_2 p₁ hopen =>
    have h₁ := counts_openFile hfile hnew hopen
    split at h
    · split at h
      · cases h
      case h_2 p₂ hreplay =>
        refine counts_load (counts_replay h₁ hframes hreplay) ?_ h
        simp [HeaderFrames, hbuffer]
    · refine counts_load h₁ ?_ h
      simpa [hbuffer] using hframes

theorem counts_reopen {db' : Database} (h : db.Counts n k) (he : db.reopen = .ok db') :
    db'.Counts n n ∧ db'.txManager.lastCommittedTxId = n - 1 := by
  refine counts_openWithOptions ?_ (by simp) h.frames rfl he
  rintro f ⟨⟩
  exact h.pager.flush.header

end Open

end JasonDb
