import JasonDb.DocumentStore.Layout
import JasonDb.Lib.Loop
import JasonDb.Pager.Holds

namespace JasonDb

open Lib

variable {ℓ α β : Type} {db db' db'' : Database}

namespace Pager

theorem view_flushNoSync {p : Pager} {q : PageNum} {page : Page} (h : p.view q = some page) :
    p.flushNoSync.view q = some page := by
  have hflush := view_flush h
  unfold flush at hflush
  unfold flushNoSync
  split at hflush
  · rwa [if_pos ‹_›]
  · rwa [if_neg ‹_›]

end Pager

-- What the commit does besides the change of the metadata and of the ids: to the page of the
-- metadata, to the log, and nothing that a reader of other pages sees.
structure Tidies (db db' : Database) : Prop where
  heap : Heap.Edits db.heap {db.pager.metadataPage} db'.heap {db.pager.metadataPage}
  wf : db'.pager.WF
  page : db'.pager.metadataPage = db.pager.metadataPage
  readOnly : db'.readOnly = db.readOnly
  fault : db'.wal.fault = db.wal.fault
  metadata : db'.metadata = db.metadata
  txManager : db'.txManager = db.txManager

namespace Tidies

theorem trans (h : Tidies db db') (h' : Tidies db' db'') : Tidies db db'' where
  heap := h.heap.trans (by rw [← h.page]; exact h'.heap)
  wf := h'.wf
  page := h'.page.trans h.page
  readOnly := h'.readOnly.trans h.readOnly
  fault := h'.fault.trans h.fault
  metadata := h'.metadata.trans h.metadata
  txManager := h'.txManager.trans h.txManager

-- Nothing that a reader sees.
theorem of_keeps (hm : db.pager.Allocated db.pager.metadataPage) (hwf : db'.pager.WF)
    (hk : Heap.Keeps Set.univ db.heap db'.heap) (hpage : db'.pager.metadataPage = db.pager.metadataPage)
    (hro : db'.readOnly = db.readOnly) (hfault : db'.wal.fault = db.wal.fault)
    (hmeta : db'.metadata = db.metadata) (htx : db'.txManager = db.txManager) : Tidies db db' := by
  refine ⟨⟨fun _ => Or.inl, ?_, hk.mono fun _ _ => trivial⟩, hwf, hpage, hro, hfault, hmeta, htx⟩
  rintro p rfl
  exact hk.used _ trivial hm

theorem refl (hwf : db.pager.WF) (hm : db.pager.Allocated db.pager.metadataPage) : Tidies db db :=
  of_keeps hm hwf (Heap.Keeps.refl _ _) rfl rfl rfl rfl rfl

theorem allocated (h : Tidies db db') : db'.pager.Allocated db'.pager.metadataPage := by
  rw [h.page]
  exact h.heap.live _ rfl

end Tidies

-- A call that succeeds and tidies.
def Tidying (m : DbM ℓ α) (a : α) (db : Database) : Prop :=
  ∀ l, ∃ db', Proc.exec m l db = (.ok a, l, db') ∧ Tidies db db'

section Steps

variable {m : PageNum}

theorem Tidying.bind {m : DbM ℓ α} {f : α → DbM ℓ β} {a : α} {b : β} (h : Tidying m a db)
    (hf : ∀ db', Tidies db db' → Tidying (f a) b db') : Tidying (m >>= f) b db := by
  intro l
  obtain ⟨db₁, he₁, ht₁⟩ := h l
  obtain ⟨db₂, he₂, ht₂⟩ := hf db₁ ht₁ l
  exact ⟨db₂, (Proc.exec_bind_ok he₁).trans he₂, ht₁.trans ht₂⟩

theorem tidying_writeFrame (hwf : db.pager.WF) (hm : db.pager.Allocated db.pager.metadataPage)
    (hquiet : ∀ n, db.wal.fault n = false) (txId : TransactionID) (p : PageNum) {page : Page}
    (hlen : page.byteLen = PAGE_SIZE) : Tidying (writeFrame txId p page : DbM ℓ Unit) () db := by
  intro l
  have hw : db.wal.writeFrame txId p page = (.ok (), (db.wal.append ⟨txId, p, page⟩).tick) := by
    unfold WAL.writeFrame
    rw [if_neg (by simpa using hlen), if_neg (by simp [WAL.failing, hquiet])]
  refine ⟨{ db with wal := (db.wal.append ⟨txId, p, page⟩).tick }, ?_,
    Tidies.of_keeps hm hwf (Heap.Keeps.refl _ _) rfl rfl ?_ rfl rfl⟩
  · simp only [JasonDb.writeFrame, Proc.exec_atomicE, hw]
  · change (db.wal.append ⟨txId, p, page⟩).fault = db.wal.fault
    unfold WAL.append
    split <;> rfl

theorem tidying_syncWal (hwf : db.pager.WF) (hm : db.pager.Allocated db.pager.metadataPage)
    (hquiet : ∀ n, db.wal.fault n = false) : Tidying (syncWal : DbM ℓ Unit) () db := by
  intro l
  refine ⟨{ db with wal := db.wal.sync.2 }, ?_,
    Tidies.of_keeps hm hwf (Heap.Keeps.refl _ _) rfl rfl ?_ rfl rfl⟩
  · simp [syncWal, Proc.exec_atomicE, WAL.sync, WAL.failing, hquiet]
  · simp [WAL.sync, WAL.failing, hquiet]

-- A page is written as it is.
theorem tidying_rewrite (hwf : db.pager.WF) (hm : db.pager.Allocated db.pager.metadataPage) {p : PageNum}
    {page : Page} (hp : db.heap.content p = some page) (hlen : page.byteLen = PAGE_SIZE) :
    Tidying (writePageTransfer p page : DbM ℓ Unit) () db := by
  intro l
  have hwrite := Pager.writePageTransfer_eq hwf.writable p hlen
  have hview := Pager.view_write db.pager p page (db.pager.dirty.insert p ())
  refine ⟨{ db with pager := { db.pager with
      cache := Function.update db.pager.cache p (some page)
      dirty := db.pager.dirty.insert p () } }, ?_, Tidies.of_keeps hm
      ⟨hwf.writable, hwf.nonempty, hwf.nodup, hwf.range⟩ ⟨fun _ _ hu => hu, ?_⟩ rfl rfl rfl rfl rfl⟩
  · simp only [writePageTransfer, Proc.exec_atomicE, hwrite]
  · intro q _ _ v hv
    refine (congrFun hview q).trans ?_
    by_cases hq : q = p
    · subst hq
      rw [Function.update_self]
      exact hp.symm.trans hv
    · rw [Function.update_of_ne hq]
      exact hv

theorem tidying_flushNoSync (hwf : db.pager.WF) (hm : db.pager.Allocated db.pager.metadataPage) :
    Tidying (flushNoSync : DbM ℓ Unit) () db := by
  intro l
  refine ⟨_, rfl, ?_⟩
  have hsame : db.pager.flushNoSync.numPages = db.pager.numPages ∧
      db.pager.flushNoSync.freeList = db.pager.freeList ∧
      db.pager.flushNoSync.metadataPage = db.pager.metadataPage ∧
      db.pager.flushNoSync.readOnly = db.pager.readOnly := by
    unfold Pager.flushNoSync
    split <;> exact ⟨rfl, rfl, rfl, rfl⟩
  obtain ⟨hpages, hfree, hpage, hro⟩ := hsame
  refine Tidies.of_keeps hm ?_ ⟨fun p _ hu => ?_, fun p _ _ v hv => Pager.view_flushNoSync hv⟩ hpage rfl
    rfl rfl rfl
  · exact ⟨hro.trans hwf.writable, by rw [hpages]; exact hwf.nonempty, by rw [hfree]; exact hwf.nodup,
      by rw [hfree, hpages]; exact hwf.range⟩
  · obtain ⟨h0, hlt, hnot⟩ : db.pager.Allocated p := hu
    exact ⟨h0, by rw [hpages]; exact hlt, by rw [hfree]; exact hnot⟩

theorem tidying_syncDataOnly (hwf : db.pager.WF) (hm : db.pager.Allocated db.pager.metadataPage) :
    Tidying (syncDataOnly : DbM ℓ Unit) () db := by
  intro l
  have hro : ¬ db.pager.readOnly = true := by simp [hwf.writable]
  refine ⟨_, rfl, Tidies.of_keeps hm ?_ ⟨?_, ?_⟩ ?_ rfl rfl rfl rfl⟩
  all_goals
    simp only [Pager.syncDataOnly, if_neg hro]
  · exact ⟨hwf.writable, hwf.nonempty, hwf.nodup, hwf.range⟩
  · exact fun _ _ hu => hu
  · exact fun _ _ _ _ hv => hv

theorem tidying_writeHeaderNoSync (hwf : db.pager.WF) (hm : db.pager.Allocated db.pager.metadataPage) :
    Tidying (writeHeaderNoSync : DbM ℓ Unit) () db := by
  intro l
  have hro : ¬ db.pager.readOnly = true := by simp [hwf.writable]
  refine ⟨{ db with pager := { db.pager with
      file := db.pager.file.write 0 (.header db.pager.headerData) } }, ?_, Tidies.of_keeps hm
      ⟨hwf.writable, hwf.nonempty, hwf.nodup, hwf.range⟩ ⟨fun _ _ hu => hu, ?_⟩ rfl rfl rfl rfl rfl⟩
  · simp only [writeHeaderNoSync, Proc.exec_atomicE, Pager.writeHeaderNoSync, if_neg hro]
  · intro p _ hu v hv
    exact (Pager.view_header db.pager _ hu.1).trans hv

end Steps

namespace Tidies

theorem withMetadata (h : Tidies db db') (M : Metadata) :
    Tidies { db with metadata := M } { db' with metadata := M } :=
  ⟨h.heap, h.wf, h.page, h.readOnly, h.fault, rfl, h.txManager⟩

theorem withTxManager (h : Tidies db db') (txManager : TransactionManager) :
    Tidies { db with txManager } { db' with txManager } :=
  ⟨h.heap, h.wf, h.page, h.readOnly, h.fault, h.metadata, rfl⟩

end Tidies

-- What the calls rely on: the files do not fail, and the metadata have a page.
structure Healthy (db : Database) : Prop where
  wf : db.pager.WF
  page : db.pager.Allocated db.pager.metadataPage
  quiet : ∀ n, db.wal.fault n = false
  writer : db.readOnly = false

theorem Healthy.tidies (h : Healthy db) (ht : Tidies db db') : Healthy db' where
  wf := ht.wf
  page := ht.allocated
  quiet n := by rw [ht.fault]; exact h.quiet n
  writer := ht.readOnly.trans h.writer

-- The pages of a transaction, as it wrote them.
def Carried (db : Database) (writes : HashMap PageNum Page) : Prop := ∀ p page, writes.get? p = some page →
  p ≠ db.pager.metadataPage ∧ db.pager.Allocated p ∧ db.heap.content p = some page ∧ page.byteLen = PAGE_SIZE

theorem Carried.tidies {writes : HashMap PageNum Page} (h : Carried db writes) (ht : Tidies db db') :
    Carried db' writes := by
  intro p page hp
  obtain ⟨hne, hu, hcontent, hlen⟩ := h p page hp
  exact ⟨by rwa [ht.page], ht.heap.keeps.used p hne hu, ht.heap.keeps.content p hne hu _ hcontent, hlen⟩

-- A transaction that wrote one document, when it comes to its commit. `root` is the tree that the
-- document is in now.
structure Ready (db : Database) (tx : Transaction) (name : String) (root : PageNum) : Prop where
  pages : Carried db tx.writes
  wrote : tx.writes.isEmpty = false
  docs : ∃ id page, tx.docWrites = insertNested ∅ name id (some page)
  modified : tx.modifiedCollections = HashMap.insert ∅ name ()
  updated : tx.updatedRoots.get? name = some root
  snapshot : (tx.snapshotRoots.get? name).getD 0 = db.metadata.root name
  existed : tx.docExistedInSnapshot = ∅
  old : tx.oldVersions = ∅

namespace Commit

variable {tx : Transaction} {name : String} {root : PageNum}

theorem exec_anyConflict_false {f : String → DbM ℓ Bool}
    (hf : ∀ id l, Proc.exec (f id) l db = (.ok false, l, db))
    (ids : List String) (l : ℓ) : Proc.exec (anyConflict f ids) l db = (.ok false, l, db) := by
  induction ids with
  | nil => rfl
  | cons id rest ih =>
    rw [anyConflict, Proc.exec_bind_ok (hf id l)]
    exact ih

theorem exec_validate (h : Ready db tx name root) (l : ℓ) :
    Proc.exec (validatePendingWrite tx.prepareWriteRequest) l db = (.ok (), l, db) := by
  have hexisted : ∀ id, existedInSnapshot tx.prepareWriteRequest name id = false := by
    intro id
    unfold existedInSnapshot getNested
    change (((tx.docExistedInSnapshot.get? name).bind _).getD false) = false
    rw [h.existed]
    rfl
  have hdetect : Proc.exec (detectWriteConflictsWithContext tx.prepareWriteRequest name
      (db.metadata.root name)) l db = (.ok (), l, db) := by
    unfold detectWriteConflictsWithContext
    rw [Proc.exec_bind_ok (exec_anyConflict_false (fun id l => ?_) _ l)]
    · rfl
    · rw [hexisted id]
      rfl
  have hcollection : Proc.exec (validateCollection tx.prepareWriteRequest name) l db = (.ok (), l, db) := by
    unfold validateCollection
    have hget : Proc.exec (getMetadata : DbM ℓ Metadata) l db = (.ok db.metadata, l, db) := rfl
    rw [Proc.exec_bind_ok hget]
    have hsnap : snapshotRoot tx.prepareWriteRequest name = db.metadata.root name := h.snapshot
    simp only [hsnap, ne_eq, not_true_eq_false, if_false]
    exact hdetect
  have hkeys : tx.prepareWriteRequest.modifiedCollections.keys = [name] := by
    change tx.modifiedCollections.keys = [name]
    rw [h.modified]
    rfl
  unfold validatePendingWrite
  rw [hkeys, Proc.exec_forEach_cons, Proc.exec_bind_ok hcollection]
  rfl

theorem checkBatchConflicts_ready (h : Ready db tx name root) :
    checkBatchConflicts [tx.prepareWriteRequest] = .ok () := by
  obtain ⟨id, page, hdocs⟩ := h.docs
  have hkeys : writtenKeys tx.prepareWriteRequest = [(name, id)] := by
    unfold writtenKeys
    change tx.docWrites.toList.flatMap _ = _
    rw [hdocs]
    rfl
  unfold checkBatchConflicts checkBatchFrom
  rw [hkeys]
  rfl

-- A loop over steps that succeed and tidy.
theorem tidying_forEach {f : α → DbM ℓ Unit} {items : List α} (hwf : db.pager.WF)
    (hm : db.pager.Allocated db.pager.metadataPage)
    (h : ∀ a ∈ items, ∀ db', Tidies db db' → Tidying (f a) () db') :
    Tidying (Proc.forEach f items) () db := by
  induction items generalizing db with
  | nil => exact fun l => ⟨db, rfl, Tidies.refl hwf hm⟩
  | cons a rest ih =>
    refine Tidying.bind (h a (by simp) db (Tidies.refl hwf hm)) fun db₁ ht₁ => ?_
    exact ih ht₁.wf ht₁.allocated fun b hb db' ht => h b (by simp [hb]) db' (ht₁.trans ht)

theorem tidying_writeFrames (hh : Healthy db) (h : Ready db tx name root) :
    Tidying (writeFrames tx.prepareWriteRequest : DbM ℓ Unit) () db := by
  refine tidying_forEach hh.wf hh.page fun entry hentry db' ht => ?_
  have hh' := hh.tidies ht
  obtain ⟨_, _, _, hlen⟩ := h.pages entry.1 entry.2 (HashMap.mem_toList.mp hentry)
  exact tidying_writeFrame hh'.wf hh'.page hh'.quiet _ _ hlen

-- The pages of the transaction are as it wrote them.
theorem tidying_writePages (hh : Healthy db) (h : Carried db tx.writes) :
    Tidying (writePages tx.prepareWriteRequest : DbM ℓ Unit) () db := by
  refine tidying_forEach hh.wf hh.page fun entry hentry db' ht => ?_
  obtain ⟨_, _, hcontent, hlen⟩ := h.tidies ht entry.1 entry.2 (HashMap.mem_toList.mp hentry)
  exact tidying_rewrite ht.wf ht.allocated hcontent hlen

-- The metadata with the tree that the document is in.
def withRoot (name : String) (root : PageNum) (m : Metadata) : Metadata :=
  if root ≠ m.root name then setRoot name root m else m

theorem exec_applyBatch (h : Ready db tx name root) (l : ℓ) :
    Proc.exec (applyBatch [tx.prepareWriteRequest]) l db =
      (.ok [tx.prepareWriteRequest], l, { db with metadata := withRoot name root db.metadata }) := by
  have hsnap : snapshotRoot tx.prepareWriteRequest name = db.metadata.root name := h.snapshot
  have hrebase : Proc.exec (rebaseIfMoved tx.prepareWriteRequest name (db.metadata.root name)) l db =
      (.ok tx.prepareWriteRequest, l, db) := by
    rw [rebaseIfMoved, if_neg (by simp [hsnap])]
    rfl
  have hroot : (tx.prepareWriteRequest.updatedRoots.get? name).getD (db.metadata.root name) = root := by
    change (tx.updatedRoots.get? name).getD _ = root
    rw [h.updated]
    rfl
  have hinstall : Proc.exec (installRoot tx.prepareWriteRequest name (db.metadata.root name)) l db =
      (.ok (), l, { db with metadata := withRoot name root db.metadata }) := by
    unfold installRoot withRoot
    simp only [hroot]
    split <;> rfl
  have hget : Proc.exec (getMetadata : DbM ℓ Metadata) l db = (.ok db.metadata, l, db) := rfl
  have hone : Proc.exec (applyCollection tx.prepareWriteRequest name) l db =
      (.ok tx.prepareWriteRequest, l, { db with metadata := withRoot name root db.metadata }) := by
    rw [applyCollection, Proc.exec_bind_ok hget]
    simp only
    rw [Proc.exec_bind_ok hrebase, Proc.exec_bind_ok hinstall]
    rfl
  have hkeys : tx.prepareWriteRequest.modifiedCollections.keys = [name] := by
    change tx.modifiedCollections.keys = [name]
    rw [h.modified]
    rfl
  have hall : Proc.exec (applyCollections tx.prepareWriteRequest
      tx.prepareWriteRequest.modifiedCollections.keys) l db =
      (.ok tx.prepareWriteRequest, l, { db with metadata := withRoot name root db.metadata }) := by
    rw [hkeys, applyCollections, Proc.exec_bind_ok hone]
    rfl
  rw [applyBatch, Proc.exec_bind_ok hall]
  rfl

-- The metadata go to their page, unless they are too long for it.
theorem exec_writeMetadata (hh : Healthy db) (txId : TransactionID) (l : ℓ) :
    (∃ db', Proc.exec (writeMetadata txId) l db = (.error .invalidPageSize, l, db')) ∨
      ∃ db', Proc.exec (writeMetadata txId) l db = (.ok (), l, db') ∧ Tidies db db' := by
  have hto : Proc.exec (writeMetadata txId) l db =
      Proc.exec (writeMetadataTo txId (.metadata db.metadata) db.pager.metadataPage) l db := by
    have hget : Proc.exec (getMetadata : DbM ℓ Metadata) l db = (.ok db.metadata, l, db) := rfl
    have hpage : Proc.exec (metadataPage : DbM ℓ PageNum) l db = (.ok db.pager.metadataPage, l, db) := rfl
    rw [writeMetadata, Proc.exec_bind_ok hget, Proc.exec_bind_ok hpage]
    simp only [hh.page.1, if_false]
    rfl
  rw [hto]
  by_cases hlen : (Page.metadata db.metadata).byteLen = PAGE_SIZE
  · right
    have hframe := tidying_writeFrame (ℓ := ℓ) hh.wf hh.page hh.quiet txId db.pager.metadataPage hlen
    refine Tidying.bind hframe (fun db₁ ht₁ => ?_) l
    have hh₁ := hh.tidies ht₁
    -- the page of the metadata
    have hwrite : Tidying (writePageTransfer db.pager.metadataPage (.metadata db.metadata) : DbM ℓ Unit) ()
        db₁ := by
      intro l
      obtain ⟨db', he, hedit, -⟩ := exec_writePage hh₁.wf (S := {db₁.pager.metadataPage})
        (by rintro p rfl; exact hh₁.page) (q := db.pager.metadataPage) (by rw [ht₁.page]; rfl) _ hlen l
      refine ⟨db', he, hedit.heap, hedit.wf, hedit.frame.2.1, ?_, ?_, ?_, ?_⟩ <;> rw [hedit.shared]
    refine Tidying.bind hwrite fun db₂ ht₂ => ?_
    have hh₂ := hh₁.tidies ht₂
    have hheader : Tidying (getHeaderData : DbM ℓ Header) db₂.pager.headerData db₂ :=
      fun l => ⟨db₂, rfl, Tidies.refl hh₂.wf hh₂.page⟩
    refine Tidying.bind hheader fun db₃ ht₃ => ?_
    have hh₃ := hh₂.tidies ht₃
    refine Tidying.bind (tidying_writeFrame hh₃.wf hh₃.page hh₃.quiet _ _ (by rfl)) fun db₄ ht₄ => ?_
    have hh₄ := hh₃.tidies ht₄
    have hmark : db₄.pager.metadataPage = db.pager.metadataPage :=
      (((ht₁.trans ht₂).trans ht₃).trans ht₄).page
    have hset : Tidying (setMetadataPage db.pager.metadataPage : DbM ℓ Unit) () db₄ :=
      fun l => ⟨_, rfl, Tidies.of_keeps hh₄.page
        ⟨hh₄.wf.writable, hh₄.wf.nonempty, hh₄.wf.nodup, hh₄.wf.range⟩ (Heap.Keeps.refl _ _) hmark.symm rfl
        rfl rfl rfl⟩
    refine Tidying.bind hset fun db₅ ht₅ => ?_
    have hh₅ := hh₄.tidies ht₅
    have hnext : Tidying (setNextTransactionId (txId + 1) : DbM ℓ Unit) () db₅ :=
      fun l => ⟨_, rfl, Tidies.of_keeps hh₅.page
        ⟨hh₅.wf.writable, hh₅.wf.nonempty, hh₅.wf.nodup, hh₅.wf.range⟩ (Heap.Keeps.refl _ _) rfl rfl
        rfl rfl rfl⟩
    refine Tidying.bind hnext fun db₆ ht₆ => ?_
    have hh₆ := hh₅.tidies ht₆
    exact tidying_writeHeaderNoSync hh₆.wf hh₆.page
  · left
    refine ⟨db, ?_⟩
    have hframe : Proc.exec (writeFrame txId db.pager.metadataPage (.metadata db.metadata)) l db =
        (.error .invalidPageSize, l, db) := by
      simp only [writeFrame, Proc.exec_atomicE, WAL.writeFrame, ne_eq, hlen, not_false_eq_true, if_true]
    exact Proc.exec_bind_error hframe

theorem exec_finishBatch (hh : Healthy db) (h : Carried db tx.writes) (hold : tx.oldVersions = ∅) (l : ℓ) :
    ∃ db', Proc.exec (finishBatch [tx.prepareWriteRequest]) l db = (.ok (), l, db') ∧
      Tidies { db with txManager := db.txManager.commit tx.mvccTxId } db' := by
  obtain ⟨db₁, he₁, ht₁⟩ := tidying_syncWal (ℓ := ℓ) hh.wf hh.page hh.quiet l
  obtain ⟨db₂, he₂, ht₂⟩ := tidying_writePages (ℓ := ℓ) (hh.tidies ht₁) (h.tidies ht₁) l
  obtain ⟨db₃, he₃, ht₃⟩ := tidying_flushNoSync (ℓ := ℓ) ht₂.wf ht₂.allocated l
  obtain ⟨db₄, he₄, ht₄⟩ := tidying_syncDataOnly (ℓ := ℓ) ht₃.wf ht₃.allocated l
  have ht := ((ht₁.trans ht₂).trans ht₃).trans ht₄
  refine ⟨{ db₄ with txManager := db₄.txManager.commit tx.mvccTxId }, ?_, ?_⟩
  · have hwrite : Proc.exec (Proc.forEach writePages [tx.prepareWriteRequest]) l db₁ = (.ok (), l, db₂) := by
      rw [Proc.exec_forEach_cons, Proc.exec_bind_ok he₂]
      rfl
    have hsame : addVersions db₄.versionChains tx.prepareWriteRequest = db₄.versionChains := by
      unfold addVersions
      change tx.oldVersions.toList.foldl _ _ = _
      rw [hold]
      rfl
    have hpush : Proc.exec (Proc.forEach pushVersions [tx.prepareWriteRequest]) l
        { db₄ with txManager := db₄.txManager.commit tx.mvccTxId } =
        (.ok (), l, { db₄ with txManager := db₄.txManager.commit tx.mvccTxId }) := by
      rw [Proc.exec_forEach_cons]
      refine Proc.exec_bind_ok (m := pushVersions tx.prepareWriteRequest) (a := ()) ?_
      rw [pushVersions, Proc.exec_atomic]
      simp only [hsame]
    rw [finishBatch, Proc.exec_bind_ok he₁, Proc.exec_bind_ok hwrite, Proc.exec_bind_ok he₃,
      Proc.exec_bind_ok he₄]
    exact (Proc.exec_bind_ok rfl).trans hpush
  · rw [← ht.txManager]
    exact ht.withTxManager _

-- The commit of one document gives the collection the tree with the document, and is done by then.
theorem exec_executeBatchCommit (hh : Healthy db) (h : Ready db tx name root) (l : ℓ) :
    (∃ db', Proc.exec (executeBatchCommit tx.mvccTxId [tx.prepareWriteRequest]) l db =
      (.error .invalidPageSize, l, db')) ∨
    ∃ db', Proc.exec (executeBatchCommit tx.mvccTxId [tx.prepareWriteRequest]) l db = (.ok (), l, db') ∧
      Tidies { db with
        metadata := withRoot name root db.metadata
        txManager := db.txManager.commit tx.mvccTxId } db' := by
  obtain ⟨db₁, he₁, ht₁⟩ := tidying_writeFrames (ℓ := ℓ) hh h l
  have h₁ : Ready db₁ tx name root :=
    { h with pages := h.pages.tidies ht₁, snapshot := by rw [ht₁.metadata]; exact h.snapshot }
  have hframes : Proc.exec (Proc.forEach writeFrames [tx.prepareWriteRequest]) l db = (.ok (), l, db₁) := by
    rw [Proc.exec_forEach_cons, Proc.exec_bind_ok he₁]
    rfl
  have hvalidate : Proc.exec (Proc.forEach validatePendingWrite [tx.prepareWriteRequest]) l db =
      (.ok (), l, db) := by
    rw [Proc.exec_forEach_cons, Proc.exec_bind_ok (exec_validate h l)]
    rfl
  have happly := exec_applyBatch h₁ l
  have hh₁ := hh.tidies ht₁
  -- the database with the new root in memory
  have hroot : Healthy { db₁ with metadata := withRoot name root db₁.metadata } :=
    ⟨hh₁.wf, hh₁.page, hh₁.quiet, hh₁.writer⟩
  have hcarried : Carried { db₁ with metadata := withRoot name root db₁.metadata } tx.writes := h₁.pages
  have hcheck : Proc.exec (Proc.ofExcept (checkBatchConflicts [tx.prepareWriteRequest]) : DbM ℓ Unit) l db =
      (.ok (), l, db) := by
    rw [checkBatchConflicts_ready h]
    rfl
  have hprepare : ∀ r db₂, Proc.exec (writeMetadata (maxTxId tx.mvccTxId [tx.prepareWriteRequest])) l
      { db₁ with metadata := withRoot name root db₁.metadata } = (r, l, db₂) →
      Proc.exec (prepareBatch tx.mvccTxId [tx.prepareWriteRequest]) l db =
        (r.map fun _ => [tx.prepareWriteRequest], l, db₂) := by
    intro r db₂ hmeta
    rw [prepareBatch, Proc.exec_bind_ok hvalidate, Proc.exec_bind_ok hcheck, Proc.exec_bind_ok hframes,
      Proc.exec_bind_ok happly]
    cases r with
    | error e => exact Proc.exec_bind_error hmeta
    | ok u => exact (Proc.exec_bind_ok hmeta).trans rfl
  rcases exec_writeMetadata hroot (maxTxId tx.mvccTxId [tx.prepareWriteRequest]) l with
    ⟨db₂, hmeta⟩ | ⟨db₂, hmeta, ht₂⟩
  · exact Or.inl ⟨db₂, Proc.exec_bind_error (hprepare _ _ hmeta)⟩
  · right
    obtain ⟨db₃, he₃, ht₃⟩ := exec_finishBatch (hroot.tidies ht₂) (hcarried.tidies ht₂) h.old l
    refine ⟨db₃, (Proc.exec_bind_ok (hprepare _ _ hmeta)).trans he₃, ?_⟩
    have hfirst := (ht₁.withMetadata (withRoot name root db.metadata)).withTxManager
      (db.txManager.commit tx.mvccTxId)
    have hsecond := ht₂.withTxManager (db.txManager.commit tx.mvccTxId)
    rw [ht₁.metadata] at hsecond
    have hthird := ht₃
    rw [ht₂.txManager, ht₁.txManager] at hthird
    exact (hfirst.trans hsecond).trans hthird

end Commit

theorem Collection.exec_commit {tx : Transaction} {name : String} {root : PageNum} (hh : Healthy db)
    (h : Ready db tx name root) (btree : BTree) :
    (∃ work db', Proc.exec commit ⟨tx, btree⟩ db = (.error .invalidPageSize, work, db')) ∨
    ∃ db', Proc.exec commit ⟨tx, btree⟩ db = (.ok (), ⟨{ tx with state := .committed }, btree⟩, db') ∧
      Tidies { db with
        metadata := Commit.withRoot name root db.metadata
        txManager := db.txManager.commit tx.mvccTxId } db' := by
  have hget : Proc.exec (Proc.getLocal : WorkM Work) ⟨tx, btree⟩ db = (.ok ⟨tx, btree⟩, ⟨tx, btree⟩, db) := rfl
  rw [commit, Proc.exec_bind_ok hget]
  simp only [h.wrote, Bool.false_eq_true, if_false]
  rcases Commit.exec_executeBatchCommit hh h (⟨tx, btree⟩ : Work) with ⟨db', he⟩ | ⟨db', he, ht⟩
  · exact Or.inl ⟨_, db', Proc.exec_bind_error he⟩
  · exact Or.inr ⟨db', (Proc.exec_bind_ok he).trans rfl, ht⟩

end JasonDb
