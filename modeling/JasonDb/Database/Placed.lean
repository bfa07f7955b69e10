import JasonDb.BTree.Grants
import JasonDb.Database.Index
import JasonDb.Lib.Ends
import JasonDb.Pager.Lemmas
import JasonDb.Transaction.Grants

namespace JasonDb

open Lib

variable {ℓ : Type} {m : PageNum} {db : Database} {M : Metadata} {W : Page → Prop}

-- The metadata have the page `m`, which is in use.
structure Database.Placed (m : PageNum) (db : Database) : Prop where
  page : db.pager.metadataPage = m
  pos : 0 < m
  inside : m < db.pager.numPages
  used : m ∉ db.pager.freeList
  writable : db.pager.readOnly = false
  writer : db.readOnly = false

-- The page of the metadata is up to date.
def Database.Stored (m : PageNum) (db : Database) : Prop :=
  db.pager.cache m = some (.metadata db.metadata)

theorem Database.Stored.view (h : db.Stored m) : db.pager.view m = some (.metadata db.metadata) := by
  rw [Pager.view, h]
  rfl

theorem placed_alloc (h : db.Placed m) (min : PageNum) :
    Database.Placed m { db with pager := (db.pager.allocPageMinimum min).2 } ∧
      ∀ p, (db.pager.allocPageMinimum min).1 = .ok p → p ≠ m := by
  unfold Pager.allocPageMinimum
  rw [if_neg (by simp [h.writable])]
  split
  case h_1 n rest heq =>
    obtain ⟨dropped, hl⟩ := Pager.dropWhile_reverse_eq heq
    have hn : n ∈ db.pager.freeList := by rw [hl]; simp
    have hrest : ∀ p ∈ rest.reverse, p ∈ db.pager.freeList := fun p hp => by
      rw [hl]
      exact List.mem_append_left _ hp
    refine ⟨⟨h.page, h.pos, h.inside, fun hm => h.used (hrest m hm), h.writable, h.writer⟩, ?_⟩
    rintro p ⟨⟩ rfl
    exact h.used hn
  case h_2 =>
    refine ⟨⟨h.page, h.pos, Nat.lt_succ_of_lt h.inside, by simp, h.writable, h.writer⟩, ?_⟩
    rintro p ⟨⟩ heq
    have hinside := h.inside
    rw [heq] at hinside
    exact lt_irrefl _ hinside

theorem cache_alloc (p : Pager) (min : PageNum) : (p.allocPageMinimum min).2.cache = p.cache := by
  unfold Pager.allocPageMinimum
  split
  · rfl
  · split <;> rfl

theorem placed_write (h : db.Placed m) (p : PageNum) (page : Page) :
    Database.Placed m { db with pager := (db.pager.writePageTransfer p page).2 } := by
  unfold Pager.writePageTransfer
  split
  · exact h
  · split
    · exact h
    · exact ⟨h.page, h.pos, h.inside, h.used, h.writable, h.writer⟩

theorem stored_write (h : db.Stored m) {p : PageNum} (hp : p ≠ m) (page : Page) :
    Database.Stored m { db with pager := (db.pager.writePageTransfer p page).2 } := by
  unfold Pager.writePageTransfer
  split
  · exact h
  · split
    · exact h
    · unfold Database.Stored
      simp only [Function.update_of_ne (Ne.symm hp)]
      exact h

theorem stored_of_write (h : db.metadata = M) {u : Unit}
    (hok : (db.pager.writePageTransfer m (.metadata M)).1 = .ok u) :
    Database.Stored m { db with pager := (db.pager.writePageTransfer m (.metadata M)).2 } := by
  unfold Pager.writePageTransfer at hok ⊢
  split at hok
  · cases hok
  · split at hok
    · cases hok
    case isFalse hro hlen =>
      rw [if_neg hro, if_neg hlen]
      simp [Database.Stored, h]

-- Metadata in memory, with their page in use.
def Database.Keeps (m : PageNum) (M : Metadata) (db : Database) : Prop :=
  db.Placed m ∧ db.metadata = M

theorem grants_keeps (W : Page → Prop) : Grants (Database.Keeps m M) (fun _ => True) W where
  alloc _ min h := ⟨⟨(placed_alloc h.1 min).1, h.2⟩, fun _ _ => trivial⟩
  write _ p page h _ _ := ⟨placed_write h.1 p page, h.2⟩

theorem grants_placed (W : Page → Prop) : Grants (Database.Placed m) (· ≠ m) W where
  alloc _ min h := placed_alloc h min
  write _ p page h _ _ := placed_write h p page

theorem grants_anywhere (W : Page → Prop) : Grants (Database.Placed m) (fun _ => True) W where
  alloc _ min h := ⟨(placed_alloc h min).1, fun _ _ => trivial⟩
  write _ p page h _ _ := placed_write h p page

theorem grants_stored (W : Page → Prop) :
    Grants (fun db => db.Placed m ∧ db.Stored m) (· ≠ m) W where
  alloc db min h := by
    refine ⟨⟨(placed_alloc h.1 min).1, ?_⟩, (placed_alloc h.1 min).2⟩
    unfold Database.Stored
    rw [cache_alloc]
    exact h.2
  write _ p page h hp _ := ⟨placed_write h.1 p page, stored_write h.2 hp page⟩

theorem byteLen_metadata_eq {M : Metadata} :
    (Page.metadata M).byteLen = PAGE_SIZE ↔ M.toJson.byteLen ≤ PAGE_SIZE := by
  simp [Page.byteLen]

section Steps

variable {db' db'' : Database}

-- A change of the database that leaves the page of the metadata where it is.
structure Aside (db db' : Database) : Prop where
  page : db'.pager.metadataPage = db.pager.metadataPage
  pages : db'.pager.numPages = db.pager.numPages
  free : db'.pager.freeList = db.pager.freeList
  cache : db'.pager.cache = db.pager.cache
  pagerReadOnly : db'.pager.readOnly = db.pager.readOnly
  readOnly : db'.readOnly = db.readOnly
  metadata : db'.metadata = db.metadata

theorem Aside.trans (h : Aside db db') (h' : Aside db' db'') : Aside db db'' where
  page := h'.page.trans h.page
  pages := h'.pages.trans h.pages
  free := h'.free.trans h.free
  cache := h'.cache.trans h.cache
  pagerReadOnly := h'.pagerReadOnly.trans h.pagerReadOnly
  readOnly := h'.readOnly.trans h.readOnly
  metadata := h'.metadata.trans h.metadata

theorem Database.Placed.aside (h : db.Placed m) (ha : Aside db db') : db'.Placed m where
  page := ha.page.trans h.page
  pos := h.pos
  inside := by rw [ha.pages]; exact h.inside
  used := by rw [ha.free]; exact h.used
  writable := ha.pagerReadOnly.trans h.writable
  writer := ha.readOnly.trans h.writer

theorem Database.Stored.aside (h : db.Stored m) (ha : Aside db db') : db'.Stored m := by
  unfold Database.Stored
  rw [ha.cache, ha.metadata]
  exact h

theorem aside_wal (db : Database) (wal : WAL) : Aside db { db with wal } :=
  ⟨rfl, rfl, rfl, rfl, rfl, rfl, rfl⟩

theorem aside_txManager (db : Database) (txManager : TransactionManager) :
    Aside db { db with txManager } := ⟨rfl, rfl, rfl, rfl, rfl, rfl, rfl⟩

theorem aside_flush (db : Database) : Aside db { db with pager := db.pager.flush } := by
  unfold Pager.flush
  split <;> exact ⟨rfl, rfl, rfl, rfl, rfl, rfl, rfl⟩

theorem aside_flushNoSync (db : Database) : Aside db { db with pager := db.pager.flushNoSync } := by
  unfold Pager.flushNoSync
  split <;> exact ⟨rfl, rfl, rfl, rfl, rfl, rfl, rfl⟩

theorem aside_syncDataOnly (db : Database) : Aside db { db with pager := db.pager.syncDataOnly } := by
  unfold Pager.syncDataOnly
  split <;> exact ⟨rfl, rfl, rfl, rfl, rfl, rfl, rfl⟩

theorem aside_writeHeader (db : Database) : Aside db { db with pager := db.pager.writeHeader.2 } := by
  unfold Pager.writeHeader
  split <;> exact ⟨rfl, rfl, rfl, rfl, rfl, rfl, rfl⟩

theorem aside_writeHeaderNoSync (db : Database) :
    Aside db { db with pager := db.pager.writeHeaderNoSync.2 } := by
  unfold Pager.writeHeaderNoSync
  split <;> exact ⟨rfl, rfl, rfl, rfl, rfl, rfl, rfl⟩

end Steps

section Store

variable {l : ℓ}

-- The metadata in memory go to their page if they fit.
theorem exec_storeMetadata_eq (h : db.Placed m) (hfit : db.metadata.toJson.byteLen ≤ PAGE_SIZE) :
    Proc.exec storeMetadata l db = (.ok (), l,
      { db with pager := (db.pager.writePageTransfer m (.metadata db.metadata)).2 }) := by
  have hpage : db.pager.metadataPage > 0 := by rw [h.page]; exact h.pos
  have hwrite := Pager.writePageTransfer_eq h.writable m (byteLen_metadata_eq.mpr hfit)
  rw [storeMetadata, getMetadata, Proc.exec_bind_ok (Proc.exec_atomic _ _ _), metadataPage,
    Proc.exec_bind_ok (Proc.exec_atomic _ _ _)]
  rw [if_pos hpage, h.page, writePageTransfer, Proc.exec_atomicE]
  simp only [hwrite]

theorem exec_storeMetadata (h : db.Placed m) (hfit : db.metadata.toJson.byteLen ≤ PAGE_SIZE) :
    ∃ db', Proc.exec storeMetadata l db = (.ok (), l, db') ∧ db'.Placed m ∧ db'.Stored m ∧
      db'.metadata = db.metadata := by
  refine ⟨_, exec_storeMetadata_eq h hfit, placed_write h _ _, ?_, rfl⟩
  rw [Pager.writePageTransfer_eq h.writable m (byteLen_metadata_eq.mpr hfit)]
  simp [Database.Stored]

theorem exec_updateMetadata (h : db.readOnly = false) (f : Metadata → Metadata) :
    Proc.exec (updateMetadata f) l db =
      Proc.exec (do storeMetadata; flush) l { db with metadata := f db.metadata } := by
  have hread : Proc.exec isReadOnly l db = (.ok false, l, db) := by
    rw [isReadOnly, Proc.exec_atomic, h]
  rw [updateMetadata, Proc.exec_bind_ok hread, if_neg (by simp), updateMetadataNoFlush,
    Proc.exec_bind_ok (Proc.exec_atomic _ _ _)]

theorem Database.Placed.withMetadata (h : db.Placed m) (M : Metadata) :
    Database.Placed m { db with metadata := M } :=
  ⟨h.page, h.pos, h.inside, h.used, h.writable, h.writer⟩

theorem exec_changeMetadata_eq (h : db.Placed m) {f : Metadata → Metadata}
    (hfit : (f db.metadata).toJson.byteLen ≤ PAGE_SIZE) :
    Proc.exec (changeMetadata f) l db = (.ok (), l, { db with
      metadata := f db.metadata
      pager := (db.pager.writePageTransfer m (.metadata (f db.metadata))).2.flush.flush }) := by
  have hplaced := h.withMetadata (f db.metadata)
  have hupdate : Proc.exec (updateMetadata id) l { db with metadata := f db.metadata } =
      (.ok (), l, { db with
        metadata := f db.metadata
        pager := (db.pager.writePageTransfer m (.metadata (f db.metadata))).2.flush }) := by
    rw [exec_updateMetadata hplaced.writer]
    exact Proc.exec_bind_ok (exec_storeMetadata_eq hplaced hfit)
  rw [changeMetadata, updateMetadataNoFlush, Proc.exec_bind_ok (Proc.exec_atomic _ _ _)]
  rw [Proc.exec_bind_ok hupdate]
  rfl

theorem exec_changeMetadata (h : db.Placed m) {f : Metadata → Metadata}
    (hfit : (f db.metadata).toJson.byteLen ≤ PAGE_SIZE) :
    ∃ db', Proc.exec (changeMetadata f) l db = (.ok (), l, db') ∧ db'.Placed m ∧ db'.Stored m := by
  have hplaced := h.withMetadata (f db.metadata)
  have hwritten := placed_write hplaced m (.metadata (f db.metadata))
  have hok := congrArg Prod.fst
    (Pager.writePageTransfer_eq h.writable m (byteLen_metadata_eq.mpr hfit))
  let db₁ : Database := { db with metadata := f db.metadata }
  have hmeta : db₁.metadata = f db.metadata := rfl
  have hstored := stored_of_write hmeta hok
  have hflush : ∀ db₁ : Database, Aside db₁ { db₁ with pager := db₁.pager.flush.flush } :=
    fun db₁ => (aside_flush db₁).trans (aside_flush { db₁ with pager := db₁.pager.flush })
  exact ⟨_, exec_changeMetadata_eq h hfit, hwritten.aside (hflush _), hstored.aside (hflush _)⟩

theorem exec_storeMetadata_error (h : db.Placed m)
    (hfit : ¬ db.metadata.toJson.byteLen ≤ PAGE_SIZE) :
    Proc.exec storeMetadata l db = (.error .invalidPageSize, l, db) := by
  have hpage : db.pager.metadataPage > 0 := by rw [h.page]; exact h.pos
  have hwrite : db.pager.writePageTransfer m (.metadata db.metadata) =
      (.error .invalidPageSize, db.pager) := by
    unfold Pager.writePageTransfer
    rw [if_neg (by simp [h.writable]), if_pos (fun heq => hfit (byteLen_metadata_eq.mp heq))]
  rw [storeMetadata, getMetadata, Proc.exec_bind_ok (Proc.exec_atomic _ _ _), metadataPage,
    Proc.exec_bind_ok (Proc.exec_atomic _ _ _), if_pos hpage, h.page, writePageTransfer,
    Proc.exec_atomicE]
  simp only [hwrite]

-- Metadata that do not fit stay in memory.
theorem exec_changeMetadata_error (h : db.Placed m) {f : Metadata → Metadata}
    (hfit : ¬ (f db.metadata).toJson.byteLen ≤ PAGE_SIZE) :
    Proc.exec (changeMetadata f) l db =
      (.error .invalidPageSize, l, { db with metadata := f db.metadata }) := by
  have hplaced := h.withMetadata (f db.metadata)
  have hstore := exec_storeMetadata_error (l := l) hplaced hfit
  have hupdate : Proc.exec (updateMetadata id) l { db with metadata := f db.metadata } =
      (.error .invalidPageSize, l, { db with metadata := f db.metadata }) := by
    rw [exec_updateMetadata hplaced.writer]
    exact Proc.exec_bind_error hstore
  rw [changeMetadata, updateMetadataNoFlush, Proc.exec_bind_ok (Proc.exec_atomic _ _ _)]
  exact Proc.exec_bind_error hupdate

end Store

section Commit

variable {J : Database → Prop} {I : ℓ → Prop}

-- `J` does not look further than the page of the metadata.
def Lasting (J : Database → Prop) : Prop := ∀ db db', J db → Aside db db' → J db'

theorem lasting_placed : Lasting (Database.Placed m) := fun _ _ h ha => h.aside ha

theorem lasting_keeps : Lasting (Database.Keeps m M) :=
  fun _ _ h ha => ⟨h.1.aside ha, ha.metadata.trans h.2⟩

theorem lasting_stored : Lasting fun db => db.Placed m ∧ db.Stored m :=
  fun _ _ h ha => ⟨h.1.aside ha, h.2.aside ha⟩

theorem lasting_logs (hJ : Lasting J) (G : PageNum → Prop) (W : TransactionID → Page → Prop) :
    Commit.Logs J G W := fun db _ _ _ hs _ _ => hJ db _ hs (aside_wal db _)

theorem ends_updateMetadata (f : Metadata → Metadata) :
    Proc.Ends (Database.Placed m) I (fun _ _ => Database.Stored m)
      (updateMetadata f : DbM ℓ Unit) := by
  intro l db hl h r l' db' he
  have hplaced := h.withMetadata (f db.metadata)
  rw [exec_updateMetadata h.writer] at he
  by_cases hfit : (f db.metadata).toJson.byteLen ≤ PAGE_SIZE
  · obtain ⟨db₁, hstore, hplaced₁, hstored₁, -⟩ := exec_storeMetadata (l := l) hplaced hfit
    rw [Proc.exec_bind_ok hstore, flush, Proc.exec_atomic] at he
    obtain ⟨rfl, rfl, rfl⟩ := by simpa using he
    exact ⟨hplaced₁.aside (aside_flush db₁), hl, fun _ _ => hstored₁.aside (aside_flush db₁)⟩
  · rw [Proc.exec_bind_error (exec_storeMetadata_error hplaced hfit)] at he
    obtain ⟨rfl, rfl, rfl⟩ := by simpa using he
    exact ⟨hplaced, hl, by simp⟩

theorem ends_writeMetadata (txId : TransactionID) :
    Proc.Ends (Database.Placed m) I (fun _ _ => Database.Stored m)
      (Commit.writeMetadata txId : DbM ℓ Unit) := by
  -- first with the metadata at hand
  have hto : ∀ M, Proc.Ends (Database.Keeps m M) I (fun _ _ => Database.Stored m)
      (Commit.writeMetadataTo txId (.metadata M) m : DbM ℓ Unit) := by
    intro M
    refine Proc.Safe.ends_bind (Q := fun _ => True) (Commit.safe_writeFrame
      (lasting_logs lasting_keeps (fun _ => True) fun _ _ => True) trivial trivial) fun _ _ => ?_
    have hwrite : Proc.Ends (Database.Keeps m M) I (fun _ _ => Database.Stored m)
        (writePageTransfer m (.metadata M) : DbM ℓ Unit) := by
      intro l db hl hs r l' db' he
      obtain ⟨hf, rfl⟩ := Proc.exec_atomicE_inv he
      have hr : (db.pager.writePageTransfer m (.metadata M)).1 = r := congrArg Prod.fst hf
      obtain rfl : { db with pager := (db.pager.writePageTransfer m (.metadata M)).2 } = db' :=
        congrArg Prod.snd hf
      refine ⟨(grants_keeps fun _ => True).write db m _ hs trivial trivial, hl, fun a hok => ?_⟩
      exact stored_of_write hs.2 (hr.trans hok)
    refine hwrite.bind_safe fun _ => ?_
    have hlast : Lasting fun db => db.Keeps m M ∧ db.Stored m :=
      fun _ _ h ha => ⟨lasting_keeps _ _ h.1 ha, h.2.aside ha⟩
    refine (Proc.safe_atomic (Q := fun _ => True) fun _ hs => ⟨hs, trivial⟩).bind fun header _ => ?_
    refine (Commit.safe_writeFrame (lasting_logs hlast (fun _ => True) fun _ _ => True)
      trivial trivial).bind fun _ _ => ?_
    refine (Proc.safe_atomic (Q := fun _ => True) fun db hs => ⟨?_, trivial⟩).bind fun _ _ => ?_
    · exact hlast db _ hs ⟨hs.1.1.page.symm, rfl, rfl, rfl, rfl, rfl, rfl⟩
    refine (Proc.safe_atomic (Q := fun _ => True) fun db hs => ⟨?_, trivial⟩).bind fun _ _ => ?_
    · exact hlast db _ hs ⟨rfl, rfl, rfl, rfl, rfl, rfl, rfl⟩
    · exact Proc.safe_atomicE fun db hs =>
        ⟨hlast db _ hs (aside_writeHeaderNoSync db), fun _ _ => trivial⟩
  intro l db hl hs r l' db' he
  have hpage : db.pager.metadataPage ≠ 0 := by
    rw [hs.page]
    exact Nat.pos_iff_ne_zero.mp hs.pos
  rw [Commit.writeMetadata, getMetadata, Proc.exec_bind_ok (Proc.exec_atomic _ _ _), metadataPage,
    Proc.exec_bind_ok (Proc.exec_atomic _ _ _)] at he
  simp only [hpage, if_false] at he
  rw [hs.page] at he
  obtain ⟨hk, hl', hok⟩ := hto db.metadata l db hl ⟨hs, rfl⟩ r l' db' he
  exact ⟨hk.1, hl', hok⟩

theorem safe_finishBatch_stored {batch : List PendingWrite}
    (h : ∀ pending ∈ batch, PagesIn (· ≠ m) (fun _ => True) pending.writes) :
    Proc.Safe (fun db => db.Placed m ∧ db.Stored m) I (fun _ => True)
      (Commit.finishBatch batch : DbM ℓ Unit) := by
  refine Proc.Safe.bind (Q := fun _ => True) (m := syncWal) (Proc.safe_atomicE fun db hs =>
    ⟨lasting_stored db _ hs (aside_wal db _), fun _ _ => trivial⟩) fun _ _ => ?_
  refine (Proc.safe_forEach _ fun pending hmem => Commit.safe_writePages (W := fun _ _ => True)
    (fun _ => grants_stored _) (h pending hmem)).bind fun _ _ => ?_
  refine (Proc.safe_atomic (Q := fun _ => True) fun db hs =>
    ⟨lasting_stored db _ hs (aside_flushNoSync db), trivial⟩).bind fun _ _ => ?_
  refine (Proc.safe_atomic (Q := fun _ => True) fun db hs =>
    ⟨lasting_stored db _ hs (aside_syncDataOnly db), trivial⟩).bind fun _ _ => ?_
  refine (Proc.safe_forEach _ fun pending _ => Proc.safe_atomic fun db hs =>
    ⟨lasting_stored db _ hs (aside_txManager db _), trivial⟩).bind fun _ _ => ?_
  exact Proc.safe_forEach _ fun pending _ => Proc.safe_atomic fun db hs =>
    ⟨lasting_stored db _ hs ⟨rfl, rfl, rfl, rfl, rfl, rfl, rfl⟩, trivial⟩

-- A commit stores the metadata before it writes the pages of its transactions.
theorem ends_executeBatchCommit (leader : TransactionID) {batch : List PendingWrite}
    (h : ∀ pending ∈ batch, PagesIn (· ≠ m) (fun _ => True) pending.writes) :
    Proc.Ends (Database.Placed m) I (fun _ _ => Database.Stored m)
      (Commit.executeBatchCommit leader batch : DbM ℓ Unit) := by
  have hlogs : Commit.Logs (Database.Placed m) (· ≠ m) fun _ _ => True :=
    lasting_logs lasting_placed _ _
  have hprepare : Proc.Ends (Database.Placed m) I (fun batch' _ db => db.Stored m ∧
      List.Forall₂ (Commit.Carries (· ≠ m) fun _ _ => True) batch batch')
      (Commit.prepareBatch leader batch : DbM ℓ _) := by
    refine (Proc.safe_forEach _ fun pending _ =>
      Commit.safe_validatePendingWrite pending).ends_bind fun _ _ => ?_
    refine (Proc.safe_ofExcept (Q := fun _ => True) fun _ _ => trivial).ends_bind fun _ _ => ?_
    refine (Proc.safe_forEach _ fun pending hmem =>
      Commit.safe_writeFrames hlogs (h pending hmem)).ends_bind fun _ _ => ?_
    refine (Commit.safe_applyBatch (fun _ => grants_placed _) (fun _ _ => trivial) hlogs ?_
      h).ends_bind fun batch' hcarry => ?_
    · exact fun db _ _ hs => hs.withMetadata _
    · refine (ends_writeMetadata _).bind fun _ l db hl hs hstored r l' db' he => ?_
      obtain ⟨rfl, rfl, rfl⟩ := by simpa [Proc.exec_pure] using he
      refine ⟨hs, hl, ?_⟩
      rintro _ ⟨⟩
      exact ⟨hstored, hcarry⟩
  refine hprepare.bind fun batch' l db hl hs hdone r l' db' he => ?_
  obtain ⟨hstored, hcarry⟩ := hdone
  obtain ⟨hfinish, hl', -⟩ := (safe_finishBatch_stored
    (Commit.pagesIn_of_carries hcarry)).exec he hl ⟨hs, hstored⟩
  exact ⟨hfinish.1, hl', fun _ _ => hfinish.2⟩

end Commit

end JasonDb
