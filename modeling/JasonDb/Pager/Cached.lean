import JasonDb.Checked
import JasonDb.Lib.Disk
import JasonDb.LruCache.Refines

namespace JasonDb

open Lib

-- The pager with the cache it really has. `checks` says whether the build has overflow checks.
structure CachedPager where
  cache : LRUCacheInner Bytes
  file : Disk Bytes
  readOnly : Bool
  checks : Bool

namespace CachedPager

-- A page of a file of this length. Where nothing was written it has zeros.
def pageAt (content : PageNum → Option Bytes) (len : Nat) (pageNum : PageNum) : Option Bytes :=
  if pageNum < len then some ((content pageNum).getD zeroPage) else none

def readExact (page : Option Bytes) : Except Error Bytes :=
  match page with
  | some data => .ok data
  | none => .error (.io "failed to fill whole buffer")

variable (s : CachedPager)

def filePage (pageNum : PageNum) : Option Bytes := pageAt s.file.content s.file.len pageNum

-- What a seek to the page and a read of one page there give.
def readAt (pageNum : PageNum) : Except Error Bytes := do
  let offset ← seekPage s.checks (UInt64.ofNat pageNum)
  readExact (s.filePage (offset / PAGE_SIZE))

-- A panic poisons the lock of the file as well. The calls after it are not followed.
def readPage (pageNum : PageNum) : Except Error Bytes × CachedPager :=
  match s.cache.get pageNum with
  | (some data, cache) => (.ok data, { s with cache })
  | (none, cache) => match s.readAt pageNum with
    | .ok buf => (.ok buf, { s with cache := cache.put pageNum buf })
    | .error e => (.error e, { s with cache })

def readPageShared (pageNum : PageNum) : Except Error Bytes × CachedPager :=
  match s.cache.getReadOnly pageNum with
  | some data => (.ok data, s)
  | none => match s.readAt pageNum with
    | .ok buf => (.ok buf, { s with cache := s.cache.put pageNum buf })
    | .error e => (.error e, s)

def writePage (pageNum : PageNum) (data : Bytes) : Except Error Unit × CachedPager :=
  if s.readOnly then (.error (.other "cannot write page: database is read-only"), s)
  else if data.length ≠ PAGE_SIZE then (.error .invalidPageSize, s)
  else (.ok (), { s with cache := (s.cache.put pageNum data).markDirty pageNum })

def writePageTransfer (pageNum : PageNum) (data : Bytes) : Except Error Unit × CachedPager :=
  if s.readOnly then (.error (.other "cannot write page: database is read-only"), s)
  else if data.length ≠ PAGE_SIZE then (.error .invalidPageSize, s)
  else (.ok (), { s with cache := s.cache.putDirtyAtomic pageNum data })

-- Dirty pages that are no longer cached are skipped. The first page that cannot be written ends it.
def writeBack (checks : Bool) (cache : LRUCacheInner Bytes) :
    List PageNum → Disk Bytes → Except Error Unit × Disk Bytes
  | [], file => (.ok (), file)
  | pageNum :: rest, file => match cache.getReadOnly pageNum with
    | some data => match landing checks (UInt64.ofNat pageNum) with
      | .ok block => writeBack checks cache rest (file.write block data)
      | .error e => (.error e, file)
    | none => writeBack checks cache rest file

-- A flush that fails leaves all flags set.
def flush : Except Error Unit × CachedPager :=
  if s.readOnly then (.ok (), s)
  else match writeBack s.checks s.cache s.cache.getAllDirty.mergeSort s.file with
    | (.error e, file) => (.error e, { s with file })
    | (.ok (), file) => (.ok (), { s with file := file.sync, cache := s.cache.clearAllDirty })

def flushNoSync : Except Error Unit × CachedPager :=
  if s.readOnly then (.ok (), s)
  else match writeBack s.checks s.cache s.cache.getAllDirty s.file with
    | (.error e, file) => (.error e, { s with file })
    | (.ok (), file) => (.ok (), { s with file, cache := s.cache.clearAllDirty })

-- `Pager::open` on a file whose header is in order.
def opened (checks : Bool) (capacity : Nat) (file : Disk Bytes) (readOnly : Bool) : CachedPager :=
  ⟨.new capacity, file, readOnly, checks⟩

inductive Op where
  | write (pageNum : PageNum) (data : Bytes)
  | read (pageNum : PageNum)
  | readShared (pageNum : PageNum)
  | flush
  | flushNoSync

-- The page of the call is in place.
def Op.Within : Op → Prop
  | .write pageNum _ => InPlace pageNum
  | .read pageNum => InPlace pageNum
  | .readShared pageNum => InPlace pageNum
  | .flush => True
  | .flushNoSync => True

-- What a call returns. After a flush it is the file that counts as well.
inductive Reply where
  | written (result : Except Error Unit)
  | page (result : Except Error Bytes)
  | flushed (result : Except Error Unit) (file : PageNum → Option Bytes)

def step : Op → Reply × CachedPager
  | .write pageNum data =>
    (.written (s.writePageTransfer pageNum data).1, (s.writePageTransfer pageNum data).2)
  | .read pageNum => (.page (s.readPage pageNum).1, (s.readPage pageNum).2)
  | .readShared pageNum => (.page (s.readPageShared pageNum).1, (s.readPageShared pageNum).2)
  | .flush => (.flushed s.flush.1 s.flush.2.filePage, s.flush.2)
  | .flushNoSync => (.flushed s.flushNoSync.1 s.flushNoSync.2.filePage, s.flushNoSync.2)

def run (ops : List Op) : CachedPager := ops.foldl (fun s op => (s.step op).2) s

-- The content of the last write to a page that was accepted. The history has the last call first.
def lastWritten (readOnly : Bool) (pageNum : PageNum) : List Op → Option Bytes
  | [] => none
  | .write p data :: older =>
    if p = pageNum ∧ readOnly = false ∧ data.length = PAGE_SIZE then some data
    else lastWritten readOnly pageNum older
  | _ :: older => lastWritten readOnly pageNum older

-- What a reader sees.
def view (pageNum : PageNum) : Option Bytes := (s.cache.getReadOnly pageNum).or (s.filePage pageNum)

-- The cache is a list of pages, flags that are recorded are set and of pages in place, and a clean
-- page is as in the file.
structure Tidy : Prop where
  placed : ∀ pageNum, s.cache.isDirty pageNum = true → InPlace pageNum
  refines : ∃ r, s.cache.Refines r
  flagged : ∀ pageNum flag, s.cache.dirty.get? pageNum = some flag → flag = true
  clean : ∀ pageNum data, s.cache.getReadOnly pageNum = some data → s.cache.isDirty pageNum = false →
    s.filePage pageNum = some data

variable {s} {s' : CachedPager} {pageNum : PageNum} {data : Bytes}

theorem tidy_opened (checks : Bool) (capacity : Nat) (file : Disk Bytes) (readOnly : Bool) :
    (opened checks capacity file readOnly).Tidy := by
  refine ⟨?_, ⟨_, LRUCacheInner.refines_new capacity⟩, ?_, ?_⟩
  · intro pageNum h
    cases h
  · intro pageNum flag h
    cases h
  · intro pageNum data h
    cases h

theorem Tidy.view_of_clean (h : s.Tidy) (hclean : s.cache.isDirty pageNum = false) :
    s.view pageNum = s.filePage pageNum := by
  unfold view
  cases hdata : s.cache.getReadOnly pageNum with
  | none => rfl
  | some data => exact (h.clean pageNum data hdata hclean).symm

section Reads

-- The cache has moved on, but nothing can be seen of that.
structure Same (s s' : CachedPager) : Prop where
  tidy : s'.Tidy
  view : s'.view = s.view
  file : s'.file = s.file
  readOnly : s'.readOnly = s.readOnly
  dirty : s'.cache.dirty = s.cache.dirty

theorem Tidy.same_put (h : s.Tidy) (hpage : s.filePage pageNum = some data)
    (hnew : s.cache.getReadOnly pageNum = none) :
    Same s { s with cache := s.cache.put pageNum data } := by
  obtain ⟨r, hr⟩ := h.refines
  have hkeeps := LRUCacheInner.keeps_put s.cache pageNum data
  have hput := hr.getReadOnly_put pageNum data
  refine ⟨⟨?_, ⟨_, hr.put pageNum data⟩, ?_, ?_⟩, ?_, rfl, rfl, hkeeps.dirty⟩
  · intro p hdirty
    rw [LRUCacheInner.isDirty, hkeeps.dirty] at hdirty
    exact h.placed p hdirty
  · intro p flag hflag
    exact h.flagged p flag (hkeeps.dirty ▸ hflag)
  · intro p d hd hclean
    rw [LRUCacheInner.isDirty, hkeeps.dirty] at hclean
    rcases hput p with heq | ⟨hnone, -⟩
    · rw [heq] at hd
      split_ifs at hd with hp
      · obtain rfl := Option.some.inj hd
        exact hp ▸ hpage
      · exact h.clean p d hd hclean
    · rw [hnone] at hd
      cases hd
  · funext p
    show ((s.cache.put pageNum data).getReadOnly p).or (s.filePage p) = s.view p
    rcases hput p with heq | ⟨hnone, hclean⟩
    · rw [heq]
      split
      next hp =>
        rw [hp, CachedPager.view, hnew, hpage]
        rfl
      next => rfl
    · rw [hnone, h.view_of_clean hclean]
      rfl

theorem Tidy.same_get (h : s.Tidy) (pageNum : PageNum) :
    Same s { s with cache := (s.cache.get pageNum).2 } := by
  obtain ⟨r, hr⟩ := h.refines
  have hkeeps := LRUCacheInner.keeps_get s.cache pageNum
  have hget : ∀ p, (s.cache.get pageNum).2.getReadOnly p = s.cache.getReadOnly p :=
    fun p => (hr.getReadOnly_get pageNum p).2
  refine ⟨⟨?_, ⟨_, (hr.get pageNum).2⟩, ?_, ?_⟩, ?_, rfl, rfl, hkeeps.dirty⟩
  · intro p hdirty
    rw [LRUCacheInner.isDirty, hkeeps.dirty] at hdirty
    exact h.placed p hdirty
  · intro p flag hflag
    exact h.flagged p flag (hkeeps.dirty ▸ hflag)
  · intro p d hd hclean
    rw [LRUCacheInner.isDirty, hkeeps.dirty] at hclean
    exact h.clean p d (hget p ▸ hd) hclean
  · funext p
    show ((s.cache.get pageNum).2.getReadOnly p).or (s.filePage p) = s.view p
    rw [hget]
    rfl

theorem Same.trans {s'' : CachedPager} (h : Same s s') (h' : Same s' s'') : Same s s'' :=
  ⟨h'.tidy, h'.view.trans h.view, h'.file.trans h.file, h'.readOnly.trans h.readOnly,
    h'.dirty.trans h.dirty⟩

theorem readAt_eq (s : CachedPager) (hplace : InPlace pageNum) :
    s.readAt pageNum = readExact (s.filePage pageNum) := by
  have hnum := toNat_inPlace hplace
  rw [readAt, seekPage_inPlace s.checks (by rw [hnum]; exact hplace), hnum]
  simp only [bind, Except.bind]
  rw [Nat.mul_div_cancel _ (show 0 < PAGE_SIZE by decide)]

theorem Tidy.readPageShared (h : s.Tidy) (hplace : InPlace pageNum) :
    (s.readPageShared pageNum).1 = readExact (s.view pageNum) ∧
      Same s (s.readPageShared pageNum).2 := by
  have hrefl : Same s s := ⟨h, rfl, rfl, rfl, rfl⟩
  unfold CachedPager.readPageShared view
  rw [readAt_eq s hplace]
  cases hdata : s.cache.getReadOnly pageNum with
  | some data => exact ⟨rfl, hrefl⟩
  | none =>
    cases hpage : s.filePage pageNum with
    | some buf => exact ⟨rfl, h.same_put hpage hdata⟩
    | none => exact ⟨rfl, hrefl⟩

theorem Tidy.readPage (h : s.Tidy) (hplace : InPlace pageNum) :
    (s.readPage pageNum).1 = readExact (s.view pageNum) ∧ Same s (s.readPage pageNum).2 := by
  obtain ⟨r, hr⟩ := h.refines
  have hsame := h.same_get pageNum
  obtain ⟨hanswer, hkept⟩ := hr.getReadOnly_get pageNum pageNum
  unfold CachedPager.readPage view
  rw [readAt_eq s hplace]
  rw [← hanswer] at hkept ⊢
  rcases hget : s.cache.get pageNum with ⟨answer, cache⟩
  rw [hget] at hsame hkept
  cases answer with
  | some data => exact ⟨rfl, hsame⟩
  | none =>
    cases hpage : s.filePage pageNum with
    | some buf => exact ⟨rfl, hsame.trans (hsame.tidy.same_put hpage hkept)⟩
    | none => exact ⟨rfl, hsame⟩

end Reads

section Writes

theorem Tidy.putDirty (h : s.Tidy) (hplace : InPlace pageNum) (data : Bytes) :
    Tidy { s with cache := s.cache.putDirtyAtomic pageNum data } ∧
      view { s with cache := s.cache.putDirtyAtomic pageNum data } =
        Function.update s.view pageNum (some data) := by
  obtain ⟨r, hr⟩ := h.refines
  have hput := hr.getReadOnly_putDirtyAtomic pageNum data
  have hdirty := LRUCacheInner.dirty_putDirtyAtomic s.cache pageNum data
  refine ⟨⟨?_, ⟨_, hr.putDirtyAtomic pageNum data⟩, ?_, ?_⟩, ?_⟩
  · intro p hflagged
    rw [LRUCacheInner.isDirty, hdirty, HashMap.get?_insert] at hflagged
    split_ifs at hflagged with hp
    · exact hp ▸ hplace
    · exact h.placed p hflagged
  · intro p flag hflag
    rw [hdirty, HashMap.get?_insert] at hflag
    split_ifs at hflag with hp
    · exact (Option.some.inj hflag).symm
    · exact h.flagged p flag hflag
  · intro p d hd hclean
    rw [LRUCacheInner.isDirty, hdirty, HashMap.get?_insert] at hclean
    split_ifs at hclean with hp
    · cases hclean
    · rcases hput p with heq | ⟨hnone, -⟩
      · rw [heq, if_neg hp] at hd
        exact h.clean p d hd hclean
      · rw [hnone] at hd
        cases hd
  · funext p
    show ((s.cache.putDirtyAtomic pageNum data).getReadOnly p).or (s.filePage p) = _
    rw [Function.update_apply]
    rcases hput p with heq | ⟨hnone, hne, hclean⟩
    · rw [heq]
      split
      · rfl
      · rfl
    · rw [hnone, if_neg hne, h.view_of_clean hclean]
      rfl

-- The file with the cached ones of the pages, each in its place.
def withPages (cache : LRUCacheInner Bytes) : List PageNum → Disk Bytes → Disk Bytes
  | [], file => file
  | pageNum :: rest, file => match cache.getReadOnly pageNum with
    | some data => withPages cache rest (file.write pageNum data)
    | none => withPages cache rest file

theorem writeBack_eq (checks : Bool) (cache : LRUCacheInner Bytes) {pages : List PageNum}
    (hplace : ∀ p ∈ pages, InPlace p) (file : Disk Bytes) :
    writeBack checks cache pages file = (.ok (), withPages cache pages file) := by
  induction pages generalizing file with
  | nil => rfl
  | cons pageNum rest ih =>
    have hhere := hplace pageNum List.mem_cons_self
    have hnum := toNat_inPlace hhere
    have hrest := ih fun p hp => hplace p (List.mem_cons_of_mem pageNum hp)
    unfold writeBack withPages
    rw [landing_inPlace checks (by rw [hnum]; exact hhere), hnum]
    cases cache.getReadOnly pageNum with
    | none => exact hrest file
    | some data => exact hrest (file.write pageNum data)

theorem content_withPages (cache : LRUCacheInner Bytes) (pages : List PageNum) (file : Disk Bytes)
    (p : PageNum) : (withPages cache pages file).content p =
      if p ∈ pages then (cache.getReadOnly p).or (file.content p) else file.content p := by
  induction pages generalizing file with
  | nil => rfl
  | cons pageNum rest ih =>
    unfold withPages
    cases hdata : cache.getReadOnly pageNum with
    | none =>
      dsimp only
      rw [ih]
      by_cases hp : p = pageNum
      · subst hp
        simp [hdata]
      · simp [hp]
    | some data =>
      dsimp only
      rw [ih, Disk.content_write]
      by_cases hp : p = pageNum
      · subst hp
        simp [hdata]
      · simp [hp]

theorem lt_len_withPages (cache : LRUCacheInner Bytes) (pages : List PageNum) (file : Disk Bytes)
    (n : Nat) : n < (withPages cache pages file).len ↔
      n < file.len ∨ ∃ p ∈ pages, (cache.getReadOnly p).isSome ∧ n ≤ p := by
  induction pages generalizing file with
  | nil => simp [withPages]
  | cons pageNum rest ih =>
    unfold withPages
    cases hdata : cache.getReadOnly pageNum with
    | none =>
      dsimp only
      rw [ih]
      simp [hdata]
    | some data =>
      dsimp only
      have hmax : n < max file.len (pageNum + 1) ↔ n < file.len ∨ n ≤ pageNum := by omega
      rw [ih, Disk.len_write, hmax, or_assoc]
      simp [hdata]

-- The dirty pages that are cached are in the file, and nothing is dirty any more.
structure Flushed (s s' : CachedPager) : Prop where
  tidy : s'.Tidy
  readOnly : s'.readOnly = s.readOnly
  cached : ∀ p, s'.cache.getReadOnly p = s.cache.getReadOnly p
  clean : ∀ p, s'.cache.isDirty p = false
  content : ∀ p, s'.file.content p =
    if s.cache.isDirty p then (s.cache.getReadOnly p).or (s.file.content p) else s.file.content p
  len : ∀ n, n < s'.file.len ↔
    n < s.file.len ∨ ∃ p, s.cache.isDirty p = true ∧ (s.cache.getReadOnly p).isSome ∧ n ≤ p

theorem Tidy.flushed (h : s.Tidy) {pages : List PageNum} {file : Disk Bytes}
    (hpages : ∀ p, p ∈ pages ↔ s.cache.isDirty p = true)
    (hcontent : file.content = (withPages s.cache pages s.file).content)
    (hlen : file.len = (withPages s.cache pages s.file).len) :
    Flushed s { s with file, cache := s.cache.clearAllDirty } := by
  obtain ⟨r, hr⟩ := h.refines
  have hcached : ∀ p, s.cache.clearAllDirty.getReadOnly p = s.cache.getReadOnly p := fun _ => rfl
  have hfile : ∀ p, file.content p = if s.cache.isDirty p then
      (s.cache.getReadOnly p).or (s.file.content p) else s.file.content p := by
    intro p
    rw [hcontent, content_withPages]
    simp only [hpages]
  have hlt : ∀ n, n < file.len ↔ n < s.file.len ∨
      ∃ p, s.cache.isDirty p = true ∧ (s.cache.getReadOnly p).isSome ∧ n ≤ p := by
    intro n
    rw [hlen, lt_len_withPages]
    simp only [hpages]
  refine ⟨⟨?_, ⟨_, (hr.step .clearAllDirty).2⟩, ?_, ?_⟩, rfl, hcached, fun _ => rfl, hfile, hlt⟩
  · intro p hdirty
    cases hdirty
  · intro p flag hflag
    cases hflag
  · intro p d hd _
    show pageAt file.content file.len p = some d
    have hd' : s.cache.getReadOnly p = some d := hd
    unfold pageAt
    by_cases hdirty : s.cache.isDirty p = true
    · rw [if_pos ((hlt p).mpr (.inr ⟨p, hdirty, by rw [hd']; rfl, Nat.le_refl p⟩)), hfile,
        if_pos hdirty, hd']
      rfl
    · have hpage := h.clean p d hd' (by simpa using hdirty)
      unfold filePage pageAt at hpage
      split_ifs at hpage with hp
      rw [if_pos ((hlt p).mpr (.inl hp)), hfile, if_neg hdirty]
      exact hpage

theorem pageAt_mono {content content' : PageNum → Option Bytes} {len len' : Nat} {p : PageNum} {d : Bytes}
    (h : pageAt content len p = some d) (hlen : p < len → p < len') (hcontent : content' p = content p) :
    pageAt content' len' p = some d := by
  unfold pageAt at h ⊢
  split_ifs at h with hp
  rw [if_pos (hlen hp), hcontent]
  exact h

theorem Flushed.view (h : Flushed s s') {p : PageNum} {d : Bytes} (hview : s.view p = some d) :
    s'.view p = some d := by
  unfold CachedPager.view at hview ⊢
  rw [h.cached]
  cases hcached : s.cache.getReadOnly p with
  | some d' =>
    rw [hcached] at hview
    exact hview
  | none =>
    rw [hcached] at hview
    refine pageAt_mono hview (fun hp => (h.len p).mpr (.inl hp)) ?_
    rw [h.content, hcached]
    exact ite_self _

theorem Tidy.mem_getAllDirty (h : s.Tidy) (p : PageNum) :
    p ∈ s.cache.getAllDirty ↔ s.cache.isDirty p = true := by
  unfold LRUCacheInner.getAllDirty LRUCacheInner.isDirty
  rw [HashMap.mem_keys, ← HashMap.get?_isSome]
  cases hget : s.cache.dirty.get? p with
  | none => simp
  | some flag => simp [h.flagged p flag hget]

theorem Tidy.flush (h : s.Tidy) (hwritable : s.readOnly = false) :
    s.flush.1 = .ok () ∧ Flushed s s.flush.2 := by
  have hpages : ∀ p, p ∈ s.cache.getAllDirty.mergeSort ↔ s.cache.isDirty p = true := by
    intro p
    rw [(List.mergeSort_perm _ _).mem_iff]
    exact h.mem_getAllDirty p
  unfold CachedPager.flush
  rw [if_neg (by simp [hwritable]),
    writeBack_eq s.checks s.cache fun p hp => h.placed p ((hpages p).mp hp)]
  exact ⟨rfl, h.flushed hpages (Disk.content_sync _) (Disk.len_sync _)⟩

theorem Tidy.flushNoSync (h : s.Tidy) (hwritable : s.readOnly = false) :
    s.flushNoSync.1 = .ok () ∧ Flushed s s.flushNoSync.2 := by
  unfold CachedPager.flushNoSync
  rw [if_neg (by simp [hwritable]),
    writeBack_eq s.checks s.cache fun p hp => h.placed p ((h.mem_getAllDirty p).mp hp)]
  exact ⟨rfl, h.flushed h.mem_getAllDirty rfl rfl⟩

end Writes

section Runs

-- After the calls of the history on a pager that was opened on `file`.
structure Follows (file : Disk Bytes) (history : List Op) (s : CachedPager) : Prop where
  tidy : s.Tidy
  view : ∀ p, s.view p =
    (lastWritten s.readOnly p history).or (pageAt file.content s.file.len p)
  content : ∀ p, lastWritten s.readOnly p history = none → s.file.content p = file.content p
  dirty : ∀ p, s.cache.isDirty p = true → lastWritten s.readOnly p history ≠ none
  len : file.len ≤ s.file.len

variable {file : Disk Bytes} {history : List Op}

theorem Follows.same (h : Follows file history s) (hsame : Same s s') {op : Op}
    (hop : ∀ p, lastWritten s.readOnly p (op :: history) = lastWritten s.readOnly p history) :
    Follows file (op :: history) s' := by
  refine ⟨hsame.tidy, ?_, ?_, ?_, hsame.file ▸ h.len⟩
  · intro p
    rw [hsame.view, hsame.readOnly, hsame.file, hop]
    exact h.view p
  · intro p
    rw [hsame.readOnly, hsame.file, hop]
    exact h.content p
  · intro p
    rw [hsame.readOnly, hop, LRUCacheInner.isDirty, hsame.dirty]
    exact h.dirty p

theorem Follows.flushed (h : Follows file history s) (hflush : Flushed s s') {op : Op}
    (hop : ∀ p, lastWritten s.readOnly p (op :: history) = lastWritten s.readOnly p history) :
    Follows file (op :: history) s' := by
  have hlen : ∀ n, n < s.file.len → n < s'.file.len := fun n hn => (hflush.len n).mpr (.inl hn)
  have hcontent : ∀ p, lastWritten s.readOnly p history = none → s'.file.content p = file.content p := by
    intro p hp
    rw [hflush.content, if_neg fun hdirty => h.dirty p hdirty hp]
    exact h.content p hp
  refine ⟨hflush.tidy, ?_, ?_, ?_, ?_⟩
  · intro p
    rw [hflush.readOnly, hop]
    have hview := h.view p
    cases hwritten : lastWritten s.readOnly p history with
    | some d =>
      rw [hwritten] at hview
      exact hflush.view hview
    | none =>
      rw [hwritten, Option.none_or] at hview
      rw [Option.none_or]
      cases hcached : s.cache.getReadOnly p with
      | some d =>
        have hd : s.view p = some d := by
          rw [CachedPager.view, hcached]
          rfl
        rw [hflush.view hd]
        exact (pageAt_mono (hview.symm.trans hd) (hlen p) rfl).symm
      | none =>
        rw [CachedPager.view, hflush.cached, hcached, Option.none_or, filePage, pageAt, pageAt,
          hcontent p hwritten]
  · intro p
    rw [hflush.readOnly, hop]
    exact hcontent p
  · intro p hdirty
    rw [hflush.clean] at hdirty
    cases hdirty
  · have hlast := h.len
    by_contra hlt
    have hn := hlen s'.file.len (by omega)
    omega

theorem Follows.write (h : Follows file history s) (hplace : InPlace pageNum) (data : Bytes) :
    Follows file (.write pageNum data :: history) (s.writePageTransfer pageNum data).2 := by
  have hrejected : ¬ (s.readOnly = false ∧ data.length = PAGE_SIZE) →
      Follows file (.write pageNum data :: history) s := by
    intro hnot
    refine h.same ⟨h.tidy, rfl, rfl, rfl, rfl⟩ ?_
    intro p
    rw [lastWritten, if_neg fun hacc => hnot hacc.2]
  unfold CachedPager.writePageTransfer
  split
  next hro => exact hrejected fun hacc => by simp [hacc.1] at hro
  next hro =>
    split
    next hsize => exact hrejected fun hacc => hsize hacc.2
    next hsize =>
      have haccepted : s.readOnly = false ∧ data.length = PAGE_SIZE :=
        ⟨by simpa using hro, not_not.mp hsize⟩
      obtain ⟨htidy, hview⟩ := h.tidy.putDirty hplace data
      have hwritten : ∀ p, lastWritten s.readOnly p (.write pageNum data :: history) =
          if p = pageNum then some data else lastWritten s.readOnly p history := by
        intro p
        rw [lastWritten]
        by_cases hp : p = pageNum
        · rw [if_pos ⟨hp.symm, haccepted⟩, if_pos hp]
        · rw [if_neg fun hacc => hp hacc.1.symm, if_neg hp]
      refine ⟨htidy, ?_, ?_, ?_, h.len⟩
      · intro p
        rw [hview, hwritten, Function.update_apply]
        split
        · rfl
        · exact h.view p
      · intro p hnone
        rw [hwritten] at hnone
        split_ifs at hnone
        exact h.content p hnone
      · intro p hdirty
        rw [hwritten]
        split
        · simp
        next hp =>
          rw [LRUCacheInner.isDirty, LRUCacheInner.dirty_putDirtyAtomic, HashMap.get?_insert, if_neg hp] at hdirty
          exact h.dirty p hdirty

theorem Follows.step (h : Follows file history s) {op : Op} (hop : op.Within) :
    Follows file (op :: history) (s.step op).2 := by
  have hrefl : Same s s := ⟨h.tidy, rfl, rfl, rfl, rfl⟩
  cases op with
  | write pageNum data => exact h.write hop data
  | read pageNum => exact h.same (h.tidy.readPage hop).2 fun _ => rfl
  | readShared pageNum => exact h.same (h.tidy.readPageShared hop).2 fun _ => rfl
  | flush =>
    cases hro : s.readOnly with
    | true =>
      have hself : s.flush = (.ok (), s) := if_pos hro
      rw [CachedPager.step, hself]
      exact h.same hrefl fun _ => rfl
    | false => exact h.flushed (h.tidy.flush hro).2 fun _ => rfl
  | flushNoSync =>
    cases hro : s.readOnly with
    | true =>
      have hself : s.flushNoSync = (.ok (), s) := if_pos hro
      rw [CachedPager.step, hself]
      exact h.same hrefl fun _ => rfl
    | false => exact h.flushed (h.tidy.flushNoSync hro).2 fun _ => rfl

theorem lastWritten_readOnly (p : PageNum) (history : List Op) : lastWritten true p history = none := by
  induction history with
  | nil => rfl
  | cons op older ih =>
    cases op with
    | write pageNum data =>
      rw [lastWritten, if_neg (by simp)]
      exact ih
    | _ => exact ih

-- Without dirty pages the file is what a reader sees.
theorem Follows.filePage (h : Follows file history s) {p : PageNum}
    (hclean : s.readOnly = false → s.cache.isDirty p = false) :
    s.filePage p = (lastWritten s.readOnly p history).or (pageAt file.content s.file.len p) := by
  rw [← h.view, h.tidy.view_of_clean]
  cases hro : s.readOnly with
  | false => exact hclean hro
  | true =>
    by_contra hdirty
    have hwritten := h.dirty p (by simpa using hdirty)
    rw [hro] at hwritten
    exact hwritten (lastWritten_readOnly p history)

theorem readOnly_step (s : CachedPager) (op : Op) : (s.step op).2.readOnly = s.readOnly := by
  cases op with
  | write pageNum data =>
    simp only [step, writePageTransfer]
    split
    · rfl
    · split
      · rfl
      · rfl
  | read pageNum =>
    simp only [step, readPage]
    split
    · rfl
    · split
      · rfl
      · rfl
  | readShared pageNum =>
    simp only [step, readPageShared]
    split
    · rfl
    · split
      · rfl
      · rfl
  | flush =>
    simp only [step, flush]
    split
    · rfl
    · split
      · rfl
      · rfl
  | flushNoSync =>
    simp only [step, flushNoSync]
    split
    · rfl
    · split
      · rfl
      · rfl

theorem follows_run (checks : Bool) (capacity : Nat) (file : Disk Bytes) (readOnly : Bool) {ops : List Op}
    (hops : ∀ op ∈ ops, op.Within) :
    Follows file ops.reverse ((opened checks capacity file readOnly).run ops) ∧
      ((opened checks capacity file readOnly).run ops).readOnly = readOnly := by
  induction ops using List.reverseRecOn with
  | nil =>
    refine ⟨⟨tidy_opened checks capacity file readOnly, fun _ => rfl, fun _ _ => rfl, ?_,
      Nat.le_refl _⟩, rfl⟩
    intro p hdirty
    cases hdirty
  | append_singleton ops op ih =>
    obtain ⟨h, hro⟩ := ih fun op hop => hops op (List.mem_append_left _ hop)
    rw [run, List.foldl_append, List.reverse_append]
    exact ⟨h.step (hops op (by simp)), (readOnly_step _ op).trans hro⟩

end Runs

-- In every run over pages in place, in builds with and without overflow checks, a page reads as it
-- was last written or, if it never was, as the file has it, and a flush succeeds and leaves the last
-- content of every page in the file.
theorem cache_transparent (checks : Bool) (capacity : Nat) (file : Disk Bytes) (readOnly : Bool)
    {ops : List Op} (hops : ∀ op ∈ ops, op.Within) :
    file.len ≤ ((opened checks capacity file readOnly).run ops).file.len ∧
    (∀ p, InPlace p →
      (((opened checks capacity file readOnly).run ops).readPage p).1 =
        readExact ((lastWritten readOnly p ops.reverse).or
          (pageAt file.content ((opened checks capacity file readOnly).run ops).file.len p)) ∧
      (((opened checks capacity file readOnly).run ops).readPageShared p).1 =
        readExact ((lastWritten readOnly p ops.reverse).or
          (pageAt file.content ((opened checks capacity file readOnly).run ops).file.len p))) ∧
    ((opened checks capacity file readOnly).run ops).flush.1 = .ok () ∧
    ((opened checks capacity file readOnly).run ops).flushNoSync.1 = .ok () ∧
    ∀ p,
      ((opened checks capacity file readOnly).run ops).flush.2.filePage p =
        (lastWritten readOnly p ops.reverse).or
          (pageAt file.content ((opened checks capacity file readOnly).run ops).flush.2.file.len p) ∧
      ((opened checks capacity file readOnly).run ops).flushNoSync.2.filePage p =
        (lastWritten readOnly p ops.reverse).or
          (pageAt file.content ((opened checks capacity file readOnly).run ops).flushNoSync.2.file.len p) := by
  obtain ⟨h, hro⟩ := follows_run checks capacity file readOnly hops
  generalize (opened checks capacity file readOnly).run ops = s at h hro ⊢
  subst hro
  have hok : s.flush.1 = .ok () ∧ s.flushNoSync.1 = .ok () := by
    cases hro : s.readOnly with
    | true => exact ⟨congrArg Prod.fst (if_pos hro), congrArg Prod.fst (if_pos hro)⟩
    | false => exact ⟨(h.tidy.flush hro).1, (h.tidy.flushNoSync hro).1⟩
  refine ⟨h.len, fun p hplace => ⟨?_, ?_⟩, hok.1, hok.2, fun p => ⟨?_, ?_⟩⟩
  · rw [(h.tidy.readPage hplace).1, h.view]
  · rw [(h.tidy.readPageShared hplace).1, h.view]
  · have hflush := @Follows.filePage _ _ _ (@Follows.step _ _ _ h .flush trivial) p fun hro =>
      (h.tidy.flush ((readOnly_step s .flush).symm.trans hro)).2.clean p
    exact (readOnly_step s .flush) ▸ hflush
  · have hflush := @Follows.filePage _ _ _ (@Follows.step _ _ _ h .flushNoSync trivial) p fun hro =>
      (h.tidy.flushNoSync ((readOnly_step s .flushNoSync).symm.trans hro)).2.clean p
    exact (readOnly_step s .flushNoSync) ▸ hflush

-- A page is written, flushed, and dropped from a cache of one page by the next.
def evicting : List Op := [.write 3 (filledPage 7), .flush, .write 4 (filledPage 8)]

theorem cache_transparent_evicting :
    (((opened true 1 .empty false).run evicting).readPage 3).1 = .ok (filledPage 7) := by
  have hwithin : ∀ op ∈ evicting, op.Within := by
    intro op hop
    simp only [evicting, List.mem_cons, List.not_mem_nil, or_false] at hop
    rcases hop with rfl | rfl | rfl
    · exact (by decide : InPlace 3)
    · trivial
    · exact (by decide : InPlace 4)
  have hwritten : lastWritten false 3 evicting.reverse = some (filledPage 7) := by
    simp [evicting, lastWritten, length_filledPage]
  rw [((cache_transparent true 1 .empty false hwithin).2.1 3 (by decide)).1, hwritten]
  rfl

-- Page 2^52 + 1. The first 64 bits of its offset are those of page 1.
def farPage : PageNum := 4503599627370497

-- That page is written, over a file that has a page 1.
def farWritten (checks : Bool) : CachedPager :=
  (opened checks 4 (Disk.empty.write 1 (filledPage 2)).sync false).run [.write farPage (filledPage 1)]

def farCache : LRUCacheInner Bytes := (LRUCacheInner.new 4).putDirtyAtomic farPage (filledPage 1)

theorem farWritten_eq (checks : Bool) : farWritten checks =
    ⟨farCache, (Disk.empty.write 1 (filledPage 2)).sync, false, checks⟩ := by
  have hsize : ¬ (filledPage 1).length ≠ PAGE_SIZE := not_not.mpr (length_filledPage 1)
  simp only [farWritten, run, List.foldl_cons, List.foldl_nil, step, writePageTransfer, opened,
    Bool.false_eq_true, if_false, if_neg hsize, farCache]

theorem writeBack_farPage (checks : Bool) (file : Disk Bytes) :
    writeBack checks farCache (farCache.getAllDirty.mergeSort) file =
      if checks then (.error (.panic "attempt to multiply with overflow"), file)
      else (.ok (), file.write 1 (filledPage 1)) := by
  have hdirty : farCache.getAllDirty.mergeSort = [farPage] := by decide +kernel
  have hcached : farCache.getReadOnly farPage = some (filledPage 1) := by
    rcases (LRUCacheInner.refines_new 4).getReadOnly_putDirtyAtomic farPage (filledPage 1) farPage with
      heq | ⟨-, hne, -⟩
    · exact heq.trans (if_pos rfl)
    · exact absurd rfl hne
  have hcut : landing false (UInt64.ofNat farPage) = .ok 1 := by decide +kernel
  have hpanics : landing true (UInt64.ofNat farPage) =
      .error (.panic "attempt to multiply with overflow") := by decide +kernel
  rw [hdirty]
  cases checks with
  | true => simp only [writeBack, hcached, hpanics, if_true]
  | false => simp only [writeBack, hcached, hcut, Bool.false_eq_true, if_false]

-- Without overflow checks the flush puts it over page 1, which nobody wrote. With checks it is a panic.
theorem farPage_flushed : lastWritten false 1 [.write farPage (filledPage 1)] = none ∧
    (farWritten false).filePage 1 = some (filledPage 2) ∧
    (farWritten false).flush.1 = .ok () ∧
    (farWritten false).flush.2.filePage 1 = some (filledPage 1) ∧
    (farWritten false).flush.2.filePage farPage = none ∧
    (farWritten true).flush.1 = .error (.panic "attempt to multiply with overflow") := by
  rw [farWritten_eq, farWritten_eq]
  simp only [flush, writeBack_farPage, Bool.false_eq_true, if_false, if_true]
  have hbeyond : ∀ content : PageNum → Option Bytes, pageAt content 2 farPage = none :=
    fun _ => if_neg (by decide)
  exact ⟨rfl, rfl, trivial, rfl, hbeyond _, trivial⟩

end CachedPager

end JasonDb
