import JasonDb.Pager.Cached

namespace JasonDb.CachedPager

open Lib

-- What later calls return.
def trace : CachedPager → List Op → List Reply
  | _, [] => []
  | s, op :: ops => (s.step op).1 :: trace (s.step op).2 ops

-- No later call on a page in place tells them apart.
def Equivalent (s s' : CachedPager) : Prop :=
  ∀ ops : List Op, (∀ op ∈ ops, op.Within) → s.trace ops = s'.trace ops

-- The pagers after calls on pages in place.
inductive Reached : CachedPager → Prop
  | opened (checks : Bool) (capacity : Nat) (file : Disk Bytes) (readOnly : Bool) :
      Reached (opened checks capacity file readOnly)
  | step {s : CachedPager} {op : Op} : op.Within → Reached s → Reached (s.step op).2
  | writePage {s : CachedPager} {pageNum : PageNum} (data : Bytes) :
      InPlace pageNum → Reached s → Reached (s.writePage pageNum data).2
  | free {s : CachedPager} (pageNum : PageNum) :
      Reached s → Reached { s with cache := s.cache.remove pageNum }

-- The page is cached or flagged already, there is room for it, another page can be evicted, or
-- the file has this content anyway.
def Retained (s : CachedPager) (pageNum : PageNum) (data : Bytes) : Prop :=
  pageNum ∈ s.cache.cache ∨ s.cache.isDirty pageNum = true ∨
    s.cache.cache.keys.length < s.cache.capacity ∨
    (∃ p ∈ s.cache.cache, s.cache.isDirty p = false) ∨ s.filePage pageNum = some data

variable {s s' : CachedPager} {pageNum : PageNum} {data : Bytes}

section Agree

-- Both show the same pages, and their files have the same length and the same bytes.
structure Agree (s s' : CachedPager) : Prop where
  left : s.Tidy
  right : s'.Tidy
  readOnly : s.readOnly = s'.readOnly
  view : s.view = s'.view
  len : s.file.len = s'.file.len
  bytes : ∀ p, (s.file.content p).getD zeroPage = (s'.file.content p).getD zeroPage

theorem filePage_eq (s : CachedPager) (p : PageNum) :
    s.filePage p = if p < s.file.len then some ((s.file.content p).getD zeroPage) else none := rfl

-- The file after a flush is determined by what could be seen before it.
theorem Tidy.bytes_flushed (h : s.Tidy) (hflush : Flushed s s') (p : PageNum) :
    (s'.file.content p).getD zeroPage = (s.view p).getD ((s.file.content p).getD zeroPage) := by
  have hkept : s.view p = s.filePage p →
      (s.file.content p).getD zeroPage = (s.view p).getD ((s.file.content p).getD zeroPage) := by
    intro hview
    rw [hview, filePage_eq]
    split
    · rfl
    · rfl
  rw [hflush.content]
  by_cases hdirty : s.cache.isDirty p = true
  · rw [if_pos hdirty]
    cases hcached : s.cache.getReadOnly p with
    | some d =>
      rw [view, hcached]
      rfl
    | none =>
      refine hkept ?_
      rw [view, hcached]
      rfl
  · rw [if_neg hdirty]
    exact hkept (h.view_of_clean (by simpa using hdirty))

theorem Tidy.len_flushed (h : s.Tidy) (hflush : Flushed s s') (n : Nat) :
    n < s'.file.len ↔ n < s.file.len ∨ ∃ p, (s.view p).isSome ∧ n ≤ p := by
  rw [hflush.len]
  constructor
  · rintro (hn | ⟨p, -, hcached, hn⟩)
    · exact .inl hn
    · refine .inr ⟨p, ?_, hn⟩
      rw [view, Option.isSome_or, hcached]
      rfl
  · rintro (hn | ⟨p, hview, hn⟩)
    · exact .inl hn
    · by_cases hcached : s.cache.isDirty p = true ∧ (s.cache.getReadOnly p).isSome
      · exact .inr ⟨p, hcached.1, hcached.2, hn⟩
      · -- The page is in the file already.
        have hfile : s.view p = s.filePage p := by
          by_cases hdirty : s.cache.isDirty p = true
          · have hnone : s.cache.getReadOnly p = none := by
              rw [← Option.not_isSome_iff_eq_none]
              exact fun hsome => hcached ⟨hdirty, hsome⟩
            rw [view, hnone]
            rfl
          · exact h.view_of_clean (by simpa using hdirty)
        rw [hfile, filePage_eq] at hview
        split_ifs at hview with hp
        · exact .inl (Nat.lt_of_le_of_lt hn hp)
        · cases hview

theorem Agree.flushed {f f' : CachedPager} (h : Agree s s') (hf : Flushed s f) (hf' : Flushed s' f') :
    Agree f f' ∧ f.filePage = f'.filePage := by
  have hbytes : ∀ p, (f.file.content p).getD zeroPage = (f'.file.content p).getD zeroPage := by
    intro p
    rw [h.left.bytes_flushed hf, h.right.bytes_flushed hf', h.view, h.bytes]
  have hlen : f.file.len = f'.file.len := by
    have hlt : ∀ n, n < f.file.len ↔ n < f'.file.len := by
      intro n
      rw [h.left.len_flushed hf, h.right.len_flushed hf', h.view, h.len]
    have h₁ := (hlt f'.file.len).not.mpr (Nat.lt_irrefl _)
    have h₂ := (hlt f.file.len).not.mp (Nat.lt_irrefl _)
    omega
  have hfile : f.filePage = f'.filePage := by
    funext p
    rw [filePage_eq, filePage_eq, hlen, hbytes]
  refine ⟨⟨hf.tidy, hf'.tidy, ?_, ?_, hlen, hbytes⟩, hfile⟩
  · rw [hf.readOnly, hf'.readOnly]
    exact h.readOnly
  · funext p
    rw [hf.tidy.view_of_clean (hf.clean p), hf'.tidy.view_of_clean (hf'.clean p), hfile]

theorem Agree.same {f f' : CachedPager} (h : Agree s s') (hf : Same s f) (hf' : Same s' f') : Agree f f' := by
  refine ⟨hf.tidy, hf'.tidy, ?_, ?_, ?_, ?_⟩
  · rw [hf.readOnly, hf'.readOnly]
    exact h.readOnly
  · rw [hf.view, hf'.view]
    exact h.view
  · rw [hf.file, hf'.file]
    exact h.len
  · rw [hf.file, hf'.file]
    exact h.bytes

theorem Agree.filePage (h : Agree s s') : s.filePage = s'.filePage := by
  funext p
  rw [filePage_eq, filePage_eq, h.len, h.bytes]

theorem Agree.write (h : Agree s s') (hplace : InPlace pageNum) (data : Bytes) :
    (s.writePageTransfer pageNum data).1 = (s'.writePageTransfer pageNum data).1 ∧
      Agree (s.writePageTransfer pageNum data).2 (s'.writePageTransfer pageNum data).2 := by
  unfold writePageTransfer
  by_cases hro : s'.readOnly = true
  · rw [if_pos hro, if_pos (h.readOnly.trans hro)]
    exact ⟨rfl, h⟩
  · rw [if_neg hro, if_neg fun hleft => hro (h.readOnly.symm.trans hleft)]
    split
    · exact ⟨rfl, h⟩
    · obtain ⟨hleft, hview⟩ := h.left.putDirty hplace data
      obtain ⟨hright, hview'⟩ := h.right.putDirty hplace data
      refine ⟨rfl, hleft, hright, h.readOnly, ?_, h.len, h.bytes⟩
      rw [hview, hview', h.view]

theorem Agree.step (h : Agree s s') {op : Op} (hop : op.Within) :
    (s.step op).1 = (s'.step op).1 ∧ Agree (s.step op).2 (s'.step op).2 := by
  cases op with
  | write pageNum data =>
    obtain ⟨hanswer, hagree⟩ := h.write hop data
    exact ⟨congrArg Reply.written hanswer, hagree⟩
  | read pageNum =>
    obtain ⟨hanswer, hsame⟩ := h.left.readPage hop
    obtain ⟨hanswer', hsame'⟩ := h.right.readPage hop
    simp only [CachedPager.step, hanswer, hanswer', h.view]
    exact ⟨trivial, h.same hsame hsame'⟩
  | readShared pageNum =>
    obtain ⟨hanswer, hsame⟩ := h.left.readPageShared hop
    obtain ⟨hanswer', hsame'⟩ := h.right.readPageShared hop
    simp only [CachedPager.step, hanswer, hanswer', h.view]
    exact ⟨trivial, h.same hsame hsame'⟩
  | flush =>
    cases hro : s.readOnly with
    | true =>
      have hself : s.flush = (.ok (), s) := if_pos hro
      have hself' : s'.flush = (.ok (), s') := if_pos (h.readOnly.symm.trans hro)
      rw [CachedPager.step, CachedPager.step, hself, hself', h.filePage]
      exact ⟨rfl, h⟩
    | false =>
      obtain ⟨hok, hflush⟩ := h.left.flush hro
      obtain ⟨hok', hflush'⟩ := h.right.flush (h.readOnly.symm.trans hro)
      obtain ⟨hagree, hfile⟩ := h.flushed hflush hflush'
      exact ⟨congrArg₂ Reply.flushed (hok.trans hok'.symm) hfile, hagree⟩
  | flushNoSync =>
    cases hro : s.readOnly with
    | true =>
      have hself : s.flushNoSync = (.ok (), s) := if_pos hro
      have hself' : s'.flushNoSync = (.ok (), s') := if_pos (h.readOnly.symm.trans hro)
      rw [CachedPager.step, CachedPager.step, hself, hself', h.filePage]
      exact ⟨rfl, h⟩
    | false =>
      obtain ⟨hok, hflush⟩ := h.left.flushNoSync hro
      obtain ⟨hok', hflush'⟩ := h.right.flushNoSync (h.readOnly.symm.trans hro)
      obtain ⟨hagree, hfile⟩ := h.flushed hflush hflush'
      exact ⟨congrArg₂ Reply.flushed (hok.trans hok'.symm) hfile, hagree⟩

theorem Agree.equivalent (h : Agree s s') : Equivalent s s' := by
  intro ops hops
  induction ops generalizing s s' with
  | nil => rfl
  | cons op ops ih =>
    obtain ⟨hreply, hnext⟩ := h.step (hops op List.mem_cons_self)
    rw [trace, trace, hreply, ih hnext fun op' hop => hops op' (List.mem_cons_of_mem op hop)]

end Agree

section WritePage

theorem Tidy.markPut (h : s.Tidy) (hplace : InPlace pageNum) (data : Bytes) :
    Tidy { s with cache := (s.cache.put pageNum data).markDirty pageNum } ∧
      ∀ p, p ≠ pageNum →
        view { s with cache := (s.cache.put pageNum data).markDirty pageNum } p = s.view p := by
  obtain ⟨r, hr⟩ := h.refines
  have hkeeps := LRUCacheInner.keeps_put s.cache pageNum data
  have hput := hr.getReadOnly_put pageNum data
  have hdirty : ∀ p, ((s.cache.put pageNum data).markDirty pageNum).isDirty p =
      (decide (p = pageNum) || s.cache.isDirty p) := by
    intro p
    rw [LRUCacheInner.markDirty, LRUCacheInner.isDirty_insert, LRUCacheInner.isDirty, hkeeps.dirty]
    rfl
  refine ⟨⟨?_, ⟨_, (hr.put pageNum data).markDirty⟩, ?_, ?_⟩, ?_⟩
  · intro p hflagged
    rcases Bool.or_eq_true_iff.mp ((hdirty p).symm.trans hflagged) with hp | hp
    · exact of_decide_eq_true hp ▸ hplace
    · exact h.placed p hp
  · intro p flag hflag
    have hinsert : ((s.cache.put pageNum data).dirty.insert pageNum true).get? p = some flag := hflag
    rw [HashMap.get?_insert, hkeeps.dirty] at hinsert
    split_ifs at hinsert with hp
    · exact (Option.some.inj hinsert).symm
    · exact h.flagged p flag hinsert
  · intro p d hd hclean
    have hclean' := (hdirty p).symm.trans hclean
    rw [Bool.or_eq_false_iff, decide_eq_false_iff_not] at hclean'
    rcases hput p with heq | ⟨hnone, -⟩
    · rw [if_neg hclean'.1] at heq
      exact h.clean p d (heq.symm.trans hd) hclean'.2
    · exact absurd (hnone.symm.trans hd) (by simp)
  · intro p hp
    show ((s.cache.put pageNum data).getReadOnly p).or (s.filePage p) = s.view p
    rcases hput p with heq | ⟨hnone, hclean⟩
    · rw [heq, if_neg hp]
      rfl
    · rw [hnone, h.view_of_clean hclean]
      rfl

-- The page itself can be seen exactly if it was retained.
theorem Tidy.view_markPut (h : s.Tidy) (pageNum : PageNum) (data : Bytes) :
    view { s with cache := (s.cache.put pageNum data).markDirty pageNum } pageNum = some data ↔
      s.Retained pageNum data := by
  obtain ⟨r, hr⟩ := h.refines
  show ((s.cache.put pageNum data).getReadOnly pageNum).or (s.filePage pageNum) = some data ↔ _
  unfold Retained
  by_cases hcached : pageNum ∈ s.cache.cache
  · have hput : (s.cache.put pageNum data).getReadOnly pageNum = some data := by
      rw [(hr.put pageNum data).lookup, Recency.put, if_pos (hr.mem_keys.mpr hcached),
        Recency.lookup_touch, if_pos rfl]
    simp [hput, hcached]
  · have hnew : pageNum ∉ r.keys := fun hmem => hcached (hr.mem_keys.mp hmem)
    have hlength : s.cache.cache.keys.length = r.entries.length := hr.length
    have hclean : (∃ p ∈ s.cache.cache, s.cache.isDirty p = false) ↔
        ∃ e ∈ r.entries, r.dirty e.1 = false := by
      constructor
      · rintro ⟨p, hmem, hp⟩
        obtain ⟨e, he, rfl⟩ := List.mem_map.mp (hr.mem_keys.mpr hmem)
        exact ⟨e, he, (hr.dirty e.1).symm.trans hp⟩
      · rintro ⟨e, he, hclean⟩
        exact ⟨e.1, hr.mem_keys.mp (List.mem_map_of_mem he), (hr.dirty e.1).trans hclean⟩
    have hkept := Recency.lookup_put_new hnew data
    have hput := hr.getReadOnly_put pageNum data pageNum
    rw [hr.length, hr.capacity, hr.dirty, hclean, or_iff_right hcached, ← or_assoc, ← or_assoc,
      or_assoc (a := r.dirty pageNum = true), ← hkept]
    rw [if_pos rfl, (hr.put pageNum data).lookup] at hput
    rw [(hr.put pageNum data).lookup]
    rcases hput with heq | ⟨hnone, -⟩
    · simp [heq]
    · simp [hnone]

theorem Tidy.remove (h : s.Tidy) (pageNum : PageNum) :
    Tidy { s with cache := s.cache.remove pageNum } := by
  obtain ⟨r, hr⟩ := h.refines
  have hdirty : (s.cache.remove pageNum).dirty = s.cache.dirty ∨
      (s.cache.remove pageNum).dirty = s.cache.dirty.erase pageNum := by
    unfold LRUCacheInner.remove
    split
    next idx _ =>
      have hkeeps := LRUCacheInner.keeps_removeNode
        { s.cache with cache := s.cache.cache.erase pageNum } idx
      exact .inr (congrArg (HashMap.erase · pageNum) hkeeps.dirty)
    next => exact .inl rfl
  have hget : ∀ p, p ≠ pageNum → (s.cache.remove pageNum).dirty.get? p = s.cache.dirty.get? p := by
    intro p hp
    rcases hdirty with heq | heq
    · rw [heq]
    · rw [heq, HashMap.get?_erase, if_neg hp]
  refine ⟨?_, ⟨_, hr.remove pageNum⟩, ?_, ?_⟩
  · intro p hflagged
    refine h.placed p ?_
    rcases hdirty with heq | heq
    · rwa [LRUCacheInner.isDirty, heq] at hflagged
    · rw [LRUCacheInner.isDirty, heq, HashMap.get?_erase] at hflagged
      split_ifs at hflagged
      · cases hflagged
      · exact hflagged
  · intro p flag hflag
    rcases hdirty with heq | heq
    · exact h.flagged p flag (heq ▸ hflag)
    · rw [heq, HashMap.get?_erase] at hflag
      split_ifs at hflag
      exact h.flagged p flag hflag
  · intro p d hd hclean
    rw [(hr.remove pageNum).lookup, Recency.lookup_remove, ← hr.lookup] at hd
    split_ifs at hd with hp
    rw [LRUCacheInner.isDirty, hget p hp] at hclean
    exact h.clean p d hd hclean

theorem writePage_eq (hro : s.readOnly = false) (hsize : data.length = PAGE_SIZE) :
    s.writePage pageNum data =
      (.ok (), { s with cache := (s.cache.put pageNum data).markDirty pageNum }) := by
  unfold writePage
  rw [if_neg (by simp [hro]), if_neg (not_not.mpr hsize)]

theorem writePageTransfer_eq (hro : s.readOnly = false) (hsize : data.length = PAGE_SIZE) :
    s.writePageTransfer pageNum data =
      (.ok (), { s with cache := s.cache.putDirtyAtomic pageNum data }) := by
  unfold writePageTransfer
  rw [if_neg (by simp [hro]), if_neg (not_not.mpr hsize)]

theorem Tidy.step (h : s.Tidy) {op : Op} (hop : op.Within) : (s.step op).2.Tidy :=
  (Agree.step ⟨h, h, rfl, rfl, rfl, fun _ => rfl⟩ hop).2.left

theorem Reached.tidy (h : Reached s) : s.Tidy := by
  induction h with
  | opened checks capacity file readOnly => exact tidy_opened checks capacity file readOnly
  | step hop _ ih => exact ih.step hop
  | writePage data hplace _ ih =>
    unfold CachedPager.writePage
    split
    · exact ih
    split
    · exact ih
    · exact (ih.markPut hplace data).1
  | free pageNum _ ih => exact ih.remove pageNum

theorem view_of_equivalent (h : s.Tidy) (h' : s'.Tidy) (heq : Equivalent s s') {p : PageNum}
    (hplace : InPlace p) : s.view p = s'.view p := by
  have hread := heq [.read p] fun op hop => List.mem_singleton.mp hop ▸ hplace
  simp only [trace, CachedPager.step, (h.readPage hplace).1, (h'.readPage hplace).1, List.cons.injEq,
    Reply.page.injEq, and_true] at hread
  unfold readExact at hread
  cases hview : s.view p with
  | none =>
    cases hview' : s'.view p with
    | none => rfl
    | some d =>
      rw [hview, hview'] at hread
      cases hread
  | some d =>
    cases hview' : s'.view p with
    | none =>
      rw [hview, hview'] at hread
      cases hread
    | some d' =>
      rw [hview, hview'] at hread
      exact congrArg some (Except.ok.inj hread)

end WritePage

-- Where all pages are in place, the two ways to write a page cannot be told apart exactly when the
-- pager is read-only or the page is retained.
theorem writePage_equivalent_iff (h : Reached s) (hplace : InPlace pageNum)
    (hsize : data.length = PAGE_SIZE) :
    (s.writePage pageNum data).1 = (s.writePageTransfer pageNum data).1 ∧
      Equivalent (s.writePage pageNum data).2 (s.writePageTransfer pageNum data).2 ↔
    s.readOnly = true ∨ s.Retained pageNum data := by
  cases hro : s.readOnly with
  | true =>
    have hleft : (s.writePage pageNum data) =
        (.error (.other "cannot write page: database is read-only"), s) := if_pos hro
    have hright : (s.writePageTransfer pageNum data) =
        (.error (.other "cannot write page: database is read-only"), s) := if_pos hro
    rw [hleft, hright]
    exact ⟨fun _ => .inl rfl, fun _ => ⟨rfl, fun _ _ => rfl⟩⟩
  | false =>
    rw [writePage_eq hro hsize, writePageTransfer_eq hro hsize]
    obtain ⟨hleft, hothers⟩ := h.tidy.markPut hplace data
    obtain ⟨hright, hview⟩ := h.tidy.putDirty hplace data
    have hself := h.tidy.view_markPut pageNum data
    simp only [true_and, Bool.false_eq_true, false_or]
    rw [← hself]
    constructor
    · intro heq
      rw [view_of_equivalent hleft hright heq hplace, hview, Function.update_self]
    · intro hseen
      refine Agree.equivalent ⟨hleft, hright, rfl, ?_, rfl, fun _ => rfl⟩
      funext p
      rw [hview, Function.update_apply]
      split
      next hp => exact hp ▸ hseen
      next hp => exact hothers p hp

theorem writePage_equivalent_first :
    Equivalent ((opened true 1 .empty false).writePage 1 zeroPage).2
      ((opened true 1 .empty false).writePageTransfer 1 zeroPage).2 :=
  ((writePage_equivalent_iff (.opened true 1 .empty false) (show InPlace 1 by decide) (length_filledPage 0)).mpr
    (.inr (.inr (.inr (.inl (by decide)))))).2

-- A cache whose only page is dirty.
def full : CachedPager := ((opened true 1 .empty false).step (.write 1 zeroPage)).2

-- The next page is gone as soon as it is written.
theorem writePage_lost : Reached full ∧ (filledPage 1).length = PAGE_SIZE ∧
    ¬ Equivalent (full.writePage 2 (filledPage 1)).2
      (full.writePageTransfer 2 (filledPage 1)).2 := by
  have hfull : Reached full := .step (show InPlace 1 by decide) (.opened true 1 .empty false)
  have hplace : InPlace 2 := by decide
  refine ⟨hfull, length_filledPage 1, ?_⟩
  intro heq
  have hlost : ((full.writePage 2 (filledPage 1)).2.readPage 2).1 =
      .error (.io "failed to fill whole buffer") := by decide +kernel
  have hread : ((full.writePageTransfer 2 (filledPage 1)).2.readPage 2).1 =
      .ok (filledPage 1) := by
    obtain ⟨htidy, hview⟩ := hfull.tidy.putDirty hplace (filledPage 1)
    rw [writePageTransfer_eq (by decide +kernel) (length_filledPage 1), (htidy.readPage hplace).1, hview,
      Function.update_self]
    rfl
  have hreply := heq [.read 2] fun op hop => List.mem_singleton.mp hop ▸ hplace
  simp only [trace, step, hlost, hread, List.cons.injEq, Reply.page.injEq, reduceCtorEq, false_and]
    at hreply

end JasonDb.CachedPager
