import JasonDb.Codec.Document

namespace JasonDb.Codec

open Lib

section Layout

def headBytes (doc : VersionedDocument) : Bytes :=
  leBytes 8 doc.xmin ++ (leBytes 8 doc.xmax ++ (leBytes 2 (utf8 doc.id).length ++ (utf8 doc.id ++
    (leBytes 4 doc.data.length ++ doc.data.take (firstPageCapacity doc.id)))))

-- The first page of a document that goes on at page `next`.
def firstPageOf (doc : VersionedDocument) (next : PageNum) : Bytes :=
  headBytes doc ++ (leBytes 8 next ++ List.replicate (PAGE_SIZE - OVERFLOW_SIZE - (headBytes doc).length) 0)

def overflowPageOf (chunk : Bytes) (next : PageNum) : Bytes :=
  (chunk ++ List.replicate (MAX_OVERFLOW_DATA - chunk.length) 0) ++ (leBytes 8 next ++ [])

-- The data lies in this chain of pages.
inductive Chain (fetch : PageNum → Option Bytes) : List PageNum → Bytes → Prop
  | nil : Chain fetch [] []
  | cons {pageNum : PageNum} {pages : List PageNum} {data : Bytes} (nonempty : data ≠ [])
      (nonzero : pageNum ≠ 0)
      (page : fetch pageNum = some (overflowPageOf (data.take MAX_OVERFLOW_DATA) (pages.headD 0)))
      (rest : Chain fetch pages (data.drop MAX_OVERFLOW_DATA)) : Chain fetch (pageNum :: pages) data

-- The document lies in this page and in the chain behind it.
structure Stored (fetch : PageNum → Option Bytes) (doc : VersionedDocument) (firstPage : PageNum)
    (pages : List PageNum) : Prop where
  first : fetch firstPage = some (firstPageOf doc (pages.headD 0))
  chain : Chain fetch pages (doc.data.drop (firstPageCapacity doc.id))

variable {fetch fetch' : PageNum → Option Bytes} {doc : VersionedDocument} {firstPage : PageNum}
  {pages : List PageNum} {data chunk : Bytes}

theorem Chain.mono (h : Chain fetch pages data)
    (hsame : ∀ p ∈ pages, ∀ page, fetch p = some page → fetch' p = some page) :
    Chain fetch' pages data := by
  induction h with
  | nil => exact .nil
  | cons nonempty nonzero page rest ih =>
    exact .cons nonempty nonzero (hsame _ List.mem_cons_self _ page)
      (ih fun p hp => hsame p (List.mem_cons_of_mem _ hp))

theorem Stored.mono (h : Stored fetch doc firstPage pages)
    (hsame : ∀ p ∈ firstPage :: pages, ∀ page, fetch p = some page → fetch' p = some page) :
    Stored fetch' doc firstPage pages :=
  ⟨hsame firstPage List.mem_cons_self _ h.first,
    h.chain.mono fun p hp => hsame p (List.mem_cons_of_mem firstPage hp)⟩

-- Where a document lies, its bytes are determined.
theorem Chain.fetch_eq (h : Chain fetch pages data) (h' : Chain fetch' pages data) :
    ∀ p ∈ pages, fetch p = fetch' p := by
  induction h with
  | nil => exact fun p hp => absurd hp List.not_mem_nil
  | cons nonempty nonzero page rest ih =>
    cases h' with
    | cons nonempty' nonzero' page' rest' =>
      intro p hp
      rcases List.mem_cons.mp hp with rfl | hp
      · exact page.trans page'.symm
      · exact ih rest' p hp

theorem Stored.fetch_eq (h : Stored fetch doc firstPage pages) (h' : Stored fetch' doc firstPage pages) :
    ∀ p ∈ firstPage :: pages, fetch p = fetch' p := by
  intro p hp
  rcases List.mem_cons.mp hp with rfl | hp
  · exact h.first.trans h'.first.symm
  · exact h.chain.fetch_eq h'.chain p hp

theorem firstPageCapacity_add {id : String} (hid : id.utf8ByteSize ≤ 255) :
    firstPageCapacity id + id.utf8ByteSize + 22 = PAGE_SIZE - OVERFLOW_SIZE := by
  unfold firstPageCapacity FIRST_PAGE_HEADER PAGE_SIZE OVERFLOW_SIZE
  omega

theorem length_headBytes (doc : VersionedDocument) : (headBytes doc).length =
    22 + doc.id.utf8ByteSize + min (firstPageCapacity doc.id) doc.data.length := by
  simp only [headBytes, List.length_append, length_leBytes, length_utf8, List.length_take]
  omega

theorem length_headBytes_le (hid : doc.id.utf8ByteSize ≤ 255) :
    (headBytes doc).length ≤ PAGE_SIZE - OVERFLOW_SIZE := by
  have hcap := firstPageCapacity_add hid
  rw [length_headBytes]
  omega

theorem length_firstPageOf (hid : doc.id.utf8ByteSize ≤ 255) (next : PageNum) :
    (firstPageOf doc next).length = PAGE_SIZE := by
  have hle := length_headBytes_le hid
  simp only [firstPageOf, List.length_append, length_leBytes, List.length_replicate]
  unfold PAGE_SIZE OVERFLOW_SIZE at *
  omega

theorem length_overflowPageOf (hchunk : chunk.length ≤ MAX_OVERFLOW_DATA) (next : PageNum) :
    (overflowPageOf chunk next).length = PAGE_SIZE := by
  simp only [overflowPageOf, List.length_append, length_leBytes, List.length_replicate,
    List.length_nil]
  unfold MAX_OVERFLOW_DATA PAGE_SIZE at *
  omega

end Layout

section Fill

variable {doc : VersionedDocument} {data chunk : Bytes}

theorem copyAt_middle (front src back : Bytes) {old : Bytes} {offset : Nat}
    (hoffset : offset = front.length) (hold : old.length = src.length) :
    copyAt (front ++ (old ++ back)) offset src = .ok (front ++ (src ++ back)) := by
  subst hoffset
  unfold copyAt Cursor.write
  rw [if_pos (by simp only [List.length_append]; omega)]
  simp only
  rw [List.take_left, List.drop_length_add_append, ← hold, List.drop_left, List.append_assoc]

theorem leBytes_zero (width : Nat) : leBytes width 0 = List.replicate width 0 := by
  induction width with
  | zero => rfl
  | succ width ih =>
    rw [leBytes, ih]
    rfl

-- The pointer at the end of an overflow page is set.
theorem copyAt_overflowPageOf (hchunk : chunk.length ≤ MAX_OVERFLOW_DATA) (next next' : PageNum) :
    copyAt (overflowPageOf chunk next) (PAGE_SIZE - OVERFLOW_SIZE) (leBytes 8 next') =
      .ok (overflowPageOf chunk next') := by
  refine copyAt_middle _ (leBytes 8 next') [] ?_ (by rw [length_leBytes, length_leBytes])
  rw [List.length_append, List.length_replicate]
  unfold PAGE_SIZE OVERFLOW_SIZE
  unfold MAX_OVERFLOW_DATA PAGE_SIZE at *
  omega

theorem copyAt_firstPageOf (next next' : PageNum) :
    copyAt (firstPageOf doc next) (headBytes doc).length (leBytes 8 next') =
      .ok (firstPageOf doc next') :=
  copyAt_middle _ (leBytes 8 next') _ rfl (by rw [length_leBytes, length_leBytes])

theorem fillOverflowPage_eq (hchunk : chunk.length ≤ MAX_OVERFLOW_DATA) :
    fillOverflowPage chunk = .ok (overflowPageOf chunk 0) := by
  have hsize : chunk.length ≤ PAGE_SIZE := le_trans hchunk (Nat.sub_le PAGE_SIZE 8)
  have hzeros : zeroPage = [] ++ (List.replicate chunk.length 0 ++
      List.replicate (PAGE_SIZE - chunk.length) 0) := by
    rw [List.nil_append, List.replicate_append_replicate, Nat.add_sub_cancel' hsize]
    rfl
  have hchunkAt : copyAt zeroPage 0 chunk = .ok (overflowPageOf chunk 0) := by
    rw [hzeros, copyAt_middle [] chunk _ List.length_nil.symm List.length_replicate, List.nil_append]
    have hsplit : PAGE_SIZE - chunk.length = MAX_OVERFLOW_DATA - chunk.length + 8 := by
      unfold MAX_OVERFLOW_DATA PAGE_SIZE at *
      omega
    rw [hsplit, ← List.replicate_append_replicate, overflowPageOf, leBytes_zero, List.append_nil,
      List.append_assoc]
  unfold fillOverflowPage
  rw [hchunkAt]
  exact copyAt_overflowPageOf hchunk 0 0

theorem fillFirstPage_eq (hid : doc.id.utf8ByteSize ≤ 255) :
    fillFirstPage doc.id doc.data doc.xmin doc.xmax =
      .ok (firstPageOf doc 0, (headBytes doc).length) := by
  have hle := length_headBytes_le hid
  have hfields : [leBytes 8 doc.xmin, leBytes 8 doc.xmax, leBytes 2 (utf8 doc.id).length, utf8 doc.id,
      leBytes 4 doc.data.length, doc.data.take (firstPageCapacity doc.id)].flatten = headBytes doc := by
    simp [headBytes]
  have hrest : zeroPage.drop (headBytes doc).length = leBytes 8 0 ++
      List.replicate (PAGE_SIZE - OVERFLOW_SIZE - (headBytes doc).length) 0 := by
    have hsplit : PAGE_SIZE - (headBytes doc).length =
        8 + (PAGE_SIZE - OVERFLOW_SIZE - (headBytes doc).length) := by
      unfold PAGE_SIZE OVERFLOW_SIZE at *
      omega
    rw [zeroPage, filledPage, List.drop_replicate, hsplit, ← List.replicate_append_replicate, leBytes_zero]
  have hsize : (headBytes doc).length ≤ zeroPage.length := by
    rw [zeroPage, filledPage, List.length_replicate]
    exact le_trans hle (Nat.sub_le PAGE_SIZE OVERFLOW_SIZE)
  unfold fillFirstPage
  simp only
  rw [Cursor.writeAll_start, hfields, if_pos hsize]
  simp only [Cursor.after, hrest]
  have hpage : headBytes doc ++ (leBytes 8 0 ++
      List.replicate (PAGE_SIZE - OVERFLOW_SIZE - (headBytes doc).length) 0) = firstPageOf doc 0 := rfl
  rw [hpage, copyAt_firstPageOf 0 0]
  rfl

end Fill

section Write

-- The pages the next allocations return.
def handedOut (freeList : List PageNum) (numPages : Nat) : Nat → List PageNum
  | 0 => []
  | count + 1 => match freeList.getLast? with
    | some pageNum => pageNum :: handedOut freeList.dropLast numPages count
    | none => numPages :: handedOut [] (numPages + 1) count

def PageStore.next (s : PageStore) (count : Nat) : List PageNum :=
  handedOut s.freeList s.numPages count

-- How many overflow pages take this many bytes.
def chunkCount (size : Nat) : Nat := (size + MAX_OVERFLOW_DATA - 1) / MAX_OVERFLOW_DATA

theorem chunkCount_pos {data : Bytes} (h : data ≠ []) :
    chunkCount data.length = chunkCount (data.drop MAX_OVERFLOW_DATA).length + 1 := by
  have hpos := List.length_pos_iff.mpr h
  rw [List.length_drop]
  unfold chunkCount MAX_OVERFLOW_DATA PAGE_SIZE
  omega

theorem length_handedOut (freeList : List PageNum) (numPages count : Nat) :
    (handedOut freeList numPages count).length = count := by
  induction count generalizing freeList numPages with
  | zero => rfl
  | succ count ih =>
    unfold handedOut
    split
    · rw [List.length_cons, ih]
    · rw [List.length_cons, ih]

variable {α ℓ : Type} {l l' : ℓ} {s s' : PageStore}

def PageStore.put (s : PageStore) (pageNum : PageNum) (data : Bytes) : PageStore :=
  { s with cache := Function.update s.cache pageNum (some data) }

theorem exec_writePageTransfer (pageNum : PageNum) {data : Bytes} (hwrite : s.readOnly = false)
    (hdata : data.length = PAGE_SIZE) (l : ℓ) :
    Proc.exec (writePageTransfer pageNum data) l s = (.ok (), l, s.put pageNum data) := by
  unfold writePageTransfer
  rw [Proc.exec_atomicE]
  simp [PageStore.writePageTransfer, hwrite, hdata, PageStore.put]

theorem exec_orFree {m : PageM ℓ α} {a : α} (allocated : List PageNum)
    (h : Proc.exec m l s = (.ok a, l', s')) : Proc.exec (orFree allocated m) l s = (.ok a, l', s') := by
  unfold orFree
  rw [Proc.exec_bind, Proc.exec_attempt, h]
  rfl

-- These pages were allocated, in this order.
def PageStore.Allocated (s : PageStore) (pages : List PageNum) (s' : PageStore) : Prop :=
  ∀ count, s.next (pages.length + count) = pages ++ s'.next count

theorem exec_allocPage (hwrite : s.readOnly = false) (l : ℓ) :
    ∃ pageNum s', Proc.exec allocPage l s = (.ok pageNum, l, s') ∧ s'.cache = s.cache ∧
      s'.readOnly = false ∧ s.Allocated [pageNum] s' := by
  unfold allocPage
  rw [Proc.exec_atomicE]
  unfold PageStore.allocPage PageStore.Allocated PageStore.next
  rw [hwrite]
  simp only [Bool.false_eq_true, ↓reduceIte]
  cases hlast : s.freeList.getLast? with
  | some p =>
    refine ⟨p, _, rfl, rfl, rfl, ?_⟩
    intro count
    rw [List.length_singleton, Nat.add_comm, handedOut, hlast]
    rfl
  | none =>
    refine ⟨s.numPages, _, rfl, rfl, rfl, ?_⟩
    intro count
    rw [List.length_singleton, Nat.add_comm, handedOut, hlast]
    rw [List.getLast?_eq_none_iff] at hlast
    simp only [hlast]
    rfl

theorem PageStore.Allocated.nil (s : PageStore) : s.Allocated [] s := by
  intro count
  rw [List.length_nil, Nat.zero_add, List.nil_append]

theorem PageStore.Allocated.cons {pageNum : PageNum} {pages : List PageNum} {s'' : PageStore}
    (h : s.Allocated [pageNum] s') (hrest : s'.Allocated pages s'') :
    s.Allocated (pageNum :: pages) s'' := by
  intro count
  have hfirst := h (pages.length + count)
  rw [hrest count, List.length_singleton] at hfirst
  rw [List.length_cons, Nat.add_comm pages.length, Nat.add_assoc]
  exact hfirst

-- Both the transaction and the store have new contents for these pages, and the same ones.
structure Wrote (pages : List PageNum) (l l' : HashMap PageNum Bytes) (s s' : PageStore) : Prop where
  both : ∀ q ∈ pages, s'.cache q = l'.get? q
  writes : ∀ q ∉ pages, l'.get? q = l.get? q
  cache : ∀ q ∉ pages, s'.cache q = s.cache q
  readOnly : s'.readOnly = s.readOnly

variable {pages : List PageNum} {w w' : HashMap PageNum Bytes} {pageNum firstPageNum : PageNum}
  {data chunk firstPage : Bytes}

-- What was written is read from the store too.
theorem Wrote.stored_view {doc : VersionedDocument} {firstPage : PageNum} {pages : List PageNum}
    {l l' : HashMap PageNum Bytes} (h : Wrote (firstPage :: pages) l l' s s')
    (hstored : Stored l'.get? doc firstPage pages) : Stored s'.view doc firstPage pages := by
  refine hstored.mono fun p hp page hpage => ?_
  rw [PageStore.view, PageStore.readPage, h.both p hp, hpage]
  rfl

theorem Wrote.refl (w : HashMap PageNum Bytes) (s : PageStore) : Wrote [] w w s s :=
  ⟨fun _ hq => absurd hq List.not_mem_nil, fun _ _ => rfl, fun _ _ => rfl, rfl⟩

-- The first of the pages was written before the others.
theorem Wrote.put (hnew : pageNum ∉ pages)
    (h : Wrote pages (w.insert pageNum data) w' (s.put pageNum data) s') :
    w'.get? pageNum = some data ∧ Wrote (pageNum :: pages) w w' s s' := by
  have hwritten : w'.get? pageNum = some data := by
    rw [h.writes pageNum hnew, HashMap.get?_insert_self]
  refine ⟨hwritten, ?_, ?_, ?_, h.readOnly⟩
  · intro q hq
    rcases List.mem_cons.mp hq with rfl | hq
    · rw [hwritten, h.cache q hnew]
      exact Function.update_self q _ _
    · exact h.both q hq
  · intro q hq
    rw [List.mem_cons, not_or] at hq
    rw [h.writes q hq.2, HashMap.get?_insert_of_ne _ _ hq.1]
  · intro q hq
    rw [List.mem_cons, not_or] at hq
    rw [h.cache q hq.2]
    exact Function.update_of_ne hq.1 _ _

theorem length_chunk_le (data : Bytes) : (data.take MAX_OVERFLOW_DATA).length ≤ MAX_OVERFLOW_DATA := by
  rw [List.length_take]
  exact Nat.min_le_left _ _

-- A page that waits is written with a pointer to the page after it.
theorem exec_linkPage {next : PageNum} {allocated : List PageNum}
    (hwrite : s.readOnly = false) (hchunk : chunk.length ≤ MAX_OVERFLOW_DATA)
    (hfirst : pageNum ≠ firstPageNum) :
    Proc.exec (linkPage firstPageNum next ⟨firstPage, allocated, pageNum, PAGE_SIZE - OVERFLOW_SIZE,
        some (overflowPageOf chunk 0)⟩) w s =
      (.ok firstPage, w.insert pageNum (overflowPageOf chunk next),
        s.put pageNum (overflowPageOf chunk next)) := by
  unfold linkPage
  rw [if_neg hfirst]
  simp only
  rw [copyAt_overflowPageOf hchunk 0 next]
  have hput := exec_writePageTransfer pageNum hwrite (length_overflowPageOf hchunk next)
    (w.insert pageNum (overflowPageOf chunk next))
  rw [Proc.exec_bind_ok (Proc.exec_ofExcept_ok _ w s),
    Proc.exec_bind_ok (Proc.exec_modifyLocal _ _ _),
    Proc.exec_bind_ok (exec_orFree _ hput), Proc.exec_pure]

-- The loop from a page that waits: when it has ended and the last page is written, the page and
-- those after it hold what they should.
theorem exec_writeOverflow (allocated : List PageNum) (hwrite : s.readOnly = false)
    (hchunk : chunk.length ≤ MAX_OVERFLOW_DATA)
    (hpages : s.next (chunkCount data.length) = pages) (hnodup : (pageNum :: pages).Nodup)
    (hzero : 0 ∉ pages) (hfirst : firstPageNum ∉ pageNum :: pages) :
    ∃ p₁ w₁ s₁, Proc.exec (writeOverflow firstPageNum data ⟨firstPage, allocated, pageNum,
        PAGE_SIZE - OVERFLOW_SIZE, some (overflowPageOf chunk 0)⟩) w s = (.ok p₁, w₁, s₁) ∧
      p₁.firstPage = firstPage ∧
      ∃ w' s', Proc.exec (writeLastPage p₁) w₁ s₁ = (.ok (), w', s') ∧
        w'.get? pageNum = some (overflowPageOf chunk (pages.headD 0)) ∧
        Chain w'.get? pages data ∧ Wrote (pageNum :: pages) w w' s s' ∧ s.Allocated pages s' := by
  induction hcount : chunkCount data.length generalizing s w data chunk pageNum pages allocated with
  | zero =>
    have hempty : data = [] := by
      by_contra hne
      rw [chunkCount_pos hne] at hcount
      omega
    rw [hcount] at hpages
    obtain rfl : pages = [] := hpages.symm
    subst hempty
    rw [writeOverflow, dif_pos rfl]
    refine ⟨_, _, _, Proc.exec_pure _ _ _, rfl, ?_⟩
    have hput := exec_writePageTransfer pageNum hwrite (length_overflowPageOf hchunk 0)
      (w.insert pageNum (overflowPageOf chunk 0))
    obtain ⟨hpage, hwrote⟩ := Wrote.put List.not_mem_nil (Wrote.refl (w.insert pageNum _) (s.put pageNum _))
    refine ⟨_, _, ?_, hpage, .nil, hwrote, PageStore.Allocated.nil s⟩
    unfold writeLastPage
    simp only
    rw [Proc.exec_bind_ok (Proc.exec_modifyLocal _ _ _), exec_orFree _ hput]
    rfl
  | succ count ih =>
    have hne : data ≠ [] := by
      rintro rfl
      cases hcount
    have hrest : chunkCount (data.drop MAX_OVERFLOW_DATA).length = count := by
      have := chunkCount_pos hne
      omega
    obtain ⟨next, s₁, halloc, hcache, hwrite₁, hallocated⟩ := exec_allocPage hwrite w
    obtain rfl : pages = next :: s₁.next count := by
      rw [← hpages, hcount, Nat.add_comm]
      exact hallocated count
    obtain ⟨hnew, hnodup⟩ := List.nodup_cons.mp hnodup
    rw [List.mem_cons, not_or] at hfirst hzero
    -- The page that waited is written now, and the new one waits.
    let s₂ := s₁.put pageNum (overflowPageOf chunk next)
    let w₂ := w.insert pageNum (overflowPageOf chunk next)
    have hnext₂ : s₂.next (chunkCount (data.drop MAX_OVERFLOW_DATA).length) = s₁.next count := by
      rw [hrest]
      rfl
    obtain ⟨p', w', s', hloop, hfirstPage, w'', s'', hlast, hpage, hchain, hwrote, hmore⟩ :=
      ih (s := s₂) (w := w₂) (allocated ++ [next]) hwrite₁ (length_chunk_le data) hnext₂ hnodup
        hzero.2 hfirst.2 hrest
    refine ⟨p', w', s', ?_, hfirstPage, w'', s'', hlast, ?_⟩
    · rw [writeOverflow, dif_neg hne, Proc.exec_bind_ok (exec_orFree _ halloc),
        fillOverflowPage_eq (length_chunk_le data),
        Proc.exec_bind_ok (Proc.exec_ofExcept_ok _ w s₁),
        Proc.exec_bind_ok (exec_linkPage hwrite₁ hchunk (Ne.symm hfirst.1))]
      exact hloop
    · obtain ⟨hbefore, hall⟩ := hwrote.put hnew
      refine ⟨hbefore, .cons hne (Ne.symm hzero.1) hpage hchain, ⟨hall.both, hall.writes, ?_, ?_⟩,
        hallocated.cons hmore⟩
      · intro q hq
        rw [hall.cache q hq, hcache]
      · rw [hall.readOnly, hwrite₁, hwrite]

-- The loop from the first page on, which gets its pointer in memory.
theorem exec_writeOverflow_first {doc : VersionedDocument} (hwrite : s.readOnly = false)
    (hpages : s.next (chunkCount data.length) = pages) (hnodup : pages.Nodup) (hzero : 0 ∉ pages)
    (hfirst : firstPageNum ∉ pages) (w : HashMap PageNum Bytes) :
    ∃ p w₁ s₁, Proc.exec (writeOverflow firstPageNum data ⟨firstPageOf doc 0, [firstPageNum],
        firstPageNum, (headBytes doc).length, none⟩) w s = (.ok p, w₁, s₁) ∧
      p.firstPage = firstPageOf doc (pages.headD 0) ∧
      ∃ w' s', Proc.exec (writeLastPage p) w₁ s₁ = (.ok (), w', s') ∧
        Chain w'.get? pages data ∧ Wrote pages w w' s s' ∧ s.Allocated pages s' := by
  rw [writeOverflow]
  by_cases hempty : data = []
  · subst hempty
    obtain rfl : pages = [] := hpages.symm
    rw [dif_pos rfl]
    exact ⟨_, _, _, Proc.exec_pure _ _ _, rfl, _, _, Proc.exec_pure _ _ _, .nil, .refl w s, PageStore.Allocated.nil s⟩
  · obtain ⟨next, s₁, halloc, hcache, hwrite₁, hallocated⟩ := exec_allocPage hwrite w
    obtain rfl : pages = next :: s₁.next (chunkCount (data.drop MAX_OVERFLOW_DATA).length) := by
      rw [← hpages, chunkCount_pos hempty, Nat.add_comm]
      exact hallocated _
    rw [List.mem_cons, not_or] at hzero
    have hlink : Proc.exec (linkPage firstPageNum next ⟨firstPageOf doc 0, [firstPageNum],
        firstPageNum, (headBytes doc).length, none⟩) w s₁ = (.ok (firstPageOf doc next), w, s₁) := by
      unfold linkPage
      rw [if_pos rfl, copyAt_firstPageOf 0 next]
      rfl
    obtain ⟨p, w₂, s₂, hloop, hpage, w', s', hlast, hwaits, hchain, hwrote, hmore⟩ :=
      exec_writeOverflow (w := w) ([firstPageNum] ++ [next]) hwrite₁ (length_chunk_le data) rfl hnodup
        hzero.2 hfirst
    refine ⟨p, w₂, s₂, ?_, hpage, w', s', hlast, .cons hempty (Ne.symm hzero.1) hwaits hchain,
      ⟨hwrote.both, hwrote.writes, ?_, ?_⟩, hallocated.cons hmore⟩
    · rw [dif_neg hempty, Proc.exec_bind_ok (exec_orFree _ halloc),
        fillOverflowPage_eq (length_chunk_le data),
        Proc.exec_bind_ok (Proc.exec_ofExcept_ok _ w s₁),
        Proc.exec_bind_ok hlink]
      exact hloop
    · intro q hq
      rw [hwrote.cache q hq, hcache]
    · rw [hwrote.readOnly, hwrite₁, hwrite]

-- How many overflow pages a document has.
def overflowPages (doc : VersionedDocument) : Nat :=
  chunkCount (doc.data.length - firstPageCapacity doc.id)

-- `write_versioned_document` with these pages handed out.
theorem exec_writeVersionedDocument {doc : VersionedDocument} (hid : doc.id.utf8ByteSize ≤ 255)
    (hwrite : s.readOnly = false) (hpages : s.next (overflowPages doc + 1) = firstPageNum :: pages)
    (hnodup : (firstPageNum :: pages).Nodup) (hzero : 0 ∉ pages) (w : HashMap PageNum Bytes) :
    ∃ w' s', Proc.exec (writeVersionedDocument doc.id doc.data doc.xmin doc.xmax) w s =
        (.ok (firstPageNum, firstPageOf doc (pages.headD 0)), w', s') ∧
      Stored w'.get? doc firstPageNum pages ∧ Wrote (firstPageNum :: pages) w w' s s' ∧
      s.Allocated (firstPageNum :: pages) s' := by
  obtain ⟨p₀, s₁, halloc, hcache, hwrite₁, hallocated⟩ := exec_allocPage hwrite w
  have hnext := hallocated (overflowPages doc)
  rw [List.length_singleton, Nat.add_comm, hpages] at hnext
  obtain ⟨rfl, hpages₁⟩ := List.cons.inj hnext
  rw [overflowPages, ← List.length_drop] at hpages₁
  obtain ⟨hnew, hnodup⟩ := List.nodup_cons.mp hnodup
  obtain ⟨p, w₂, s₂, hloop, hfirst, w₃, s₃, hlast, hchain, hwrote, hmore⟩ :=
    exec_writeOverflow_first hwrite₁ hpages₁.symm hnodup hzero hnew w
  have hwrite₃ : s₃.readOnly = false := hwrote.readOnly.trans hwrite₁
  have hput := exec_writePageTransfer firstPageNum hwrite₃
    (length_firstPageOf hid (pages.headD 0)) (w₃.insert firstPageNum (firstPageOf doc (pages.headD 0)))
  refine ⟨w₃.insert firstPageNum (firstPageOf doc (pages.headD 0)),
    s₃.put firstPageNum (firstPageOf doc (pages.headD 0)), ?_, ⟨?_, ?_⟩, ?_, hallocated.cons hmore⟩
  · unfold writeVersionedDocument
    rw [if_neg (by omega), Proc.exec_bind_ok halloc, fillFirstPage_eq hid,
      Proc.exec_bind_ok (Proc.exec_ofExcept_ok _ w s₁)]
    simp only
    rw [Proc.exec_bind_ok hloop, Proc.exec_bind_ok hlast, hfirst,
      Proc.exec_bind_ok (Proc.exec_modifyLocal _ _ _), Proc.exec_bind_ok (exec_orFree _ hput),
      Proc.exec_pure]
  · exact HashMap.get?_insert_self _ _ _
  · refine hchain.mono fun q hq page hpage => ?_
    rw [HashMap.get?_insert_of_ne _ _ (by rintro rfl; exact hnew hq), hpage]
  · refine ⟨?_, ?_, ?_, hwrote.readOnly.trans (hwrite₁.trans hwrite.symm)⟩
    · intro q hq
      by_cases hqf : q = firstPageNum
      · subst hqf
        rw [HashMap.get?_insert_self]
        exact Function.update_self q _ _
      · rw [HashMap.get?_insert_of_ne _ _ hqf, ← hwrote.both q ((List.mem_cons.mp hq).resolve_left hqf)]
        exact Function.update_of_ne hqf _ _
    · intro q hq
      rw [List.mem_cons, not_or] at hq
      rw [HashMap.get?_insert_of_ne _ _ hq.1, hwrote.writes q hq.2]
    · intro q hq
      rw [List.mem_cons, not_or] at hq
      rw [← hcache, ← hwrote.cache q hq.2]
      exact Function.update_of_ne hq.1 _ _

end Write

end JasonDb.Codec
