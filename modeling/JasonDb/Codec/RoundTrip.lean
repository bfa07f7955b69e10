import JasonDb.Codec.Stored

namespace JasonDb.Codec

open Lib

section Read

variable {ℓ : Type} {l : ℓ} {s : PageStore} {w : HashMap PageNum Bytes} {doc : VersionedDocument}
  {pages visited : List PageNum} {firstPage next : PageNum} {data chunk : Bytes}

theorem readPage_of_view {pageNum : PageNum} {page : Bytes} (h : s.view pageNum = some page) :
    s.readPage pageNum = .ok page := by
  unfold PageStore.view at h
  cases hread : s.readPage pageNum with
  | ok data =>
    rw [hread] at h
    rw [Option.some.inj h]
  | error e =>
    rw [hread] at h
    cases h

theorem exec_readPage {pageNum : PageNum} {page : Bytes} (h : s.view pageNum = some page) (l : ℓ) :
    Proc.exec (readPage pageNum) l s = (.ok page, l, s) := by
  simp only [readPage, Proc.exec_atomicE, readPage_of_view h]

-- What a reader with this transaction gets for a page.
def fetched (w : HashMap PageNum Bytes) (s : PageStore) (pageNum : PageNum) : Option Bytes :=
  (w.get? pageNum).or (s.view pageNum)

-- What the transaction has written hides the store.
theorem Stored.fetched (h : Stored w.get? doc firstPage pages) (s : PageStore) :
    Stored (fetched w s) doc firstPage pages := by
  refine h.mono fun p hp page hpage => ?_
  rw [Codec.fetched, hpage, Option.some_or]

theorem exec_readThrough {pageNum : PageNum} {page : Bytes} (h : fetched w s pageNum = some page) (l : ℓ) :
    Proc.exec (readThrough w pageNum) l s = (.ok page, l, s) := by
  unfold readThrough
  unfold fetched at h
  cases hw : w.get? pageNum with
  | some data =>
    rw [hw] at h
    obtain rfl := Option.some.inj h
    rfl
  | none =>
    rw [hw, Option.none_or] at h
    exact exec_readPage h l

-- A document the reader admits, with numbers of 64 bits.
structure Readable (doc : VersionedDocument) : Prop where
  id_pos : 1 ≤ doc.id.utf8ByteSize
  id_le : doc.id.utf8ByteSize ≤ 255
  size : doc.data.length ≤ MAX_DOCUMENT_SIZE
  xmin : doc.xmin < 2 ^ 64
  xmax : doc.xmax < 2 ^ 64

theorem readFirstPage_firstPageOf (h : Readable doc) (hnext : next < 2 ^ 64) :
    readFirstPage (firstPageOf doc next) = .ok ⟨doc.id, doc.xmin, doc.xmax, doc.data.length,
      doc.data.take (firstPageCapacity doc.id), next⟩ := by
  let zeros := List.replicate (PAGE_SIZE - OVERFLOW_SIZE - (headBytes doc).length) (0 : UInt8)
  let pointer := leBytes 8 next ++ zeros
  let body := leBytes 4 doc.data.length ++ (doc.data.take (firstPageCapacity doc.id) ++ pointer)
  let front := leBytes 8 doc.xmin ++ (leBytes 8 doc.xmax ++ leBytes 2 (utf8 doc.id).length)
  have hpage : firstPageOf doc next = front ++ (utf8 doc.id ++ body) := by
    simp [firstPageOf, headBytes, front, body, pointer, zeros]
  have hfront : front.length = 18 := by
    simp [front]
  have hcap := firstPageCapacity_add h.id_le
  have hlen := length_firstPageOf h.id_le next
  have hxmin : readNat (firstPageOf doc next) 0 8 = .ok doc.xmin := by
    have heq : firstPageOf doc next = [] ++ (leBytes 8 doc.xmin ++ (leBytes 8 doc.xmax ++
        (leBytes 2 (utf8 doc.id).length ++ (utf8 doc.id ++ body)))) := by
      simp [hpage, front]
    rw [heq]
    exact readNat_middle rfl h.xmin
  have hxmax : readNat (firstPageOf doc next) 8 8 = .ok doc.xmax := by
    have heq : firstPageOf doc next = leBytes 8 doc.xmin ++ (leBytes 8 doc.xmax ++
        (leBytes 2 (utf8 doc.id).length ++ (utf8 doc.id ++ body))) := by
      simp [hpage, front]
    rw [heq]
    exact readNat_middle (length_leBytes 8 _).symm h.xmax
  have hidLen : readNat (firstPageOf doc next) 16 2 = .ok doc.id.utf8ByteSize := by
    have heq : firstPageOf doc next = (leBytes 8 doc.xmin ++ leBytes 8 doc.xmax) ++
        (leBytes 2 (utf8 doc.id).length ++ (utf8 doc.id ++ body)) := by
      simp [hpage, front]
    rw [heq]
    refine readNat_middle ?_ (lt_of_le_of_lt h.id_le (by decide))
    rw [List.length_append, length_leBytes, length_leBytes]
  have hid : slice (firstPageOf doc next) 18 (18 + doc.id.utf8ByteSize) = .ok (utf8 doc.id) := by
    rw [hpage]
    exact slice_middle (utf8 doc.id) hfront.symm (by rw [length_utf8])
  have hdataLen : readNat (firstPageOf doc next) (18 + doc.id.utf8ByteSize) 4 = .ok doc.data.length := by
    rw [hpage, ← List.append_assoc]
    refine readNat_middle ?_ (lt_of_le_of_lt h.size (by decide))
    rw [List.length_append, hfront, length_utf8]
  have hstart : 22 + doc.id.utf8ByteSize =
      (front ++ utf8 doc.id ++ leBytes 4 doc.data.length).length := by
    rw [List.length_append, List.length_append, hfront, length_utf8, length_leBytes]
    omega
  have hchunk : (doc.data.take (firstPageCapacity doc.id)).length =
      min (firstPageCapacity doc.id) doc.data.length := List.length_take
  have hdata : slice (firstPageOf doc next) (22 + doc.id.utf8ByteSize)
      (22 + doc.id.utf8ByteSize + min (firstPageCapacity doc.id) doc.data.length) =
        .ok (doc.data.take (firstPageCapacity doc.id)) := by
    rw [hpage, ← List.append_assoc, ← List.append_assoc]
    exact slice_middle _ hstart (by rw [hchunk])
  have hoverflow : readNat (firstPageOf doc next)
      (22 + doc.id.utf8ByteSize + min (firstPageCapacity doc.id) doc.data.length) 8 = .ok next := by
    have heq : firstPageOf doc next = (front ++ utf8 doc.id ++ leBytes 4 doc.data.length ++
        doc.data.take (firstPageCapacity doc.id)) ++ (leBytes 8 next ++ zeros) := by
      simp [hpage, body, pointer]
    rw [heq]
    refine readNat_middle ?_ hnext
    rw [List.length_append, ← hstart, hchunk]
  have hroom : sub (firstPageOf doc next).length 18 = .ok (PAGE_SIZE - 18) := by
    unfold sub
    rw [hlen, if_pos (by unfold PAGE_SIZE; omega)]
  have hcapacity : sub PAGE_SIZE (FIRST_PAGE_HEADER + doc.id.utf8ByteSize) =
      .ok (firstPageCapacity doc.id) := by
    have hle := h.id_le
    unfold sub firstPageCapacity
    rw [if_pos (by unfold PAGE_SIZE FIRST_PAGE_HEADER; omega), Nat.sub_sub]
  have hadmits : ¬ (doc.id.utf8ByteSize = 0 ∨ doc.id.utf8ByteSize > PAGE_SIZE - 18) := by
    have hpos := h.id_pos
    have hle := h.id_le
    unfold PAGE_SIZE
    omega
  unfold readFirstPage
  rw [hxmin, hxmax, hidLen, hroom]
  simp only [bind, Except.bind]
  rw [if_neg hadmits, hid]
  simp only [fromUtf8_utf8]
  rw [hdataLen]
  simp only
  rw [if_neg (Nat.not_lt.mpr h.size), hcapacity]
  simp only
  rw [hdata, hoverflow]

theorem readNat_overflowPageOf (hchunk : chunk.length ≤ MAX_OVERFLOW_DATA) (hnext : next < 2 ^ 64) :
    readNat (overflowPageOf chunk next) (PAGE_SIZE - OVERFLOW_SIZE) 8 = .ok next := by
  refine readNat_middle ?_ hnext
  rw [List.length_append, List.length_replicate]
  unfold PAGE_SIZE OVERFLOW_SIZE
  unfold MAX_OVERFLOW_DATA PAGE_SIZE at *
  omega

theorem slice_overflowPageOf (chunk : Bytes) (next : PageNum) :
    slice (overflowPageOf chunk next) 0 chunk.length = .ok chunk := by
  unfold overflowPageOf
  rw [List.append_assoc, ← List.nil_append (chunk ++ _)]
  exact slice_middle chunk List.length_nil.symm (Nat.zero_add _).symm

theorem Chain.headD_lt (hpages : ∀ p ∈ pages, p < 2 ^ 64) : pages.headD 0 < 2 ^ 64 := by
  cases pages with
  | nil => exact Nat.two_pow_pos 64
  | cons p rest => exact hpages p List.mem_cons_self

-- The loop of the reader along a chain.
theorem exec_readOverflow {left : Nat} (visited : List PageNum) (got : Bytes)
    (h : Chain (fetched w s) pages data)
    (hpages : ∀ p ∈ pages, p < 2 ^ 64) (hnodup : pages.Nodup) (hvisited : ∀ p ∈ pages, p ∉ visited)
    (hleft : pages.length ≤ left) (l : ℓ) :
    Proc.exec (readOverflow w (got.length + data.length) left visited got (pages.headD 0)) l s =
      (.ok (got ++ data), l, s) := by
  induction h generalizing left visited got with
  | nil =>
    have hzero : [].headD 0 = 0 ∨ got.length + ([] : Bytes).length ≤ got.length := Or.inl rfl
    unfold readOverflow
    rw [if_pos hzero, List.append_nil]
    rfl
  | @cons pageNum pages data nonempty nonzero page rest ih =>
    obtain ⟨left, rfl⟩ : ∃ n, left = n + 1 := Nat.exists_eq_add_one.mpr (by
      rw [List.length_cons] at hleft
      omega)
    obtain ⟨hnew, hnodup⟩ := List.nodup_cons.mp hnodup
    have hpos := List.length_pos_iff.mpr nonempty
    have hsize : (data.take MAX_OVERFLOW_DATA).length =
        min MAX_OVERFLOW_DATA (got.length + data.length - got.length) := by
      rw [List.length_take, Nat.add_sub_cancel_left]
    have hvisited' : ∀ p ∈ pages, p ∉ pageNum :: visited := by
      intro p hp
      rw [List.mem_cons, not_or]
      refine ⟨?_, hvisited p (List.mem_cons_of_mem _ hp)⟩
      rintro rfl
      exact hnew hp
    have hrest := ih (pageNum :: visited) (got ++ data.take MAX_OVERFLOW_DATA)
      (fun p hp => hpages p (List.mem_cons_of_mem _ hp)) hnodup hvisited' (Nat.le_of_succ_le_succ hleft)
    have htotal : (got ++ data.take MAX_OVERFLOW_DATA).length + (data.drop MAX_OVERFLOW_DATA).length =
        got.length + data.length := by
      simp only [List.length_append, List.length_take, List.length_drop]
      omega
    rw [htotal, List.append_assoc, List.take_append_drop] at hrest
    rw [List.headD_cons, readOverflow, if_neg (by rw [not_or]; exact ⟨nonzero, by omega⟩),
      if_neg (hvisited pageNum List.mem_cons_self), Proc.exec_bind_ok (exec_readThrough page l), ← hsize,
      slice_overflowPageOf, Proc.exec_bind_ok (Proc.exec_ofExcept_ok _ l s),
      readNat_overflowPageOf (length_chunk_le data)
        (Chain.headD_lt fun p hp => hpages p (List.mem_cons_of_mem _ hp)),
      Proc.exec_bind_ok (Proc.exec_ofExcept_ok _ l s)]
    exact hrest

theorem exec_readVersionedDocument (hdoc : Readable doc) (h : Stored (fetched w s) doc firstPage pages)
    (hpages : ∀ p ∈ pages, p < 2 ^ 64) (hnodup : pages.Nodup)
    (hlength : pages.length ≤ MAX_OVERFLOW_CHAIN_LENGTH) (l : ℓ) :
    Proc.exec (readVersionedDocument w firstPage) l s = (.ok doc, l, s) := by
  have hall : (doc.data.take (firstPageCapacity doc.id)).length +
      (doc.data.drop (firstPageCapacity doc.id)).length = doc.data.length := by
    rw [List.length_take, List.length_drop]
    omega
  have hloop := exec_readOverflow [] (doc.data.take (firstPageCapacity doc.id)) h.chain hpages hnodup (fun _ _ => List.not_mem_nil) hlength l
  rw [hall, List.take_append_drop] at hloop
  unfold readVersionedDocument
  rw [Proc.exec_bind_ok (exec_readThrough h.first l),
    readFirstPage_firstPageOf hdoc (Chain.headD_lt hpages),
    Proc.exec_bind_ok (Proc.exec_ofExcept_ok _ l s),
    Proc.exec_bind_ok hloop, if_neg (fun hne => hne rfl), Proc.exec_pure]

end Read

section Delete

variable {ℓ : Type} {l : ℓ} {s : PageStore} {doc : VersionedDocument} {pages : List PageNum}
  {firstPage : PageNum} {data : Bytes}

def PageStore.freed (s : PageStore) (pages : List PageNum) : PageStore :=
  { s with
    freeList := s.freeList ++ pages
    cache := fun p => if p ∈ pages then none else s.cache p }

theorem freed_nil (s : PageStore) : s.freed [] = s := by
  simp [PageStore.freed]

theorem freed_freed (s : PageStore) (pages more : List PageNum) :
    (s.freed pages).freed more = s.freed (pages ++ more) := by
  unfold PageStore.freed
  simp only [List.append_assoc, List.mem_append]
  congr 1
  funext p
  by_cases hp : p ∈ pages <;> by_cases hm : p ∈ more <;> simp [hp, hm]

theorem view_freed {p : PageNum} (hp : p ∉ pages) : (s.freed pages).view p = s.view p := by
  unfold PageStore.view PageStore.readPage PageStore.readAt PageStore.freed
  simp only
  rw [if_neg hp]

theorem exec_freePage (hwrite : s.readOnly = false) (pageNum : PageNum) (l : ℓ) :
    Proc.exec (freePage pageNum) l s = (.ok (), l, s.freed [pageNum]) := by
  unfold freePage
  rw [Proc.exec_atomicE]
  have hcache : Function.update s.cache pageNum none =
      fun p => if p ∈ [pageNum] then none else s.cache p := by
    funext p
    rw [Function.update_apply]
    simp
  simp [PageStore.freePage, hwrite, PageStore.freed, hcache]

-- The pointer at the end of the first page: where the data does not reach it, there are zeros.
theorem readNat_firstPageOf {next : PageNum} (hid : doc.id.utf8ByteSize ≤ 255) (hnext : next < 2 ^ 64)
    (hshort : doc.data.length < firstPageCapacity doc.id → next = 0) :
    readNat (firstPageOf doc next) (PAGE_SIZE - 8) 8 = .ok next := by
  have hhead := length_headBytes doc
  have hcap := firstPageCapacity_add hid
  by_cases hfull : firstPageCapacity doc.id ≤ doc.data.length
  · unfold firstPageOf
    refine readNat_middle ?_ hnext
    rw [hhead, Nat.min_eq_left hfull]
    unfold OVERFLOW_SIZE at hcap
    omega
  · obtain rfl := hshort (by omega)
    -- The last eight of the zeros behind the data.
    let gap := PAGE_SIZE - 8 - (headBytes doc).length
    have hgap : (headBytes doc).length + gap = PAGE_SIZE - 8 := by
      have hle := length_headBytes_le hid
      unfold OVERFLOW_SIZE at hle
      omega
    have hpage : firstPageOf doc 0 = (headBytes doc ++ List.replicate gap 0) ++ (leBytes 8 0 ++ []) := by
      unfold firstPageOf
      rw [leBytes_zero, List.replicate_append_replicate, List.append_nil, List.append_assoc,
        List.replicate_append_replicate, Nat.add_comm 8]
      rfl
    rw [hpage]
    refine readNat_middle ?_ (Nat.two_pow_pos 64)
    rw [List.length_append, List.length_replicate, hgap]

theorem exec_freeOverflow {left : Nat} (visited : List PageNum) (h : Chain s.view pages data)
    (hwrite : s.readOnly = false) (hpages : ∀ p ∈ pages, p < 2 ^ 64) (hnodup : pages.Nodup)
    (hvisited : ∀ p ∈ pages, p ∉ visited) (hleft : pages.length ≤ left) (l : ℓ) :
    Proc.exec (freeOverflow left visited (pages.headD 0)) l s = (.ok (), l, s.freed pages) := by
  induction pages generalizing left visited data s with
  | nil =>
    have hzero : [].headD 0 = 0 := rfl
    unfold freeOverflow
    rw [if_pos hzero, freed_nil]
    rfl
  | cons pageNum pages ih =>
    cases h with
    | cons nonempty nonzero page rest =>
      obtain ⟨left, rfl⟩ : ∃ n, left = n + 1 := Nat.exists_eq_add_one.mpr (by
        rw [List.length_cons] at hleft
        omega)
      obtain ⟨hnew, hnodup⟩ := List.nodup_cons.mp hnodup
      have hvisited' : ∀ p ∈ pages, p ∉ pageNum :: visited := by
        intro p hp
        rw [List.mem_cons, not_or]
        refine ⟨?_, hvisited p (List.mem_cons_of_mem _ hp)⟩
        rintro rfl
        exact hnew hp
      -- Freeing a page does not touch the pages after it.
      have hrest : Chain (s.freed [pageNum]).view pages (data.drop MAX_OVERFLOW_DATA) := by
        refine rest.mono fun p hp page hpage => ?_
        rw [view_freed, hpage]
        rw [List.mem_singleton]
        rintro rfl
        exact hnew hp
      have htail := ih (pageNum :: visited) hrest hwrite
        (fun p hp => hpages p (List.mem_cons_of_mem _ hp)) hnodup hvisited'
        (Nat.le_of_succ_le_succ hleft)
      rw [freed_freed, List.singleton_append] at htail
      have hpointer : readNat (overflowPageOf (data.take MAX_OVERFLOW_DATA) (pages.headD 0))
          (PAGE_SIZE - 8) 8 = .ok (pages.headD 0) :=
        readNat_overflowPageOf (length_chunk_le data)
          (Chain.headD_lt fun p hp => hpages p (List.mem_cons_of_mem _ hp))
      rw [List.headD_cons, freeOverflow, if_neg nonzero, if_neg (hvisited pageNum List.mem_cons_self),
        Proc.exec_bind_ok (exec_readPage page l), hpointer,
        Proc.exec_bind_ok (Proc.exec_ofExcept_ok _ l s),
        Proc.exec_bind_ok (exec_freePage hwrite pageNum l)]
      exact htail

theorem exec_deleteDocument (hid : doc.id.utf8ByteSize ≤ 255) (h : Stored s.view doc firstPage pages)
    (hwrite : s.readOnly = false) (hpages : ∀ p ∈ pages, p < 2 ^ 64) (hnodup : pages.Nodup)
    (hlength : pages.length ≤ MAX_OVERFLOW_CHAIN_LENGTH) (l : ℓ) :
    Proc.exec (deleteDocument firstPage) l s = (.ok (), l, s.freed (pages ++ [firstPage])) := by
  have hshort : doc.data.length < firstPageCapacity doc.id → pages.headD 0 = 0 := by
    intro hlt
    have hchain := h.chain
    rw [List.drop_eq_nil_of_le (Nat.le_of_lt hlt)] at hchain
    cases hchain with
    | nil => rfl
    | cons nonempty _ _ _ => exact absurd rfl nonempty
  unfold deleteDocument
  rw [Proc.exec_bind_ok (exec_readPage h.first l),
    readNat_firstPageOf hid (Chain.headD_lt hpages) hshort,
    Proc.exec_bind_ok (Proc.exec_ofExcept_ok _ l s),
    Proc.exec_bind_ok (exec_freeOverflow [] h.chain hwrite hpages hnodup
      (fun _ _ => List.not_mem_nil) hlength l),
    exec_freePage (s := s.freed pages) hwrite firstPage l, freed_freed]

end Delete

-- The allocator works and the next pages it returns are distinct and not page 0.
structure Allocates (s : PageStore) (count : Nat) : Prop where
  writable : s.readOnly = false
  nodup : (s.next count).Nodup
  nonzero : 0 ∉ s.next count
  bounded : ∀ p ∈ s.next count, p < 2 ^ 64

-- What `write_versioned_document` leaves behind: the document is where it says, for a reader that
-- has the writes of the transaction and for one that has only the store.
theorem Allocates.exec_writeVersionedDocument {doc : VersionedDocument} {s : PageStore}
    (h : Allocates s (overflowPages doc + 1)) (hid : doc.id.utf8ByteSize ≤ 255)
    (w : HashMap PageNum Bytes) :
    ∃ pageNum pages content w' s',
      Proc.exec (writeVersionedDocument doc.id doc.data doc.xmin doc.xmax) w s =
        (.ok (pageNum, content), w', s') ∧
      pages.length = overflowPages doc ∧ (pageNum :: pages).Nodup ∧ (∀ p ∈ pages, p < 2 ^ 64) ∧
      s.Allocated (pageNum :: pages) s' ∧ s'.readOnly = false ∧
      Stored w'.get? doc pageNum pages ∧ Stored s'.view doc pageNum pages := by
  have hcount : (s.next (overflowPages doc + 1)).length = overflowPages doc + 1 :=
    length_handedOut s.freeList s.numPages _
  obtain ⟨pageNum, pages, hpages⟩ := List.exists_cons_of_length_eq_add_one hcount
  have hnodup := h.nodup
  have hzero := h.nonzero
  have hbounded := h.bounded
  rw [hpages] at hnodup hzero hbounded hcount
  obtain ⟨w', s', hexec, hstored, hwrote, hall⟩ := Codec.exec_writeVersionedDocument hid h.writable hpages
    hnodup (fun hmem => hzero (List.mem_cons_of_mem _ hmem)) w
  refine ⟨pageNum, pages, _, w', s', hexec, Nat.succ.inj hcount, hnodup,
    fun p hp => hbounded p (List.mem_cons_of_mem _ hp), hall,
    hwrote.readOnly.trans h.writable, hstored, hwrote.stored_view hstored⟩

-- A document that was written is read back, from the store and from the writes of the
-- transaction over whatever store.
theorem readVersionedDocument_writeVersionedDocument {doc : VersionedDocument} {s : PageStore}
    (hdoc : Readable doc) (hlength : overflowPages doc ≤ MAX_OVERFLOW_CHAIN_LENGTH)
    (hs : Allocates s (overflowPages doc + 1)) (w : HashMap PageNum Bytes) :
    ∃ pageNum content w' s',
      Proc.exec (writeVersionedDocument doc.id doc.data doc.xmin doc.xmax) w s =
        (.ok (pageNum, content), w', s') ∧
      (Proc.exec (readVersionedDocument ∅ pageNum) () s').1 = .ok doc ∧
      ∀ other : PageStore, (Proc.exec (readVersionedDocument w' pageNum) () other).1 = .ok doc := by
  obtain ⟨pageNum, pages, content, w', s', hexec, hcount, hnodup, hbounded, -, -, hwrites, hview⟩ :=
    hs.exec_writeVersionedDocument hdoc.id_le w
  have hchain := (List.nodup_cons.mp hnodup).2
  rw [← hcount] at hlength
  refine ⟨pageNum, content, w', s', hexec, ?_, ?_⟩
  · have hfetched : Stored (fetched ∅ s') doc pageNum pages := hview
    rw [exec_readVersionedDocument hdoc hfetched hbounded hchain hlength ()]
  · intro other
    rw [exec_readVersionedDocument hdoc (hwrites.fetched other) hbounded hchain hlength ()]

-- Pages 5 and 2 were freed, in this order, and the file has ten pages.
def twoFree : PageStore := ⟨fun _ => none, fun _ => none, 10, [5, 2], false, true⟩

-- A document of three pages.
def longDocument : VersionedDocument := ⟨"long", List.replicate 9000 7, 3, 0⟩

theorem overflowPages_longDocument : overflowPages longDocument = 2 := by
  have hid : "long".utf8ByteSize = 4 := by decide
  simp only [overflowPages, longDocument, List.length_replicate, firstPageCapacity, hid]
  decide

theorem allocates_twoFree : Allocates twoFree (overflowPages longDocument + 1) := by
  have hnext : twoFree.next 3 = [2, 5, 10] := by decide
  rw [overflowPages_longDocument]
  refine ⟨rfl, ?_, ?_, ?_⟩
  · rw [hnext]
    decide
  · rw [hnext]
    decide
  · rw [hnext]
    decide

theorem readVersionedDocument_writeVersionedDocument_long :
    ∃ pageNum content w' s',
      Proc.exec (writeVersionedDocument "long" (List.replicate 9000 7) 3 0) ∅ twoFree =
        (.ok (pageNum, content), w', s') ∧
      (Proc.exec (readVersionedDocument ∅ pageNum) () s').1 = .ok longDocument ∧
      ∀ other : PageStore, (Proc.exec (readVersionedDocument w' pageNum) () other).1 = .ok longDocument := by
  have hreadable : Readable longDocument := by
    refine ⟨by decide, by decide, ?_, by decide, by decide⟩
    rw [longDocument, List.length_replicate]
    decide
  refine readVersionedDocument_writeVersionedDocument hreadable ?_ allocates_twoFree ∅
  rw [overflowPages_longDocument]
  decide

-- Deleting a document that was written frees the pages that were allocated for it, each once, as
-- long as they still hold it.
theorem deleteDocument_writeVersionedDocument {doc : VersionedDocument} {s : PageStore}
    (hid : doc.id.utf8ByteSize ≤ 255) (hlength : overflowPages doc ≤ MAX_OVERFLOW_CHAIN_LENGTH)
    (hs : Allocates s (overflowPages doc + 1)) (w : HashMap PageNum Bytes) :
    ∃ pageNum pages content w' s',
      Proc.exec (writeVersionedDocument doc.id doc.data doc.xmin doc.xmax) w s =
        (.ok (pageNum, content), w', s') ∧
      s.Allocated (pageNum :: pages) s' ∧ s'.readOnly = false ∧
      ∀ later : PageStore, later.readOnly = false →
        (∀ p ∈ pageNum :: pages, later.view p = s'.view p) →
        ∃ later' freed, Proc.exec (deleteDocument pageNum) () later = (.ok (), (), later') ∧
          later'.freeList = later.freeList ++ freed ∧ freed.Perm (pageNum :: pages) ∧ freed.Nodup := by
  obtain ⟨pageNum, pages, content, w', s', hexec, hcount, hnodup, hbounded, hall, hopen, -, hview⟩ :=
    hs.exec_writeVersionedDocument hid w
  rw [← hcount] at hlength
  refine ⟨pageNum, pages, content, w', s', hexec, hall, hopen, ?_⟩
  intro later hwrite hsame
  have hstored : Stored later.view doc pageNum pages := by
    refine hview.mono fun p hp page hpage => ?_
    rw [hsame p hp, hpage]
  have hperm : (pages ++ [pageNum]).Perm (pageNum :: pages) := List.perm_append_singleton pageNum pages
  exact ⟨_, _, exec_deleteDocument hid hstored hwrite hbounded (List.nodup_cons.mp hnodup).2 hlength (),
    rfl, hperm, hperm.nodup_iff.mpr hnodup⟩

theorem deleteDocument_writeVersionedDocument_long :
    ∃ pageNum pages content w' s',
      Proc.exec (writeVersionedDocument "long" (List.replicate 9000 7) 3 0) ∅ twoFree =
        (.ok (pageNum, content), w', s') ∧
      twoFree.Allocated (pageNum :: pages) s' ∧ s'.readOnly = false ∧
      ∀ later : PageStore, later.readOnly = false →
        (∀ p ∈ pageNum :: pages, later.view p = s'.view p) →
        ∃ later' freed, Proc.exec (deleteDocument pageNum) () later = (.ok (), (), later') ∧
          later'.freeList = later.freeList ++ freed ∧ freed.Perm (pageNum :: pages) ∧ freed.Nodup := by
  refine @deleteDocument_writeVersionedDocument longDocument twoFree (by decide) ?_ allocates_twoFree ∅
  rw [overflowPages_longDocument]
  decide

end JasonDb.Codec
