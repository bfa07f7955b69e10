import JasonDb.Codec.RoundTrip

namespace JasonDb.Codec

open Lib

-- A call that ends with `Ok` or `Err`: no panic and no endless loop.
def Returns {α : Type} (r : Except Error α) : Prop :=
  (∀ message, r ≠ .error (.panic message)) ∧ r ≠ .error .diverged

section Returns

variable {α β : Type}

theorem returns_ok (a : α) : Returns (.ok a : Except Error α) := by
  refine ⟨?_, ?_⟩
  · intro message h
    cases h
  · intro h
    cases h

theorem returns_error {e : Error} (hpanic : ∀ message, e ≠ .panic message) (hdiverged : e ≠ .diverged) :
    Returns (.error e : Except Error α) := by
  refine ⟨?_, ?_⟩
  · intro message h
    exact hpanic message (Except.error.inj h)
  · intro h
    exact hdiverged (Except.error.inj h)

theorem returns_other (message : String) : Returns (.error (.other message) : Except Error α) :=
  returns_error (fun _ h => by cases h) (fun h => by cases h)

theorem returns_io (message : String) : Returns (.error (.io message) : Except Error α) :=
  returns_error (fun _ h => by cases h) (fun h => by cases h)

theorem returns_invalidDocument : Returns (.error .invalidDocument : Except Error α) :=
  returns_error (fun _ h => by cases h) (fun h => by cases h)

-- An error that is passed on.
theorem Returns.error {e : Error} (h : Returns (.error e : Except Error α)) :
    Returns (.error e : Except Error β) :=
  returns_error (fun message he => h.1 message (congrArg Except.error he))
    (fun he => h.2 (congrArg Except.error he))

theorem returns_bind {x : Except Error α} {f : α → Except Error β} (hx : Returns x)
    (hf : ∀ a, x = .ok a → Returns (f a)) : Returns (x >>= f) := by
  cases x with
  | ok a => exact hf a rfl
  | error e => exact hx.error

end Returns

section Field

variable {data : Bytes} {start stop offset width : Nat}

-- The bytes of a field, and a number in a page.
def bytesAt (data : Bytes) (offset width : Nat) : Bytes := (data.drop offset).take width

def natAt (data : Bytes) (offset width : Nat) : Nat := ofLeBytes (bytesAt data offset width)

theorem slice_eq (h : start + width ≤ data.length) :
    slice data start (start + width) = .ok (bytesAt data start width) := by
  unfold slice range?
  rw [if_pos ⟨Nat.le_add_right start width, h⟩, Nat.add_sub_cancel_left]
  rfl

theorem slice_panics (h : data.length < stop) : slice data start stop = .error outOfRange := by
  unfold slice
  rw [range?_eq_none.mpr (Or.inr h)]

theorem readNat_eq (h : offset + width ≤ data.length) :
    readNat data offset width = .ok (natAt data offset width) := by
  unfold readNat
  rw [slice_eq h]
  rfl

theorem readNat_panics (h : data.length < offset + width) :
    readNat data offset width = .error outOfRange := by
  unfold readNat
  rw [slice_panics h]
  rfl

end Field

section FirstPage

-- The id reaches so far that the fields behind it do not fit the page, and nothing before stops
-- the reader.
def Overlong (page : Bytes) : Prop :=
  4067 ≤ natAt page 16 2 ∧ natAt page 16 2 ≤ 4078 ∧
    (fromUtf8 (bytesAt page 18 (natAt page 16 2))).isSome ∧
    (natAt page 16 2 ≤ 4074 → natAt page (18 + natAt page 16 2) 4 ≤ MAX_DOCUMENT_SIZE)

variable {page : Bytes}

-- The reader stops at the id.
theorem readFirstPage_refuses (hpage : page.length = PAGE_SIZE)
    (h : natAt page 16 2 = 0 ∨ natAt page 16 2 > 4078 ∨
      fromUtf8 (bytesAt page 18 (natAt page 16 2)) = none) :
    readFirstPage page = .error .invalidDocument := by
  have hsize : page.length = 4096 := hpage
  have hroom : sub page.length 18 = .ok 4078 := by
    rw [hsize]
    rfl
  unfold readFirstPage
  rw [readNat_eq (by omega), readNat_eq (by omega), readNat_eq (by omega), hroom]
  simp only [bind, Except.bind]
  split
  next => rfl
  next hadmits =>
    rw [not_or] at hadmits
    have hid := (h.resolve_left hadmits.1).resolve_left hadmits.2
    rw [slice_eq (by omega)]
    simp only [hid]

-- The reader goes on behind the id.
theorem readFirstPage_admits (hpage : page.length = PAGE_SIZE) {id : String}
    (hpos : natAt page 16 2 ≠ 0) (hle : natAt page 16 2 ≤ 4078)
    (hid : fromUtf8 (bytesAt page 18 (natAt page 16 2)) = some id) :
    readFirstPage page = (do
      let dataLen ← readNat page (18 + natAt page 16 2) 4
      if dataLen > MAX_DOCUMENT_SIZE then .error .invalidDocument
      else do
        let capacity ← sub PAGE_SIZE (FIRST_PAGE_HEADER + natAt page 16 2)
        let offset := 22 + natAt page 16 2
        let data ← slice page offset (offset + min capacity dataLen)
        let overflow ← readNat page (offset + min capacity dataLen) 8
        .ok ⟨id, natAt page 0 8, natAt page 8 8, dataLen, data, overflow⟩) := by
  have hsize : page.length = 4096 := hpage
  have hroom : sub page.length 18 = .ok 4078 := by
    rw [hsize]
    rfl
  have hadmits : ¬ (natAt page 16 2 = 0 ∨ natAt page 16 2 > 4078) := by omega
  unfold readFirstPage
  rw [readNat_eq (by omega), readNat_eq (by omega), readNat_eq (by omega), hroom]
  simp only [bind, Except.bind]
  rw [if_neg hadmits, slice_eq (by omega)]
  simp only [hid]

theorem readFirstPage_returns (hpage : page.length = PAGE_SIZE) (h : ¬ Overlong page) :
    Returns (readFirstPage page) := by
  have hsize : page.length = 4096 := hpage
  by_cases hrefuses : natAt page 16 2 = 0 ∨ natAt page 16 2 > 4078 ∨
      fromUtf8 (bytesAt page 18 (natAt page 16 2)) = none
  · rw [readFirstPage_refuses hpage hrefuses]
    exact returns_invalidDocument
  rw [not_or, not_or, not_lt] at hrefuses
  obtain ⟨hpos, hle, hid⟩ := hrefuses
  obtain ⟨id, hid⟩ := Option.ne_none_iff_exists'.mp hid
  rw [readFirstPage_admits hpage hpos hle hid]
  unfold Overlong at h
  rw [hid] at h
  -- A longer id would have been refused, or else the length of the data is.
  by_cases hfits : natAt page 16 2 ≤ 4066
  · rw [readNat_eq (by omega)]
    refine returns_bind (returns_ok _) ?_
    rintro dataLen -
    split
    · exact returns_invalidDocument
    · have hcapacity : sub PAGE_SIZE (FIRST_PAGE_HEADER + natAt page 16 2) =
          .ok (4066 - natAt page 16 2) := by
        unfold sub PAGE_SIZE FIRST_PAGE_HEADER
        rw [if_pos (by omega)]
        congr 1
        omega
      rw [hcapacity]
      have hmin := Nat.min_le_left (4066 - natAt page 16 2) dataLen
      simp only [bind, Except.bind]
      rw [slice_eq (by omega), readNat_eq (by omega)]
      exact returns_ok _
  · have hlarge : natAt page 16 2 ≤ 4074 ∧ MAX_DOCUMENT_SIZE < natAt page (18 + natAt page 16 2) 4 := by
      by_contra hnot
      refine h ⟨by omega, hle, rfl, fun hshort => ?_⟩
      exact not_lt.mp fun hlt => hnot ⟨hshort, hlt⟩
    rw [readNat_eq (by omega)]
    simp only [bind, Except.bind]
    rw [if_pos hlarge.2]
    exact returns_invalidDocument

theorem readFirstPage_panics (hpage : page.length = PAGE_SIZE) (h : Overlong page) :
    ∃ message, readFirstPage page = .error (.panic message) := by
  have hsize : page.length = 4096 := hpage
  obtain ⟨hlow, hhigh, hutf, hdata⟩ := h
  obtain ⟨id, hid⟩ := Option.isSome_iff_exists.mp hutf
  rw [readFirstPage_admits hpage (by omega) hhigh hid]
  by_cases hshort : natAt page 16 2 ≤ 4074
  · refine ⟨"attempt to subtract with overflow", ?_⟩
    have hcapacity : sub PAGE_SIZE (FIRST_PAGE_HEADER + natAt page 16 2) =
        .error (.panic "attempt to subtract with overflow") := by
      unfold sub PAGE_SIZE FIRST_PAGE_HEADER
      rw [if_neg (by omega)]
    rw [readNat_eq (by omega)]
    simp only [bind, Except.bind]
    rw [if_neg (not_lt.mpr (hdata hshort)), hcapacity]
  · refine ⟨"range end index out of range for slice", ?_⟩
    rw [readNat_panics (by omega)]
    rfl

end FirstPage

section Read

variable {ℓ : Type} {w : HashMap PageNum Bytes} {s : PageStore}

-- Every page has its size.
def Whole (w : HashMap PageNum Bytes) (s : PageStore) : Prop :=
  ∀ pageNum page, fetched w s pageNum = some page → page.length = PAGE_SIZE

-- The page has to be read from the file, and its place there does not fit the 64 bits it is
-- computed with.
def ReadPanics (w : HashMap PageNum Bytes) (s : PageStore) (pageNum : PageNum) : Prop :=
  w.get? pageNum = none ∧ s.cache pageNum = none ∧ s.checks = true ∧ 2 ^ 52 ≤ (UInt64.ofNat pageNum).toNat

theorem readAt_cases (pageNum : PageNum) :
    (s.checks = true ∧ 2 ^ 52 ≤ (UInt64.ofNat pageNum).toNat ∧
      s.readAt pageNum = .error (.panic "attempt to multiply with overflow")) ∨
    (¬ (s.checks = true ∧ 2 ^ 52 ≤ (UInt64.ofNat pageNum).toNat) ∧ Returns (s.readAt pageNum)) := by
  unfold PageStore.readAt
  rcases seekPage_cases s.checks (UInt64.ofNat pageNum) with ⟨hchecks, hlarge, hseek⟩ | ⟨hnot, hseek⟩
  · refine Or.inl ⟨hchecks, hlarge, ?_⟩
    rw [hseek]
    rfl
  · refine Or.inr ⟨hnot, ?_⟩
    rcases hseek with ⟨offset, hseek⟩ | hseek
    · rw [hseek]
      dsimp only [bind, Except.bind]
      split
      · exact returns_ok _
      · exact returns_io _
    · rw [hseek]
      exact returns_io _

-- What the reader gets for a page.
def fetch (w : HashMap PageNum Bytes) (s : PageStore) (pageNum : PageNum) : Except Error Bytes :=
  match w.get? pageNum with
  | some data => .ok data
  | none => s.readPage pageNum

theorem exec_readThrough_eq (pageNum : PageNum) (l : ℓ) :
    Proc.exec (readThrough w pageNum) l s = (fetch w s pageNum, l, s) := by
  unfold readThrough fetch
  cases w.get? pageNum with
  | some data => rfl
  | none => rfl

theorem fetch_eq_ok {pageNum : PageNum} {page : Bytes} :
    fetch w s pageNum = .ok page ↔ fetched w s pageNum = some page := by
  unfold fetch fetched
  cases w.get? pageNum with
  | some data => exact ⟨fun h => congrArg some (Except.ok.inj h), fun h => congrArg Except.ok (Option.some.inj h)⟩
  | none =>
    refine ⟨fun h => ?_, readPage_of_view⟩
    have hread : s.readPage pageNum = .ok page := h
    show (s.readPage pageNum).toOption = some page
    rw [hread]
    rfl

-- A page that is not read gives an error, and the error is a panic or is returned.
theorem fetch_cases (pageNum : PageNum) :
    (ReadPanics w s pageNum ∧ ∃ message, fetch w s pageNum = .error (.panic message)) ∨
      (¬ ReadPanics w s pageNum ∧ Returns (fetch w s pageNum)) := by
  unfold fetch ReadPanics PageStore.readPage
  cases w.get? pageNum with
  | some data => exact Or.inr ⟨fun h => (by cases h.1), returns_ok data⟩
  | none =>
    dsimp only
    cases s.cache pageNum with
    | some data => exact Or.inr ⟨fun h => (by cases h.2.1), returns_ok data⟩
    | none =>
      rcases readAt_cases (s := s) pageNum with ⟨hchecks, hlarge, hread⟩ | ⟨hnot, hread⟩
      · exact Or.inl ⟨⟨rfl, rfl, hchecks, hlarge⟩, _, hread⟩
      · exact Or.inr ⟨fun h => hnot h.2.2, hread⟩

theorem returns_fetch_iff (pageNum : PageNum) : Returns (fetch w s pageNum) ↔ ¬ ReadPanics w s pageNum := by
  rcases fetch_cases (w := w) (s := s) pageNum with ⟨hpanics, message, hfetch⟩ | ⟨hnot, hreturns⟩
  · exact iff_of_false (fun h => h.1 message hfetch) (fun h => h hpanics)
  · exact iff_of_true hreturns hnot

theorem cost_readThrough (pageNum : PageNum) (l : ℓ) : Proc.cost (readThrough w pageNum) l s ≤ 1 := by
  unfold readThrough
  cases w.get? pageNum with
  | some page => exact Nat.zero_le 1
  | none => exact Nat.le_refl 1

-- The pages the loop asks for, when `left` more are allowed and it has `len` bytes.
def chain (w : HashMap PageNum Bytes) (s : PageStore) (dataLen : Nat) :
    Nat → List PageNum → Nat → PageNum → List PageNum
  | 0, _, _, _ => []
  | left + 1, visited, len, pageNum =>
    if pageNum = 0 ∨ dataLen ≤ len ∨ pageNum ∈ visited then []
    else pageNum :: (fetched w s pageNum).elim [] fun page =>
      chain w s dataLen left (pageNum :: visited) (len + min MAX_OVERFLOW_DATA (dataLen - len)) (natAt page 4088 8)

-- One round of the loop on a page that could be read.
theorem exec_readOverflow_next (left : Nat) (hw : Whole w s) {dataLen : Nat} {visited : List PageNum}
    {data page : Bytes} {pageNum : PageNum} (hgo : ¬ (pageNum = 0 ∨ dataLen ≤ data.length))
    (hnew : pageNum ∉ visited)
    (hpage : fetched w s pageNum = some page) (l : ℓ) :
    ∃ chunk : Bytes, chunk.length = min MAX_OVERFLOW_DATA (dataLen - data.length) ∧
      Proc.exec (readOverflow w dataLen (left + 1) visited data pageNum) l s =
        Proc.exec (readOverflow w dataLen left (pageNum :: visited) (data ++ chunk) (natAt page 4088 8)) l s ∧
      Proc.cost (readOverflow w dataLen (left + 1) visited data pageNum) l s ≤
        1 + Proc.cost (readOverflow w dataLen left (pageNum :: visited) (data ++ chunk) (natAt page 4088 8)) l s := by
  have hread := exec_readThrough hpage l
  have hsize : page.length = 4096 := hw pageNum page hpage
  have hmin := Nat.min_le_left MAX_OVERFLOW_DATA (dataLen - data.length)
  have hmax : MAX_OVERFLOW_DATA = 4088 := rfl
  have hchunk : slice page 0 (min MAX_OVERFLOW_DATA (dataLen - data.length)) =
      .ok (bytesAt page 0 (min MAX_OVERFLOW_DATA (dataLen - data.length))) := by
    have hfits : 0 + min MAX_OVERFLOW_DATA (dataLen - data.length) ≤ page.length := by omega
    have hslice := slice_eq hfits
    rwa [Nat.zero_add] at hslice
  have hnext : readNat page (PAGE_SIZE - OVERFLOW_SIZE) 8 = .ok (natAt page 4088 8) := by
    show readNat page 4088 8 = _
    exact readNat_eq (by omega)
  refine ⟨bytesAt page 0 (min MAX_OVERFLOW_DATA (dataLen - data.length)), ?_, ?_, ?_⟩
  · unfold bytesAt
    rw [List.drop_zero, List.length_take]
    omega
  · rw [readOverflow, if_neg hgo, if_neg hnew, Proc.exec_bind_ok hread, hchunk,
      Proc.exec_bind_ok (Proc.exec_ofExcept_ok _ l s), hnext,
      Proc.exec_bind_ok (Proc.exec_ofExcept_ok _ l s)]
  · rw [readOverflow, if_neg hgo, if_neg hnew]
    refine Proc.cost_bind_le (cost_readThrough pageNum l) ?_
    intro page' l' s' hok
    rw [hread] at hok
    cases hok
    rw [hchunk, hnext]
    exact Nat.le_refl _

-- The loop reads no more pages than it may.
theorem cost_readOverflow (hw : Whole w s) (dataLen left : Nat) (visited : List PageNum) (data : Bytes)
    (pageNum : PageNum) (l : ℓ) : Proc.cost (readOverflow w dataLen left visited data pageNum) l s ≤ left := by
  induction left generalizing visited data pageNum with
  | zero =>
    unfold readOverflow
    split
    · exact Nat.le_refl 0
    split
    · exact Nat.le_refl 0
    · exact Nat.le_refl 0
  | succ left ih =>
    by_cases hstop : pageNum = 0 ∨ dataLen ≤ data.length
    · rw [readOverflow, if_pos hstop]
      exact Nat.zero_le _
    by_cases hseen : pageNum ∈ visited
    · rw [readOverflow, if_neg hstop, if_pos hseen]
      exact Nat.zero_le _
    cases hpage : fetched w s pageNum with
    | none =>
      rw [readOverflow, if_neg hstop, if_neg hseen, Nat.add_comm]
      refine Proc.cost_bind_le (cost_readThrough pageNum l) ?_
      intro page l' s' hok
      rw [exec_readThrough_eq] at hok
      rw [fetch_eq_ok.mp (congrArg Prod.fst hok)] at hpage
      cases hpage
    | some page =>
      obtain ⟨chunk, -, -, hcost⟩ := exec_readOverflow_next left hw hstop hseen hpage l
      have hrest := ih (pageNum :: visited) (data ++ chunk) (natAt page 4088 8)
      omega

-- The loop returns unless reading one of the pages it asks for panics.
theorem readOverflow_returns_iff (hw : Whole w s) (dataLen left : Nat) (visited : List PageNum)
    (data : Bytes) (pageNum : PageNum) (l : ℓ) :
    Returns (Proc.exec (readOverflow w dataLen left visited data pageNum) l s).1 ↔
      ∀ p ∈ chain w s dataLen left visited data.length pageNum, ¬ ReadPanics w s p := by
  induction left generalizing visited data pageNum with
  | zero =>
    refine iff_of_true ?_ (fun p hp => absurd hp List.not_mem_nil)
    unfold readOverflow
    split
    · exact returns_ok _
    split
    · exact returns_other _
    · exact returns_other _
  | succ left ih =>
    rw [chain]
    by_cases hstop : pageNum = 0 ∨ dataLen ≤ data.length
    · rw [readOverflow, if_pos hstop, if_pos (by rw [← or_assoc]; exact Or.inl hstop)]
      exact iff_of_true (returns_ok _) (fun p hp => absurd hp List.not_mem_nil)
    by_cases hseen : pageNum ∈ visited
    · rw [readOverflow, if_neg hstop, if_pos hseen, if_pos (Or.inr (Or.inr hseen))]
      exact iff_of_true (returns_other _) (fun p hp => absurd hp List.not_mem_nil)
    rw [if_neg (by rw [← or_assoc]; exact fun h => h.elim hstop hseen), List.forall_mem_cons]
    cases hpage : fetched w s pageNum with
    | none =>
      have hread := exec_readThrough_eq (w := w) (s := s) pageNum l
      have hreturns := returns_fetch_iff (w := w) (s := s) pageNum
      rw [readOverflow, if_neg hstop, if_neg hseen]
      dsimp only [Option.elim]
      cases hfetch : fetch w s pageNum with
      | ok page =>
        rw [fetch_eq_ok.mp hfetch] at hpage
        cases hpage
      | error e =>
        rw [hfetch] at hread hreturns
        rw [Proc.exec_bind_error hread]
        refine Iff.trans ⟨fun h => ?_, fun h => ?_⟩ (hreturns.trans (and_iff_left fun p hp => absurd hp List.not_mem_nil).symm)
        · exact h.error
        · exact h.error
    | some page =>
      obtain ⟨chunk, hlen, hexec, -⟩ := exec_readOverflow_next left hw hstop hseen hpage l
      have hfetched : ¬ ReadPanics w s pageNum := by
        rw [← returns_fetch_iff, fetch_eq_ok.mpr hpage]
        exact returns_ok page
      rw [hexec, ih, List.length_append, hlen]
      exact (and_iff_right hfetched).symm

theorem cost_readVersionedDocument (hw : Whole w s) (pageNum : PageNum) (l : ℓ) :
    Proc.cost (readVersionedDocument w pageNum) l s ≤ MAX_OVERFLOW_CHAIN_LENGTH + 1 := by
  rw [Nat.add_comm]
  refine Proc.cost_bind_le (cost_readThrough pageNum l) ?_
  intro page l' s' hread
  rw [exec_readThrough_eq] at hread
  obtain rfl : s = s' := congrArg (fun r => r.2.2) hread
  cases hfirst : readFirstPage page with
  | error e => exact Nat.zero_le _
  | ok first =>
    rw [Proc.cost_ofExcept_bind, ← Nat.add_zero MAX_OVERFLOW_CHAIN_LENGTH]
    refine Proc.cost_bind_le (cost_readOverflow hw first.dataLen MAX_OVERFLOW_CHAIN_LENGTH [] first.data
      first.overflow l') ?_
    intro data l'' s'' _
    split
    · exact Nat.le_refl 0
    · exact Nat.le_refl 0

-- After the first page the reader returns as the loop does.
theorem readVersionedDocument_first {page : Bytes} {first : FirstPage} {pageNum : PageNum}
    (hpage : fetched w s pageNum = some page) (hfirst : readFirstPage page = .ok first) (l : ℓ) :
    Returns (Proc.exec (readVersionedDocument w pageNum) l s).1 ↔
      Returns (Proc.exec (readOverflow w first.dataLen MAX_OVERFLOW_CHAIN_LENGTH [] first.data first.overflow) l s).1 := by
  unfold readVersionedDocument
  rw [Proc.exec_bind_ok (exec_readThrough hpage l), hfirst,
    Proc.exec_bind_ok (Proc.exec_ofExcept_ok _ l s), Proc.exec_bind]
  rcases Proc.exec (readOverflow w first.dataLen MAX_OVERFLOW_CHAIN_LENGTH [] first.data
    first.overflow) l s with ⟨r, l', s'⟩
  cases r with
  | error e => exact ⟨fun h => h.error, fun h => h.error⟩
  | ok data =>
    refine iff_of_true ?_ (returns_ok data)
    simp only
    split
    · exact returns_other _
    · exact returns_ok _

-- What stops the reader with a panic: a page that cannot be asked for, or a first page that is
-- overlong.
structure SafeFrom (w : HashMap PageNum Bytes) (s : PageStore) (pageNum : PageNum) : Prop where
  first : ¬ ReadPanics w s pageNum
  fits : ∀ page, fetched w s pageNum = some page → ¬ Overlong page
  rest : ∀ page first, fetched w s pageNum = some page → readFirstPage page = .ok first →
    ∀ p ∈ chain w s first.dataLen MAX_OVERFLOW_CHAIN_LENGTH [] first.data.length first.overflow, ¬ ReadPanics w s p

-- Reading a document returns exactly when the first page is not overlong and all pages that are
-- asked for can be; it never reads more pages than the chain may have.
theorem readVersionedDocument_returns_iff (hw : Whole w s) (pageNum : PageNum) :
    (Returns (Proc.exec (readVersionedDocument w pageNum) () s).1 ∧
      Proc.cost (readVersionedDocument w pageNum) () s ≤ MAX_OVERFLOW_CHAIN_LENGTH + 1) ↔
    SafeFrom w s pageNum := by
  rw [and_iff_left (cost_readVersionedDocument hw pageNum ())]
  have hreturns := returns_fetch_iff (w := w) (s := s) pageNum
  cases hfetch : fetch w s pageNum with
  | error e =>
    have hnone : ∀ page, fetched w s pageNum ≠ some page := by
      intro page hpage
      rw [fetch_eq_ok.mpr hpage] at hfetch
      cases hfetch
    have hread := exec_readThrough_eq (w := w) (s := s) pageNum ()
    rw [hfetch] at hreturns hread
    unfold readVersionedDocument
    rw [Proc.exec_bind_error hread]
    constructor
    · intro h
      exact ⟨hreturns.mp h.error, fun page hpage => absurd hpage (hnone page),
        fun page first hpage => absurd hpage (hnone page)⟩
    · intro h
      exact (hreturns.mpr h.first).error
  | ok page =>
    rw [hfetch] at hreturns
    have hpage := fetch_eq_ok.mp hfetch
    have honly : ∀ page', fetched w s pageNum = some page' → page = page' := by
      intro page' hpage'
      rw [hpage] at hpage'
      exact Option.some.inj hpage'
    by_cases hlong : Overlong page
    · refine iff_of_false ?_ (fun h => h.fits page hpage hlong)
      intro h
      obtain ⟨message, hpanic⟩ := readFirstPage_panics (hw pageNum page hpage) hlong
      unfold readVersionedDocument at h
      rw [Proc.exec_bind_ok (exec_readThrough hpage ()), hpanic] at h
      exact h.1 message rfl
    have hfirst := readFirstPage_returns (hw pageNum page hpage) hlong
    have hfits : ∀ page', fetched w s pageNum = some page' → ¬ Overlong page' := by
      intro page' hpage'
      rw [← honly page' hpage']
      exact hlong
    cases hread : readFirstPage page with
    | error e =>
      rw [hread] at hfirst
      unfold readVersionedDocument
      rw [Proc.exec_bind_ok (exec_readThrough hpage ()), hread]
      refine iff_of_true hfirst.error ⟨hreturns.mp (returns_ok page), hfits, ?_⟩
      intro page' first hpage' hfirst'
      rw [← honly page' hpage', hread] at hfirst'
      cases hfirst'
    | ok first =>
      rw [readVersionedDocument_first hpage hread, readOverflow_returns_iff hw]
      constructor
      · intro h
        refine ⟨hreturns.mp (returns_ok page), hfits, ?_⟩
        intro page' first' hpage' hfirst'
        rw [← honly page' hpage', hread] at hfirst'
        obtain rfl := Except.ok.inj hfirst'
        exact h
      · intro h
        exact h.rest page first hpage hread

end Read

-- Every page is this one, and is in the cache.
def constantStore (page : Bytes) : PageStore := ⟨fun _ => some page, fun _ => some page, 2, [], false, true⟩

theorem fetched_constantStore (page : Bytes) (pageNum : PageNum) :
    fetched ∅ (constantStore page) pageNum = some page := rfl

theorem not_readPanics_constantStore (page : Bytes) (pageNum : PageNum) :
    ¬ ReadPanics ∅ (constantStore page) pageNum := fun h => by cases h.2.1

theorem whole_constantStore {page : Bytes} (hpage : page.length = PAGE_SIZE) :
    Whole ∅ (constantStore page) := by
  intro pageNum page' h
  rw [fetched_constantStore] at h
  rw [← Option.some.inj h]
  exact hpage

theorem readVersionedDocument_returns_zeros :
    Returns (Proc.exec (readVersionedDocument ∅ 1) () (constantStore zeroPage)).1 ∧
      Proc.cost (readVersionedDocument ∅ 1) () (constantStore zeroPage) ≤
        MAX_OVERFLOW_CHAIN_LENGTH + 1 := by
  refine (readVersionedDocument_returns_iff (whole_constantStore List.length_replicate) 1).mpr
    ⟨not_readPanics_constantStore zeroPage 1, ?_, fun _ _ _ _ p _ => not_readPanics_constantStore zeroPage p⟩
  intro page hpage hlong
  rw [fetched_constantStore] at hpage
  obtain rfl := Option.some.inj hpage
  have hzero : natAt zeroPage 16 2 = 0 := by decide +kernel
  have hlow : 4067 ≤ natAt zeroPage 16 2 := hlong.1
  omega

-- A page of zeros but for the length of the id, which is 4070.
def overlongPage : Bytes := List.replicate 16 0 ++ (leBytes 2 4070 ++ List.replicate 4078 0)

theorem overlong_overlongPage : Overlong overlongPage := by
  have hidLen : natAt overlongPage 16 2 = 4070 := by decide +kernel
  have hrest : overlongPage.drop 18 = List.replicate 4078 0 := by
    unfold overlongPage
    rw [← List.append_assoc]
    refine List.drop_left' ?_
    rw [List.length_append, List.length_replicate, length_leBytes]
  have hid : bytesAt overlongPage 18 4070 = List.replicate 4070 0 := by
    unfold bytesAt
    rw [hrest, List.take_replicate]
    rfl
  have hdata : natAt overlongPage (18 + 4070) 4 = 0 := by
    unfold natAt bytesAt
    rw [← List.drop_drop, hrest, List.drop_replicate, List.take_replicate]
    rfl
  obtain ⟨id, hutf⟩ := exists_utf8_replicate 4070
  unfold Overlong
  rw [hidLen, hid, ← hutf, fromUtf8_utf8, hdata]
  refine ⟨by omega, by omega, rfl, fun _ => Nat.zero_le _⟩

theorem readVersionedDocument_panics :
    Whole ∅ (constantStore overlongPage) ∧
      ∃ message, (Proc.exec (readVersionedDocument ∅ 1) () (constantStore overlongPage)).1 =
        .error (.panic message) := by
  have hpage : overlongPage.length = PAGE_SIZE := by
    unfold overlongPage
    rw [List.length_append, List.length_append, List.length_replicate, List.length_replicate, length_leBytes]
    rfl
  have hfetched := fetched_constantStore overlongPage 1
  obtain ⟨message, hpanic⟩ := readFirstPage_panics hpage overlong_overlongPage
  refine ⟨whole_constantStore hpage, message, ?_⟩
  unfold readVersionedDocument
  rw [Proc.exec_bind_ok (exec_readThrough hfetched ()), hpanic]
  rfl

end JasonDb.Codec
