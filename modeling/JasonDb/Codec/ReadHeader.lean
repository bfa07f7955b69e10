import Mathlib.Data.UInt
import JasonDb.Checked
import JasonDb.Codec.Decoded
import JasonDb.Codec.Header

namespace JasonDb.Codec

open Lib

-- What `read_header` checks after the size of the file.
def checkPages (header : Header) : Except Error Header := do
  let numPages := header.numPages.toNat
  let metadataPage := header.metadataPage.toNat
  let freeList := header.freeList.map UInt64.toNat
  if metadataPage ≠ 0 ∧ metadataPage ≥ numPages then
    .error (.dataCorruption s!"invalid metadata_page: {metadataPage} (must be < num_pages {numPages})")
  else do
    Pager.checkFreeList numPages 0 freeList
    Pager.checkDuplicates 0 [] freeList
    if metadataPage ≠ 0 ∧ metadataPage ∈ freeList then
      .error (.dataCorruption s!"metadata_page {metadataPage} is in free_list (metadata page is in use, cannot be free)")
    else .ok header

-- `read_header` on the bytes of a file. It returns the header the pager takes over.
def readHeader (checks : Bool) (file : Bytes) : Except Error Header := do
  let fileSize := UInt64.ofNat file.length
  if file.length < PAGE_SIZE then .error (.io "failed to fill whole buffer")
  else do
    let header ← Header.deserialize (file.take PAGE_SIZE)
    let numPages := header.numPages.toNat
    if header.numPages < 1 then
      .error (.dataCorruption s!"invalid num_pages: {numPages} (must be at least 1 for header page)")
    else do
      let expectedMinSize ← mulU64 checks header.numPages (UInt64.ofNat PAGE_SIZE)
      if fileSize < expectedMinSize then
        let expected := expectedMinSize.toNat
        let size := fileSize.toNat
        .error (.dataCorruption s!"file truncated: header claims {numPages} pages ({expected} bytes) but file is only {size} bytes")
      else checkPages header

-- The file starts with a page that says it is a header of this format.
def Named (file : Bytes) : Prop :=
  PAGE_SIZE ≤ file.length ∧ bytesAt file 0 4 = MAGIC ∧ natAt file 4 4 = VERSION ∧ natAt file 8 4 = PAGE_SIZE

-- The entries of the free list at 40, as many as the count at 20 says and the page has room for.
def freeEntries (file : Bytes) : List Nat :=
  (List.range (min (natAt file 20 4) ((PAGE_SIZE - 40) / 8))).map fun i => natAt file (40 + 8 * i) 8

-- What a header promises of the file. Its fields are the bytes of the file and nothing else.
structure Valid (file : Bytes) (header : Header) : Prop where
  named : Named file
  freeCount : header.freeCount.toNat = natAt file 20 4
  freeList : header.freeList.map UInt64.toNat = freeEntries file
  numPages : header.numPages.toNat = natAt file 12 8
  metadataPage : header.metadataPage.toNat = natAt file 24 8
  nextTxId : header.nextTxId.toNat = natAt file 32 8
  nonempty : 1 ≤ header.numPages.toNat
  size : header.numPages.toNat * PAGE_SIZE ≤ file.length
  metadata : header.metadataPage = 0 ∨ header.metadataPage.toNat < header.numPages.toNat
  free : ∀ n ∈ header.freeList, n ≠ 0 ∧ n.toNat < header.numPages.toNat ∧ n ≠ header.metadataPage
  nodup : header.freeList.Nodup

section Deserialize

variable {file : Bytes} {offset width : Nat}

theorem bytesAt_take (h : offset + width ≤ PAGE_SIZE) :
    bytesAt (file.take PAGE_SIZE) offset width = bytesAt file offset width := by
  unfold bytesAt
  rw [List.drop_take, List.take_take, Nat.min_eq_left (by omega)]

theorem natAt_lt (data : Bytes) (offset width : Nat) : natAt data offset width < 256 ^ width := by
  refine Nat.lt_of_lt_of_le (ofLeBytes_lt _) (Nat.pow_le_pow_right (by decide) ?_)
  rw [bytesAt, List.length_take]
  omega

theorem slice_take (hfile : PAGE_SIZE ≤ file.length) (h : offset + width ≤ PAGE_SIZE) :
    slice (file.take PAGE_SIZE) offset (offset + width) = .ok (bytesAt file offset width) := by
  rw [slice_eq (by rw [List.length_take]; omega), bytesAt_take h]

theorem readU32_take (hfile : PAGE_SIZE ≤ file.length) (h : offset + 4 ≤ PAGE_SIZE) :
    Header.readU32 (file.take PAGE_SIZE) offset = .ok (UInt32.ofNat (natAt file offset 4)) := by
  simp only [Header.readU32, readNat, slice_take hfile h, bind, Except.bind]
  rfl

theorem readU64_take (hfile : PAGE_SIZE ≤ file.length) (h : offset + 8 ≤ PAGE_SIZE) :
    Header.readU64 (file.take PAGE_SIZE) offset = .ok (UInt64.ofNat (natAt file offset 8)) := by
  simp only [Header.readU64, readNat, slice_take hfile h, bind, Except.bind]
  rfl

theorem toNat_natAt_four (file : Bytes) (offset : Nat) :
    (UInt32.ofNat (natAt file offset 4)).toNat = natAt file offset 4 :=
  UInt32.toNat_ofNat_of_lt' (natAt_lt file offset 4)

theorem toNat_natAt_eight (file : Bytes) (offset : Nat) :
    (UInt64.ofNat (natAt file offset 8)).toNat = natAt file offset 8 :=
  UInt64.toNat_ofNat_of_lt' (natAt_lt file offset 8)

-- The check of the offset keeps every entry inside the page.
theorem readFreeList_take (hfile : PAGE_SIZE ≤ file.length) (count offset : Nat) :
    Header.readFreeList (file.take PAGE_SIZE) count offset =
      .ok ((List.range (min count ((PAGE_SIZE - offset) / 8))).map fun i =>
        UInt64.ofNat (natAt file (offset + 8 * i) 8)) := by
  induction count generalizing offset with
  | zero => rw [Nat.zero_min]; rfl
  | succ count ih =>
    unfold Header.readFreeList
    split
    next hroom =>
      have hnone : (PAGE_SIZE - offset) / 8 = 0 := by omega
      rw [hnone, Nat.min_zero]
      rfl
    next hroom =>
      have hmore : min (count + 1) ((PAGE_SIZE - offset) / 8) =
          min count ((PAGE_SIZE - (offset + 8)) / 8) + 1 := by omega
      have hnext : ∀ i, offset + 8 * (i + 1) = offset + 8 + 8 * i := fun i => by omega
      rw [readU64_take hfile (by omega), hmore, List.range_succ_eq_map]
      simp only [bind, Except.bind, ih (offset + 8), List.map_cons, List.map_map, Function.comp_def,
        Nat.succ_eq_add_one, hnext, Nat.mul_zero, Nat.add_zero]

theorem map_freeEntries (file : Bytes) :
    ((List.range (min (natAt file 20 4) ((PAGE_SIZE - 40) / 8))).map fun i =>
      UInt64.ofNat (natAt file (40 + 8 * i) 8)).map UInt64.toNat = freeEntries file := by
  rw [freeEntries, List.map_map]
  exact List.map_congr_left fun i _ => toNat_natAt_eight file (40 + 8 * i)

-- A page that says it is a header is read as one, and any other is refused.
theorem deserialize_cases (hfile : PAGE_SIZE ≤ file.length) :
    (¬ Named file ∧ ∃ e ∈ [Error.invalidMagic, .invalidVersion, .invalidPageSize],
      Header.deserialize (file.take PAGE_SIZE) = .error e) ∨
    (Named file ∧ ∃ header, Header.deserialize (file.take PAGE_SIZE) = .ok header ∧
      header.freeCount.toNat = natAt file 20 4 ∧ header.freeList.map UInt64.toNat = freeEntries file ∧
      header.numPages.toNat = natAt file 12 8 ∧ header.metadataPage.toNat = natAt file 24 8 ∧
      header.nextTxId.toNat = natAt file 32 8) := by
  have hlen : ¬ (file.take PAGE_SIZE).length < PAGE_SIZE := by
    rw [List.length_take]
    omega
  have hmagic : slice (file.take PAGE_SIZE) 0 4 = .ok (bytesAt file 0 4) :=
    slice_take hfile (show 0 + 4 ≤ PAGE_SIZE by decide)
  unfold Header.deserialize
  rw [if_neg hlen, hmagic, readU32_take hfile (by decide), readU32_take hfile (by decide),
    readU64_take hfile (by decide), readU32_take hfile (by decide), readU64_take hfile (by decide),
    readU64_take hfile (by decide)]
  simp only [bind, Except.bind, toNat_natAt_four, readFreeList_take hfile]
  by_cases hm : bytesAt file 0 4 = MAGIC
  · by_cases hv : natAt file 4 4 = VERSION
    · by_cases hs : natAt file 8 4 = PAGE_SIZE
      · right
        refine ⟨⟨hfile, hm, hv, hs⟩, _, by rw [if_neg (not_not.mpr hm), if_neg (not_not.mpr hv),
          if_neg (not_not.mpr hs)], toNat_natAt_four file 20, map_freeEntries file, toNat_natAt_eight file 12, toNat_natAt_eight file 24,
          toNat_natAt_eight file 32⟩
      · left
        refine ⟨fun hnamed => hs hnamed.2.2.2, .invalidPageSize, by simp, ?_⟩
        rw [if_neg (not_not.mpr hm), if_neg (not_not.mpr hv), if_pos hs]
    · left
      refine ⟨fun hnamed => hv hnamed.2.2.1, .invalidVersion, by simp, ?_⟩
      rw [if_neg (not_not.mpr hm), if_pos hv]
  · left
    refine ⟨fun hnamed => hm hnamed.2.1, .invalidMagic, by simp, ?_⟩
    rw [if_pos hm]

end Deserialize

section Checks

theorem returns_corruption (details : String) :
    Returns (.error (.dataCorruption details) : Except Error α) :=
  returns_error (fun _ h => by cases h) (fun h => by cases h)

theorem returns_checkFreeList (numPages i : Nat) (pages : List PageNum) :
    Returns (Pager.checkFreeList numPages i pages) := by
  induction pages generalizing i with
  | nil => exact returns_ok ()
  | cons pageNum rest ih =>
    unfold Pager.checkFreeList
    split
    · exact returns_corruption _
    · split
      · exact returns_corruption _
      · exact ih (i + 1)

theorem returns_checkDuplicates (i : Nat) (seen pages : List PageNum) :
    Returns (Pager.checkDuplicates i seen pages) := by
  induction pages generalizing i seen with
  | nil => exact returns_ok ()
  | cons pageNum rest ih =>
    unfold Pager.checkDuplicates
    split
    · exact returns_corruption _
    · exact ih (i + 1) (pageNum :: seen)

end Checks

section Exact

variable {file : Bytes} {checks : Bool} {header : Header}

theorem returns_checkPages (header : Header) : Returns (checkPages header) := by
  unfold checkPages
  dsimp only
  split
  · exact returns_corruption _
  · refine returns_bind (returns_checkFreeList _ _ _) fun _ _ => ?_
    refine returns_bind (returns_checkDuplicates _ _ _) fun _ _ => ?_
    split
    · exact returns_corruption _
    · exact returns_ok header

theorem checkPages_ok {header' : Header} (h : checkPages header = .ok header') : header' = header ∧
    (header.metadataPage = 0 ∨ header.metadataPage.toNat < header.numPages.toNat) ∧
    (∀ n ∈ header.freeList, n ≠ 0 ∧ n.toNat < header.numPages.toNat ∧ n ≠ header.metadataPage) ∧
    header.freeList.Nodup := by
  unfold checkPages at h
  dsimp only at h
  split at h
  · cases h
  next hmeta =>
    obtain ⟨_, hfree, h⟩ := bind_eq_ok h
    obtain ⟨_, hdup, h⟩ := bind_eq_ok h
    split at h
    · cases h
    next hused =>
      have hzero : ∀ n : UInt64, n.toNat = 0 → n = 0 := fun n hn => UInt64.toNat.inj hn
      have hmem : ∀ n ∈ header.freeList, n.toNat ∈ header.freeList.map UInt64.toNat :=
        fun n hn => List.mem_map_of_mem hn
      refine ⟨(Except.ok.inj h).symm, ?_, ?_, ?_⟩
      · by_cases hset : header.metadataPage.toNat = 0
        · exact .inl (hzero _ hset)
        · exact .inr (Nat.not_le.mp fun hle => hmeta ⟨hset, hle⟩)
      · intro n hn
        obtain ⟨hpos, hlt⟩ := checkFreeList_ok hfree n.toNat (hmem n hn)
        refine ⟨?_, hlt, ?_⟩
        · rintro rfl
          exact Nat.lt_irrefl 0 hpos
        · rintro rfl
          exact hused ⟨Nat.ne_of_gt hpos, hmem _ hn⟩
      · exact (checkDuplicates_ok hdup).1.of_map _

theorem readHeader_spec (hsmall : Named file → natAt file 12 8 < 2 ^ 52) :
    Returns (readHeader checks file) ∧
      ∀ header, readHeader checks file = .ok header → Valid file header := by
  unfold readHeader
  by_cases hfile : file.length < PAGE_SIZE
  · rw [if_pos hfile]
    refine ⟨returns_error (fun _ h => by cases h) (fun h => by cases h), fun _ h => ?_⟩
    cases h
  · rw [if_neg hfile]
    rcases deserialize_cases (Nat.not_lt.mp hfile) with ⟨-, e, he, hread⟩ | ⟨hnamed, header, hread, hcount, hentries, hpages, hmeta, htx⟩
    · rw [hread]
      refine ⟨?_, fun _ h => by cases h⟩
      simp only [List.mem_cons, List.not_mem_nil, or_false] at he
      rcases he with rfl | rfl | rfl
      · exact returns_error (fun _ h => by cases h) (fun h => by cases h)
      · exact returns_error (fun _ h => by cases h) (fun h => by cases h)
      · exact returns_error (fun _ h => by cases h) (fun h => by cases h)
    · obtain ⟨hmul, hproduct⟩ := mulU64_small checks (offset_fits_iff.mpr (hpages ▸ hsmall hnamed))
      rw [hread]
      simp only [bind, Except.bind]
      split
      · exact ⟨returns_corruption _, fun _ h => by cases h⟩
      next hpos =>
        rw [hmul]
        dsimp only
        split
        · exact ⟨returns_corruption _, fun _ h => by cases h⟩
        next hsize =>
          refine ⟨returns_checkPages header, ?_⟩
          intro header' h
          obtain ⟨rfl, hmetadata, hfree, hnodup⟩ := checkPages_ok h
          refine ⟨hnamed, hcount, hentries, hpages, hmeta, htx, ?_, ?_, hmetadata, hfree, hnodup⟩
          · exact Nat.not_lt.mp fun hlt => hpos (UInt64.lt_iff_toNat_lt.mpr hlt)
          · -- the length as the file system gives it is at most the length
            have hle := Nat.not_lt.mp fun hlt => hsize (UInt64.lt_iff_toNat_lt.mpr hlt)
            rw [hproduct, PAGE_SIZE_toNat] at hle
            refine Nat.le_trans hle ?_
            rw [UInt64.toNat_ofNat']
            exact Nat.mod_le _ _

theorem readHeader_panics (hnamed : Named file) (hlarge : 2 ^ 52 ≤ natAt file 12 8) :
    readHeader true file = .error (.panic "attempt to multiply with overflow") := by
  unfold readHeader
  rw [if_neg (Nat.not_lt.mpr hnamed.1)]
  rcases deserialize_cases hnamed.1 with ⟨hnot, -⟩ | ⟨-, header, hread, -, -, hpages, -, -⟩
  · exact absurd hnamed hnot
  · have hproduct : 2 ^ 64 ≤ header.numPages.toNat * (UInt64.ofNat PAGE_SIZE).toNat :=
      Nat.not_lt.mp fun hlt => Nat.not_lt.mpr hlarge (hpages ▸ offset_fits_iff.mp hlt)
    have hpos : ¬ header.numPages < 1 := by
      intro hlt
      have := UInt64.lt_iff_toNat_lt.mp hlt
      have hone : (1 : UInt64).toNat = 1 := rfl
      omega
    rw [hread]
    simp only [bind, Except.bind, if_neg hpos, mulU64_large hproduct]

-- In builds with and without overflow checks `read_header` ends without a panic and accepts only
-- valid headers, exactly when a page that says it is a header claims fewer than 2^52 pages. That
-- nothing overflows is the same as that nothing panics in the build with checks.
theorem readHeader_exact_iff (file : Bytes) :
    (∀ checks, Returns (readHeader checks file) ∧
      ∀ header, readHeader checks file = .ok header → Valid file header) ↔
    (Named file → natAt file 12 8 < 2 ^ 52) := by
  constructor
  · intro h hnamed
    by_contra hlarge
    exact (h true).1.1 _ (readHeader_panics hnamed (Nat.not_lt.mp hlarge))
  · intro h checks
    exact readHeader_spec h

-- A file of one page whose header claims 2^52 pages.
def hugeClaim : PagerFields := ⟨2 ^ 52, 0, 1, [], false⟩

def hugeFile : Bytes := hugeClaim.getHeaderData.getD []

theorem deserialize_hugeFile : hugeFile.length = PAGE_SIZE ∧
    Header.deserialize (hugeFile.take PAGE_SIZE) = .ok hugeClaim.header := by
  obtain ⟨page, hpage, hlen, hread⟩ := hugeClaim.deserialize_header
  have hfile : hugeFile = page := by rw [hugeFile, hpage, Option.getD_some]
  rw [hfile, List.take_of_length_le (Nat.le_of_eq hlen)]
  exact ⟨hlen, hread⟩

-- Without overflow checks the product is 0 and the file is accepted; with them it is a panic.
theorem huge_claim_accepted : readHeader false hugeFile = .ok hugeClaim.header ∧
    ¬ Valid hugeFile hugeClaim.header ∧
    readHeader true hugeFile = .error (.panic "attempt to multiply with overflow") := by
  obtain ⟨hlen, hread⟩ := deserialize_hugeFile
  refine ⟨?_, ?_, ?_⟩
  · unfold readHeader
    rw [if_neg (by rw [hlen]; decide), hread, hlen]
    rfl
  · intro h
    have hsize := h.size
    rw [hlen] at hsize
    revert hsize
    decide
  · unfold readHeader
    rw [if_neg (by rw [hlen]; decide), hread]
    rfl

end Exact

end JasonDb.Codec
