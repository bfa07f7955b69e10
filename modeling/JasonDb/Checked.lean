import JasonDb.Basic

namespace JasonDb

-- Arithmetic on `u64`. What does not fit is a panic in a build with overflow checks and is cut to
-- 64 bits in one without.
def addU64 (checks : Bool) (a b : UInt64) : Except Error UInt64 :=
  if checks = true ∧ 2 ^ 64 ≤ a.toNat + b.toNat then .error (.panic "attempt to add with overflow")
  else .ok (a + b)

def mulU64 (checks : Bool) (a b : UInt64) : Except Error UInt64 :=
  if checks = true ∧ 2 ^ 64 ≤ a.toNat * b.toNat then .error (.panic "attempt to multiply with overflow")
  else .ok (a * b)

-- A count that does not fit the type is a panic, or is cut to its last six bits.
def shlU64 (checks : Bool) (a : UInt64) (count : Nat) : Except Error UInt64 :=
  if checks = true ∧ 64 ≤ count then .error (.panic "attempt to shift left with overflow")
  else .ok (a <<< UInt64.ofNat count)

-- The greatest offset in a file. The system takes offsets as an `i64`, and no file reaches past it.
def MAX_OFFSET : Nat := 2 ^ 63 - 1

-- `file.seek(SeekFrom::Start(page_num * PAGE_SIZE as u64))`, with the place it arrives at.
def seekPage (checks : Bool) (pageNum : UInt64) : Except Error Nat := do
  let offset ← mulU64 checks pageNum (UInt64.ofNat PAGE_SIZE)
  if MAX_OFFSET < offset.toNat then .error (.io "Invalid argument") else .ok offset.toNat

-- A page written there, by the number of the page in whose place it ends up.
def landing (checks : Bool) (pageNum : UInt64) : Except Error Nat := do
  let offset ← seekPage checks pageNum
  if offset + PAGE_SIZE ≤ MAX_OFFSET then .ok (offset / PAGE_SIZE) else .error (.io "File too large")

-- The page ends at an offset a file can have.
def InPlace (pageNum : Nat) : Prop := (pageNum + 1) * PAGE_SIZE ≤ MAX_OFFSET

instance (pageNum : Nat) : Decidable (InPlace pageNum) := inferInstanceAs (Decidable (_ ≤ _))

theorem inPlace_iff {pageNum : Nat} : InPlace pageNum ↔ pageNum < 2 ^ 51 - 1 := by
  have hpage : PAGE_SIZE = 4096 := rfl
  have hmax : MAX_OFFSET = 2 ^ 63 - 1 := rfl
  rw [InPlace, hpage, hmax]
  omega

section Fits

variable {a b : UInt64}

theorem shlU64_one_small (checks : Bool) {count : Nat} (h : count < 64) :
    shlU64 checks 1 count = .ok (1 <<< UInt64.ofNat count) ∧
      ((1 : UInt64) <<< UInt64.ofNat count).toNat = 2 ^ count := by
  refine ⟨if_neg (by omega), ?_⟩
  have hpow : 2 ^ count < 2 ^ 64 := Nat.pow_lt_pow_right (by decide) h
  rw [UInt64.toNat_shiftLeft, UInt64.toNat_ofNat', Nat.mod_eq_of_lt (show count < 2 ^ 64 by omega),
    Nat.mod_eq_of_lt h, Nat.shiftLeft_eq]
  exact (congrArg (· % 2 ^ 64) (Nat.one_mul _)).trans (Nat.mod_eq_of_lt hpow)

theorem addU64_small (checks : Bool) (h : a.toNat + b.toNat < 2 ^ 64) :
    addU64 checks a b = .ok (a + b) ∧ (a + b).toNat = a.toNat + b.toNat := by
  refine ⟨if_neg (by omega), ?_⟩
  rw [UInt64.toNat_add, Nat.mod_eq_of_lt h]

theorem mulU64_small (checks : Bool) (h : a.toNat * b.toNat < 2 ^ 64) :
    mulU64 checks a b = .ok (a * b) ∧ (a * b).toNat = a.toNat * b.toNat := by
  refine ⟨if_neg (by omega), ?_⟩
  rw [UInt64.toNat_mul, Nat.mod_eq_of_lt h]

theorem mulU64_large (h : 2 ^ 64 ≤ a.toNat * b.toNat) :
    mulU64 true a b = .error (.panic "attempt to multiply with overflow") :=
  if_pos ⟨rfl, h⟩

theorem PAGE_SIZE_toNat : (UInt64.ofNat PAGE_SIZE).toNat = PAGE_SIZE := rfl

-- The place of a page in the file has 64 bits for the first 2^52 pages.
theorem offset_fits_iff : a.toNat * (UInt64.ofNat PAGE_SIZE).toNat < 2 ^ 64 ↔ a.toNat < 2 ^ 52 := by
  have hpage : PAGE_SIZE = 4096 := rfl
  rw [PAGE_SIZE_toNat, hpage]
  omega

end Fits

section Seek

variable {checks : Bool} {pageNum : UInt64}

theorem seekPage_small (checks : Bool) (h : pageNum.toNat < 2 ^ 51) :
    seekPage checks pageNum = .ok (pageNum.toNat * PAGE_SIZE) := by
  obtain ⟨hmul, hoffset⟩ := mulU64_small checks (offset_fits_iff.mpr (show pageNum.toNat < 2 ^ 52 by omega))
  have hmax : ¬ MAX_OFFSET < (pageNum * UInt64.ofNat PAGE_SIZE).toNat := by
    have hpage : PAGE_SIZE = 4096 := rfl
    have hlast : MAX_OFFSET = 2 ^ 63 - 1 := rfl
    rw [hoffset, PAGE_SIZE_toNat, hpage, hlast]
    omega
  rw [seekPage, hmul]
  simp only [bind, Except.bind, if_neg hmax]
  rw [hoffset, PAGE_SIZE_toNat]

theorem seekPage_inPlace (checks : Bool) (h : InPlace pageNum.toNat) :
    seekPage checks pageNum = .ok (pageNum.toNat * PAGE_SIZE) :=
  seekPage_small checks (by have := inPlace_iff.mp h; omega)

theorem landing_inPlace (checks : Bool) (h : InPlace pageNum.toNat) :
    landing checks pageNum = .ok pageNum.toNat := by
  have hend : pageNum.toNat * PAGE_SIZE + PAGE_SIZE ≤ MAX_OFFSET := by
    rw [← Nat.succ_mul]
    exact h
  rw [landing, seekPage_inPlace checks h]
  simp only [bind, Except.bind, if_pos hend]
  rw [Nat.mul_div_cancel _ (show 0 < PAGE_SIZE by decide)]

-- A page lands in its place or nowhere, unless its product is cut.
theorem landing_exact {block : Nat} (huncut : checks = true ∨ pageNum.toNat < 2 ^ 52)
    (h : landing checks pageNum = .ok block) : block = pageNum.toNat := by
  rw [landing, seekPage] at h
  have hproduct : pageNum.toNat * (UInt64.ofNat PAGE_SIZE).toNat < 2 ^ 64 := by
    rcases huncut with rfl | hsmall
    · by_contra hlarge
      rw [mulU64_large (Nat.not_lt.mp hlarge)] at h
      cases h
    · exact offset_fits_iff.mpr hsmall
  obtain ⟨hmul, hoffset⟩ := mulU64_small checks hproduct
  rw [hmul] at h
  simp only [bind, Except.bind, hoffset, PAGE_SIZE_toNat] at h
  split_ifs at h
  dsimp only at h
  split_ifs at h
  rw [← Except.ok.inj h, Nat.mul_div_cancel _ (show 0 < PAGE_SIZE by decide)]

theorem toNat_inPlace {pageNum : Nat} (h : InPlace pageNum) : (UInt64.ofNat pageNum).toNat = pageNum :=
  UInt64.toNat_ofNat_of_lt' (Nat.lt_trans (inPlace_iff.mp h) (by decide))

-- A seek panics, arrives somewhere or is refused.
theorem seekPage_cases (checks : Bool) (pageNum : UInt64) :
    (checks = true ∧ 2 ^ 52 ≤ pageNum.toNat ∧
      seekPage checks pageNum = .error (.panic "attempt to multiply with overflow")) ∨
    (¬ (checks = true ∧ 2 ^ 52 ≤ pageNum.toNat) ∧
      ((∃ offset, seekPage checks pageNum = .ok offset) ∨
        seekPage checks pageNum = .error (.io "Invalid argument"))) := by
  by_cases hpanic : checks = true ∧ 2 ^ 52 ≤ pageNum.toNat
  · obtain ⟨rfl, hlarge⟩ := hpanic
    refine Or.inl ⟨rfl, hlarge, ?_⟩
    have hproduct : 2 ^ 64 ≤ pageNum.toNat * (UInt64.ofNat PAGE_SIZE).toNat :=
      Nat.not_lt.mp fun hlt => Nat.not_lt.mpr hlarge (offset_fits_iff.mp hlt)
    rw [seekPage, mulU64_large hproduct]
    rfl
  · refine Or.inr ⟨hpanic, ?_⟩
    have hmul : mulU64 checks pageNum (UInt64.ofNat PAGE_SIZE) = .ok (pageNum * UInt64.ofNat PAGE_SIZE) :=
      if_neg fun h => hpanic ⟨h.1, Nat.not_lt.mp fun hlt => Nat.not_lt.mpr h.2 (offset_fits_iff.mpr hlt)⟩
    rw [seekPage, hmul]
    dsimp only [bind, Except.bind]
    split
    · exact Or.inr rfl
    · exact Or.inl ⟨_, rfl⟩

-- With overflow checks a seek arrives at the place of the page or nowhere.
theorem seekPage_checked {offset : Nat} (h : seekPage true pageNum = .ok offset) :
    pageNum.toNat < 2 ^ 51 ∧ offset = pageNum.toNat * PAGE_SIZE := by
  by_cases hsmall : pageNum.toNat < 2 ^ 51
  · rw [seekPage_small true hsmall] at h
    exact ⟨hsmall, (Except.ok.inj h).symm⟩
  · exfalso
    by_cases hfits : pageNum.toNat < 2 ^ 52
    · obtain ⟨hmul, hoffset⟩ := mulU64_small true (offset_fits_iff.mpr hfits)
      have hmax : MAX_OFFSET < (pageNum * UInt64.ofNat PAGE_SIZE).toNat := by
        have hpage : PAGE_SIZE = 4096 := rfl
        have hlast : MAX_OFFSET = 2 ^ 63 - 1 := rfl
        rw [hoffset, PAGE_SIZE_toNat, hpage, hlast]
        omega
      rw [seekPage, hmul] at h
      simp only [bind, Except.bind, if_pos hmax] at h
      cases h
    · rw [seekPage, mulU64_large (Nat.not_lt.mp fun hlt => hfits (offset_fits_iff.mp hlt))] at h
      cases h

end Seek

end JasonDb
