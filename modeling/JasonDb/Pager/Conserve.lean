import JasonDb.Database.Opened
import Mathlib.Data.Finset.Basic
import Mathlib.Data.List.TakeWhile

namespace JasonDb

open Lib

namespace Pager

variable {p : Pager}

def allocPage (p : Pager) : Except Error PageNum × Pager := p.allocPageMinimum 0

-- The page comes from the free list, past the pages that are too low, or is new.
theorem allocPageMinimum_cases (h : p.readOnly = false) (minPage : PageNum) :
    (∃ rest n dropped, p.freeList = rest ++ n :: dropped ∧ (∀ d ∈ dropped, d < minPage) ∧ minPage ≤ n ∧
      p.allocPageMinimum minPage = (.ok n, { p with freeList := rest })) ∨
    ((∀ d ∈ p.freeList, d < minPage) ∧ p.allocPageMinimum minPage =
      (.ok p.numPages, { p with freeList := [], numPages := p.numPages + 1 })) := by
  have hsplit := List.takeWhile_append_dropWhile (p := (· < minPage)) (l := p.freeList.reverse)
  have hlow : ∀ d ∈ p.freeList.reverse.takeWhile (· < minPage), d < minPage := by
    intro d hd
    simpa using List.mem_takeWhile_imp hd
  unfold allocPageMinimum
  rw [if_neg (by simp [h])]
  cases hdrop : p.freeList.reverse.dropWhile (· < minPage) with
  | cons n rest =>
    left
    refine ⟨rest.reverse, n, (p.freeList.reverse.takeWhile (· < minPage)).reverse, ?_, ?_, ?_, rfl⟩
    · rw [hdrop] at hsplit
      have hfree := congrArg List.reverse hsplit
      rw [List.reverse_reverse] at hfree
      exact hfree.symm.trans (by simp)
    · intro d hd
      exact hlow d (List.mem_reverse.mp hd)
    · have hhead := List.head?_dropWhile_not (· < minPage) p.freeList.reverse
      rw [hdrop] at hhead
      simpa using hhead
  | nil =>
    right
    refine ⟨?_, rfl⟩
    intro d hd
    rw [hdrop, List.append_nil] at hsplit
    exact hlow d (by rw [hsplit]; exact List.mem_reverse.mpr hd)

theorem allocPageMinimum_readOnly (h : p.readOnly = true) (minPage : PageNum) :
    p.allocPageMinimum minPage = (.error (.other "cannot allocate page: database is read-only"), p) := by
  rw [allocPageMinimum, if_pos h]

end Pager

-- The calls that hand out pages and take them back.
inductive PageOp where
  | allocPage
  | allocPageMinimum (minPage : PageNum)
  | freePage (pageNum : PageNum)

-- A pager and the pages its callers hold.
structure Tenancy where
  pager : Pager
  allocated : Finset PageNum

namespace Tenancy

variable {s : Tenancy}

def take (s : Tenancy) : Except Error PageNum × Pager → Tenancy
  | (.ok n, pager) => ⟨pager, insert n s.allocated⟩
  | (.error _, pager) => ⟨pager, s.allocated⟩

def giveBack (s : Tenancy) (n : PageNum) : Except Error Unit × Pager → Tenancy
  | (.ok _, pager) => ⟨pager, s.allocated.erase n⟩
  | (.error _, pager) => ⟨pager, s.allocated⟩

def step (s : Tenancy) : PageOp → Tenancy
  | .allocPage => s.take s.pager.allocPage
  | .allocPageMinimum minPage => s.take (s.pager.allocPageMinimum minPage)
  | .freePage n => s.giveBack n (s.pager.freePage n)

def run (s : Tenancy) (ops : List PageOp) : Tenancy := ops.foldl step s

-- Only pages that are held are given back.
def Lawful (s : Tenancy) : List PageOp → Prop
  | [] => True
  | .freePage n :: ops => n ∈ s.allocated ∧ (s.step (.freePage n)).Lawful ops
  | op :: ops => (s.step op).Lawful ops

-- Each page but the header is held or free, and free only once.
def Conserves (s : Tenancy) : Prop :=
  ∀ n, 0 < n → n < s.pager.numPages →
    (n ∈ s.allocated ∧ n ∉ s.pager.freeList) ∨ (n ∉ s.allocated ∧ s.pager.freeList.count n = 1)

-- What holds whether or not pages get lost.
structure Sound (s : Tenancy) : Prop where
  nonempty : 0 < s.pager.numPages
  nodup : s.pager.freeList.Nodup
  range : ∀ n ∈ s.pager.freeList, 0 < n ∧ n < s.pager.numPages
  held : ∀ n ∈ s.allocated, 0 < n ∧ n < s.pager.numPages ∧ n ∉ s.pager.freeList

-- No free page is too low to be reached.
def Reachable (s : Tenancy) (minPage : PageNum) : Prop :=
  s.pager.readOnly = true ∨ ∀ n, s.pager.freeList.getLast? = some n → minPage ≤ n

theorem run_append (s : Tenancy) (ops ops' : List PageOp) :
    s.run (ops ++ ops') = (s.run ops).run ops' := List.foldl_append

section Steps

-- A page of the free list is handed out, and those behind it are dropped.
theorem Sound.reuse (h : s.Sound) {rest dropped : List PageNum} {n : PageNum}
    (hfree : s.pager.freeList = rest ++ n :: dropped) :
    Sound ⟨{ s.pager with freeList := rest }, insert n s.allocated⟩ ∧ n ∉ s.allocated := by
  have hnodup := h.nodup
  rw [hfree, List.nodup_append] at hnodup
  have hmem : n ∈ s.pager.freeList := by
    rw [hfree]
    exact List.mem_append_right _ List.mem_cons_self
  have hrest : ∀ m ∈ rest, m ∈ s.pager.freeList := by
    intro m hm
    rw [hfree]
    exact List.mem_append_left _ hm
  refine ⟨⟨h.nonempty, hnodup.1, fun m hm => h.range m (hrest m hm), ?_⟩, fun hn => (h.held n hn).2.2 hmem⟩
  intro m hm
  rcases Finset.mem_insert.mp hm with rfl | hm
  · refine ⟨(h.range m hmem).1, (h.range m hmem).2, ?_⟩
    intro hm'
    exact hnodup.2.2 m hm' m List.mem_cons_self rfl
  · obtain ⟨hpos, hlt, hnot⟩ := h.held m hm
    exact ⟨hpos, hlt, fun hm' => hnot (hrest m hm')⟩

-- A new page is handed out, and the free list is empty.
theorem Sound.extend (h : s.Sound) :
    Sound ⟨{ s.pager with freeList := [], numPages := s.pager.numPages + 1 },
      insert s.pager.numPages s.allocated⟩ ∧ s.pager.numPages ∉ s.allocated := by
  refine ⟨⟨Nat.succ_pos _, List.nodup_nil, ?_, ?_⟩, fun hn => Nat.lt_irrefl _ (h.held _ hn).2.1⟩
  · intro m hm
    cases hm
  · intro m hm
    rcases Finset.mem_insert.mp hm with rfl | hm
    · exact ⟨h.nonempty, Nat.lt_succ_self _, by simp⟩
    · obtain ⟨hpos, hlt, -⟩ := h.held m hm
      exact ⟨hpos, Nat.lt_succ_of_lt hlt, by simp⟩

theorem Sound.take (h : s.Sound) (minPage : PageNum) :
    (s.take (s.pager.allocPageMinimum minPage)).Sound := by
  by_cases hread : s.pager.readOnly = true
  · rw [Pager.allocPageMinimum_readOnly hread]
    exact h
  · rcases Pager.allocPageMinimum_cases (by simpa using hread) minPage with
      ⟨rest, n, dropped, hfree, -, -, heq⟩ | ⟨-, heq⟩
    · rw [heq]
      exact (h.reuse hfree).1
    · rw [heq]
      exact h.extend.1

theorem Sound.giveBack (h : s.Sound) {n : PageNum} (hn : n ∈ s.allocated) :
    (s.giveBack n (s.pager.freePage n)).Sound := by
  unfold Pager.freePage
  by_cases hread : s.pager.readOnly = true
  · rw [if_pos hread]
    exact h
  · rw [if_neg hread]
    obtain ⟨hpos, hlt, hnot⟩ := h.held n hn
    refine ⟨h.nonempty, ?_, ?_, ?_⟩
    · refine List.nodup_append.mpr ⟨h.nodup, List.nodup_singleton n, ?_⟩
      intro a ha b hb heq
      rw [List.mem_singleton] at hb
      exact hnot (hb ▸ heq ▸ ha)
    · intro m hm
      rcases List.mem_append.mp hm with hm | hm
      · exact h.range m hm
      · rw [List.mem_singleton.mp hm]
        exact ⟨hpos, hlt⟩
    · intro m hm
      obtain ⟨hne, hm⟩ := Finset.mem_erase.mp hm
      obtain ⟨hpos', hlt', hnot'⟩ := h.held m hm
      refine ⟨hpos', hlt', ?_⟩
      intro hmem
      rcases List.mem_append.mp hmem with hmem | hmem
      · exact hnot' hmem
      · exact hne (List.mem_singleton.mp hmem)

theorem Sound.step (h : s.Sound) {op : PageOp} (hlaw : ∀ n, op = .freePage n → n ∈ s.allocated) :
    (s.step op).Sound := by
  cases op with
  | allocPage => exact h.take 0
  | allocPageMinimum minPage => exact h.take minPage
  | freePage n => exact h.giveBack (hlaw n rfl)

-- Each page but the header is held or free.
theorem Sound.conserves_iff (h : s.Sound) :
    s.Conserves ↔ ∀ n, 0 < n → n < s.pager.numPages → n ∈ s.allocated ∨ n ∈ s.pager.freeList := by
  constructor
  · intro hconserves n hpos hlt
    rcases hconserves n hpos hlt with ⟨hn, -⟩ | ⟨-, hcount⟩
    · exact .inl hn
    · exact .inr (List.count_pos_iff.mp (by omega))
  · intro hcover n hpos hlt
    rcases hcover n hpos hlt with hn | hn
    · exact .inl ⟨hn, (h.held n hn).2.2⟩
    · exact .inr ⟨fun hheld => (h.held n hheld).2.2 hn, List.count_eq_one_of_mem h.nodup hn⟩

theorem Sound.conserves_take (h : s.Sound) (hconserves : s.Conserves) {minPage : PageNum}
    (hreach : s.Reachable minPage) : (s.take (s.pager.allocPageMinimum minPage)).Conserves := by
  rw [(h.take minPage).conserves_iff]
  rw [h.conserves_iff] at hconserves
  by_cases hread : s.pager.readOnly = true
  · rw [Pager.allocPageMinimum_readOnly hread]
    exact hconserves
  · have hlast := hreach.resolve_left hread
    rcases Pager.allocPageMinimum_cases (by simpa using hread) minPage with
      ⟨rest, n, dropped, hfree, hlow, -, heq⟩ | ⟨hlow, heq⟩
    · -- the last entry is high enough, so nothing was dropped
      have hdropped : dropped = [] := by
        rcases List.eq_nil_or_concat dropped with hnil | ⟨front, d, rfl⟩
        · exact hnil
        · have hfree' : s.pager.freeList = (rest ++ n :: front) ++ [d] := by
            rw [hfree, List.concat_eq_append, List.append_assoc, List.cons_append]
          have hd : minPage ≤ d := hlast d (by rw [hfree', List.getLast?_concat])
          exact absurd (hlow d (by simp)) (Nat.not_lt.mpr hd)
      rw [heq]
      intro m hpos hlt
      rcases hconserves m hpos hlt with hm | hm
      · exact .inl (Finset.mem_insert_of_mem hm)
      · rw [hfree, hdropped, List.mem_append, List.mem_singleton] at hm
        rcases hm with hm | rfl
        · exact .inr hm
        · exact .inl (Finset.mem_insert_self _ _)
    · have hnil : s.pager.freeList = [] := by
        rcases List.eq_nil_or_concat s.pager.freeList with hnil | ⟨front, d, hfree⟩
        · exact hnil
        · have hd : minPage ≤ d := hlast d (by rw [hfree]; simp)
          exact absurd (hlow d (by rw [hfree]; simp)) (Nat.not_lt.mpr hd)
      rw [heq]
      intro m hpos hlt
      rcases Nat.lt_succ_iff_lt_or_eq.mp hlt with hlt | rfl
      · rcases hconserves m hpos hlt with hm | hm
        · exact .inl (Finset.mem_insert_of_mem hm)
        · rw [hnil] at hm
          cases hm
      · exact .inl (Finset.mem_insert_self _ _)

theorem Sound.conserves_giveBack (h : s.Sound) (hconserves : s.Conserves) {n : PageNum}
    (hn : n ∈ s.allocated) : (s.giveBack n (s.pager.freePage n)).Conserves := by
  rw [(h.giveBack hn).conserves_iff]
  rw [h.conserves_iff] at hconserves
  unfold Pager.freePage
  by_cases hread : s.pager.readOnly = true
  · rw [if_pos hread]
    exact hconserves
  · rw [if_neg hread]
    intro m hpos hlt
    by_cases hm : m = n
    · rw [hm]
      exact .inr (List.mem_append_right _ (List.mem_singleton_self n))
    · rcases hconserves m hpos hlt with hm' | hm'
      · exact .inl (Finset.mem_erase.mpr ⟨hm, hm'⟩)
      · exact .inr (List.mem_append_left _ hm')

-- A free page that is too low is popped and then known to nobody.
theorem Sound.loses (h : s.Sound) {minPage : PageNum} (hreach : ¬ s.Reachable minPage) :
    ¬ (s.take (s.pager.allocPageMinimum minPage)).Conserves := by
  rw [(h.take minPage).conserves_iff]
  simp only [Reachable, not_or, not_forall] at hreach
  obtain ⟨hread, n, hlast, hlow⟩ := hreach
  have hmem := List.mem_of_getLast? hlast
  obtain ⟨hpos, hlt⟩ := h.range n hmem
  have hfree : n ∉ s.allocated := fun hn => (h.held n hn).2.2 hmem
  intro hcover
  rcases Pager.allocPageMinimum_cases (by simpa using hread) minPage with
    ⟨rest, m, dropped, hsplit, -, hm, heq⟩ | ⟨-, heq⟩
  · rw [heq] at hcover
    rcases hcover n hpos hlt with hn | hn
    · rcases Finset.mem_insert.mp hn with rfl | hn
      · exact hlow hm
      · exact hfree hn
    · -- the entry is the last one, so it stands behind `rest`
      have hnodup := h.nodup
      rw [hsplit, List.nodup_append] at hnodup
      have hmem' : n ∈ m :: dropped := by
        rw [hsplit, List.getLast?_append] at hlast
        exact List.mem_of_getLast? (by simpa using hlast)
      exact hnodup.2.2 n hn n hmem' rfl
  · rw [heq] at hcover
    rcases hcover n hpos (Nat.lt_succ_of_lt hlt) with hn | hn
    · rcases Finset.mem_insert.mp hn with rfl | hn
      · exact Nat.lt_irrefl _ hlt
      · exact hfree hn
    · cases hn

-- What is handed out was held by nobody and is as high as asked for.
theorem Sound.fresh (h : s.Sound) {minPage n : PageNum} {pager : Pager}
    (hle : minPage ≤ s.pager.numPages) (halloc : s.pager.allocPageMinimum minPage = (.ok n, pager)) :
    n ∉ s.allocated ∧ minPage ≤ n := by
  by_cases hread : s.pager.readOnly = true
  · rw [Pager.allocPageMinimum_readOnly hread] at halloc
    cases halloc
  · rcases Pager.allocPageMinimum_cases (by simpa using hread) minPage with
      ⟨rest, m, dropped, hfree, -, hm, heq⟩ | ⟨-, heq⟩
    · rw [heq] at halloc
      cases halloc
      exact ⟨(h.reuse hfree).2, hm⟩
    · rw [heq] at halloc
      cases halloc
      exact ⟨h.extend.2, hle⟩

end Steps

theorem lawful_append {ops ops' : List PageOp} :
    s.Lawful (ops ++ ops') ↔ s.Lawful ops ∧ (s.run ops).Lawful ops' := by
  induction ops generalizing s with
  | nil => exact (and_iff_right trivial).symm
  | cons op ops ih =>
    cases op with
    | allocPage => exact ih
    | allocPageMinimum minPage => exact ih
    | freePage n =>
      show (n ∈ s.allocated ∧ (s.step (.freePage n)).Lawful (ops ++ ops')) ↔ _
      rw [ih, ← and_assoc]
      rfl

theorem Sound.run (h : s.Sound) {ops : List PageOp} (hlaw : s.Lawful ops) : (s.run ops).Sound := by
  induction ops using List.reverseRecOn with
  | nil => exact h
  | append_singleton ops op ih =>
    obtain ⟨hlaw, hlast⟩ := lawful_append.mp hlaw
    rw [run_append]
    refine (ih hlaw).step ?_
    rintro n rfl
    exact hlast.1

theorem Sound.conserves_run (h : s.Sound) (hstart : s.Conserves) {ops : List PageOp}
    (hlaw : s.Lawful ops) (hreach : ∀ before minPage after,
      ops = before ++ .allocPageMinimum minPage :: after → (s.run before).Reachable minPage) :
    (s.run ops).Conserves := by
  induction ops using List.reverseRecOn with
  | nil => exact hstart
  | append_singleton ops op ih =>
    obtain ⟨hlaw, hlast⟩ := lawful_append.mp hlaw
    have hsound := h.run hlaw
    have hbefore := ih hlaw fun before minPage after heq =>
      hreach before minPage (after ++ [op]) (by rw [heq, List.append_assoc, List.cons_append])
    rw [run_append]
    cases op with
    | allocPage => exact hsound.conserves_take hbefore (.inr fun n _ => Nat.zero_le n)
    | allocPageMinimum minPage => exact hsound.conserves_take hbefore (hreach ops minPage [] rfl)
    | freePage n => exact hsound.conserves_giveBack hbefore hlast.1

-- All pages of a file that are not free are in use.
def opened (p : Pager) : Tenancy := ⟨p, (Finset.range p.numPages).filter fun n => 0 < n ∧ n ∉ p.freeList⟩

theorem sound_opened {p : Pager} (h : p.headerData.Checked) : (opened p).Sound := by
  refine ⟨h.nonempty, h.nodup, h.range, ?_⟩
  intro n hn
  obtain ⟨hlt, hpos, hnot⟩ := Finset.mem_filter.mp hn
  exact ⟨hpos, Finset.mem_range.mp hlt, hnot⟩

theorem conserves_opened {p : Pager} (h : p.headerData.Checked) : (opened p).Conserves := by
  rw [(sound_opened h).conserves_iff]
  intro n hpos hlt
  by_cases hn : n ∈ p.freeList
  · exact .inr hn
  · exact .inl (Finset.mem_filter.mpr ⟨Finset.mem_range.mpr hlt, hpos, hn⟩)

-- Pages are conserved at every moment of a run exactly when no call for a high page finds a page
-- on top of the free list that is too low. What is handed out is never in use, nor the header.
theorem conserves_iff_reachable {file : Option (Disk Page)} {readOnly : Bool} {p : Pager}
    (hopen : Pager.openFile file readOnly = .ok p) {ops : List PageOp} (hlaw : (opened p).Lawful ops) :
    ((∀ before after, ops = before ++ after → ((opened p).run before).Conserves) ↔
      ∀ before minPage after, ops = before ++ .allocPageMinimum minPage :: after →
        ((opened p).run before).Reachable minPage) ∧
    ∀ before after, ops = before ++ after → 0 ∉ ((opened p).run before).allocated ∧
      ∀ minPage n pager, minPage ≤ ((opened p).run before).pager.numPages →
        ((opened p).run before).pager.allocPageMinimum minPage = (.ok n, pager) →
          n ∉ ((opened p).run before).allocated ∧ minPage ≤ n := by
  have hchecked := (openFile_checked hopen).2
  have h := sound_opened hchecked
  refine ⟨⟨?_, ?_⟩, ?_⟩
  · intro hconserves before minPage after hops
    by_contra hreach
    have hsound := h.run (lawful_append.mp (hops ▸ hlaw : (opened p).Lawful (before ++ _))).1
    have hafter := hconserves (before ++ [.allocPageMinimum minPage]) after (by rw [hops]; simp)
    rw [run_append] at hafter
    exact hsound.loses hreach hafter
  · intro hreach before after hops
    refine h.conserves_run (conserves_opened hchecked) (lawful_append.mp (hops ▸ hlaw)).1 ?_
    intro before' minPage after' heq
    exact hreach before' minPage (after' ++ after) (by rw [hops, heq, List.append_assoc, List.cons_append])
  · intro before after hops
    have hsound := h.run (lawful_append.mp (hops ▸ hlaw : (opened p).Lawful (before ++ _))).1
    refine ⟨fun hzero => Nat.lt_irrefl _ (hsound.held 0 hzero).1, ?_⟩
    intro minPage n pager hle halloc
    exact hsound.fresh hle halloc

-- The pager of a new file.
def fresh : Pager := (Pager.start .empty false).writeHeader.2

-- Page 1 is free when a page of at least 2 is asked for: it is popped and lost.
theorem low_page_lost : (opened fresh).Lawful [.allocPage, .freePage 1, .allocPageMinimum 2] ∧
    ¬ ((opened fresh).run [.allocPage, .freePage 1, .allocPageMinimum 2]).Conserves := by
  refine ⟨⟨by decide, trivial⟩, ?_⟩
  intro h
  have hlost := h 1 (by decide) (by decide)
  revert hlost
  decide

theorem conserves_fresh_file :
    (opened fresh).Lawful [.allocPage, .freePage 1, .allocPageMinimum 1] ∧
    ((∀ before after, [.allocPage, .freePage 1, .allocPageMinimum 1] = before ++ after →
        ((opened fresh).run before).Conserves) ↔
      ∀ before minPage after, [.allocPage, .freePage 1, .allocPageMinimum 1] =
          before ++ .allocPageMinimum minPage :: after →
        ((opened fresh).run before).Reachable minPage) := by
  have hlaw : (opened fresh).Lawful [.allocPage, .freePage 1, .allocPageMinimum 1] :=
    ⟨by decide, trivial⟩
  exact ⟨hlaw, (@conserves_iff_reachable none false fresh rfl _ hlaw).1⟩

end Tenancy

end JasonDb
