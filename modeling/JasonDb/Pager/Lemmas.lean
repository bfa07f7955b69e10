import JasonDb.Pager

namespace JasonDb.Pager

open Lib

-- Pages that are in use: neither the header nor free.
def Allocated (p : Pager) (n : PageNum) : Prop := n ≠ 0 ∧ n < p.numPages ∧ n ∉ p.freeList

instance (p : Pager) (n : PageNum) : Decidable (p.Allocated n) :=
  inferInstanceAs (Decidable (_ ∧ _ ∧ _))

structure WF (p : Pager) : Prop where
  writable : p.readOnly = false
  nonempty : 0 < p.numPages
  nodup : p.freeList.Nodup
  range : ∀ n ∈ p.freeList, 0 < n ∧ n < p.numPages

-- What allocating and writing pages leaves alone.
def Frame (p p' : Pager) : Prop :=
  p'.file = p.file ∧ p'.metadataPage = p.metadataPage ∧ p'.nextTxId = p.nextTxId ∧
    p'.readOnly = p.readOnly

theorem Frame.refl (p : Pager) : Frame p p := ⟨rfl, rfl, rfl, rfl⟩

theorem Frame.trans {p p' p'' : Pager} (h : Frame p p') (h' : Frame p' p'') : Frame p p'' :=
  ⟨h'.1.trans h.1, h'.2.1.trans h.2.1, h'.2.2.1.trans h.2.2.1, h'.2.2.2.trans h.2.2.2⟩

-- `p'` is `p` after the unused page `n` was handed out.
structure Allocates (p : Pager) (n : PageNum) (p' : Pager) : Prop where
  wf : p'.WF
  unused : ¬ p.Allocated n
  used : p'.Allocated n
  keeps : ∀ m, p.Allocated m → p'.Allocated m
  rest : p' = { p with numPages := p'.numPages, freeList := p'.freeList }

theorem Allocates.frame {p p' : Pager} {n : PageNum} (h : p.Allocates n p') : Frame p p' := by
  rw [h.rest]
  exact ⟨rfl, rfl, rfl, rfl⟩

theorem Allocates.view {p p' : Pager} {n : PageNum} (h : p.Allocates n p') : p'.view = p.view := by
  rw [h.rest]
  rfl

theorem dropWhile_reverse_eq {l : List PageNum} {n min : PageNum} {rest : List PageNum}
    (h : l.reverse.dropWhile (· < min) = n :: rest) : ∃ dropped, l = rest.reverse ++ n :: dropped := by
  obtain ⟨front, hfront⟩ := List.dropWhile_suffix (l := l.reverse) (fun m => decide (m < min))
  rw [h] at hfront
  refine ⟨front.reverse, ?_⟩
  have := congrArg List.reverse hfront
  simpa using this.symm

theorem allocPageMinimum_spec {p : Pager} (h : p.WF) (min : PageNum) :
    ∃ n p', p.allocPageMinimum min = (.ok n, p') ∧ p.Allocates n p' := by
  unfold allocPageMinimum
  rw [if_neg (by simp [h.writable])]
  split
  case h_1 n rest heq =>
    -- a page of the free list; those popped before it are dropped
    refine ⟨n, _, rfl, ?_⟩
    obtain ⟨dropped, hl⟩ := dropWhile_reverse_eq heq
    have hnd := h.nodup
    rw [hl, List.nodup_append] at hnd
    have hrange : ∀ m ∈ rest.reverse, 0 < m ∧ m < p.numPages := fun m hm =>
      h.range m (by rw [hl]; exact List.mem_append_left _ hm)
    have hn : n ∈ p.freeList := by rw [hl]; simp
    refine ⟨⟨h.writable, h.nonempty, hnd.1, hrange⟩, fun hu => hu.2.2 hn, ?_, ?_, rfl⟩
    · refine ⟨Nat.pos_iff_ne_zero.mp (h.range n hn).1, (h.range n hn).2, ?_⟩
      intro hmem
      exact hnd.2.2 n hmem n (by simp) rfl
    · intro m hm
      refine ⟨hm.1, hm.2.1, fun hmem => hm.2.2 ?_⟩
      rw [hl]
      exact List.mem_append_left _ hmem
  case h_2 heq =>
    -- the file grows by one page
    refine ⟨p.numPages, _, rfl, ?_⟩
    refine ⟨⟨h.writable, by simp, by simp, by simp⟩, ?_, ?_, ?_, rfl⟩
    · intro hu
      exact absurd hu.2.1 (lt_irrefl _)
    · exact ⟨Nat.pos_iff_ne_zero.mp h.nonempty, Nat.lt_succ_self _, by simp⟩
    · intro m hm
      exact ⟨hm.1, Nat.lt_succ_of_lt hm.2.1, by simp⟩

theorem writePageTransfer_eq {p : Pager} (h : p.readOnly = false) (n : PageNum) {page : Page}
    (hlen : page.byteLen = PAGE_SIZE) :
    p.writePageTransfer n page = (.ok (), { p with
      cache := Function.update p.cache n (some page)
      dirty := p.dirty.insert n () }) := by
  simp [writePageTransfer, h, hlen]

-- A write changes what readers see of one page.
theorem view_write (p : Pager) (n : PageNum) (page : Page) (dirty : HashSet PageNum) :
    ({ p with cache := Function.update p.cache n (some page), dirty := dirty } : Pager).view =
      Function.update p.view n (some page) := by
  funext m
  by_cases hm : m = n
  · subst hm
    simp [view]
  · simp [view, filePage, Function.update_of_ne hm]

-- The header is only in page 0.
theorem view_header (p : Pager) (header : Page) {n : Nat} (hn : n ≠ 0) :
    ({ p with file := p.file.write 0 header } : Pager).view n = p.view n := by
  have hlen : n < max p.file.len 1 ↔ n < p.file.len := by omega
  simp [view, filePage, Function.update_of_ne hn, hlen]

end JasonDb.Pager
