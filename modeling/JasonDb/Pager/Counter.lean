import JasonDb.Database.Open
import JasonDb.Pager.Lemmas

namespace JasonDb

open Lib

variable {n : TransactionID} {p : Pager}

-- The header page of a file and the transaction counter in it.
def HeaderSays (n : TransactionID) (file : Disk Page) : Prop :=
  0 < file.len ∧ ∃ header, file.content 0 = some (.header header) ∧ header.nextTxId = n

theorem HeaderSays.write {file : Disk Page} (h : HeaderSays n file) {b : PageNum} (hb : b ≠ 0)
    (page : Page) : HeaderSays n (file.write b page) := by
  obtain ⟨hlen, header, hc, hn⟩ := h
  refine ⟨?_, header, ?_, hn⟩
  · rw [Disk.len_write]
    exact lt_of_lt_of_le hlen (le_max_left _ _)
  · rw [Disk.content_write, Function.update_of_ne hb.symm]
    exact hc

theorem headerSays_write (file : Disk Page) (header : Header) :
    HeaderSays header.nextTxId (file.write 0 (.header header)) := by
  refine ⟨?_, header, ?_, rfl⟩
  · rw [Disk.len_write]
    exact lt_of_lt_of_le Nat.zero_lt_one (le_max_right _ _)
  · rw [Disk.content_write, Function.update_self]

theorem headerSays_writeAll {pages : List (PageNum × Page)} (hpages : ∀ entry ∈ pages, entry.1 ≠ 0)
    {file : Disk Page} (h : HeaderSays n file) :
    HeaderSays n (pages.foldl (fun file entry => file.write entry.1 entry.2) file) := by
  induction pages generalizing file with
  | nil => exact h
  | cons entry rest ih =>
    refine ih ?_ (h.write (hpages entry (by simp)) _)
    intro e hmem
    exact hpages e (by simp [hmem])

namespace Pager

-- The counter of the pager is the one in the file, and page 0 is written as the header only.
structure Counts (n : TransactionID) (p : Pager) : Prop where
  header : HeaderSays n p.file
  next : p.nextTxId = n
  clean : 0 ∉ p.dirty
  nonempty : 0 < p.numPages
  free : 0 ∉ p.freeList

theorem counts_allocPageMinimum (h : p.Counts n) (min : PageNum) :
    (p.allocPageMinimum min).2.Counts n ∧
      ∀ q, (p.allocPageMinimum min).1 = .ok q → q ≠ 0 := by
  unfold allocPageMinimum
  split
  · exact ⟨h, by simp⟩
  · split
    case h_1 q rest heq =>
      obtain ⟨dropped, hl⟩ := dropWhile_reverse_eq heq
      have hfree := h.free
      rw [hl, List.mem_append, List.mem_cons] at hfree
      refine ⟨⟨h.header, h.next, h.clean, h.nonempty, fun hmem => hfree (Or.inl hmem)⟩, ?_⟩
      rintro _ ⟨⟩ rfl
      exact hfree (Or.inr (Or.inl rfl))
    case h_2 heq =>
      refine ⟨⟨h.header, h.next, h.clean, Nat.succ_pos _, by simp⟩, ?_⟩
      rintro _ ⟨⟩
      exact Nat.pos_iff_ne_zero.mp h.nonempty

theorem Counts.writePageTransfer (h : p.Counts n) {q : PageNum} (hq : q ≠ 0) (page : Page) :
    (p.writePageTransfer q page).2.Counts n := by
  unfold Pager.writePageTransfer
  split
  · exact h
  · split
    · exact h
    · refine ⟨h.header, h.next, ?_, h.nonempty, h.free⟩
      intro hmem
      rcases HashMap.mem_insert.mp hmem with rfl | hmem
      · exact hq rfl
      · exact h.clean hmem

-- A page that could be written leaves a pager that can write.
theorem writable_writePageTransfer {q : PageNum} {page : Page} {u : Unit}
    (h : (p.writePageTransfer q page).1 = .ok u) :
    (p.writePageTransfer q page).2.readOnly = false := by
  unfold Pager.writePageTransfer at h ⊢
  split at h
  · cases h
  · split at h
    · cases h
    · simp_all

theorem headerSays_writeDirty {pages : List PageNum} (hpages : 0 ∉ pages) {file : Disk Page}
    (h : HeaderSays n file) : HeaderSays n (p.writeDirty pages file) := by
  induction pages generalizing file with
  | nil => exact h
  | cons q rest ih =>
    rw [List.mem_cons, not_or] at hpages
    unfold writeDirty
    split
    · exact ih hpages.2 (h.write (Ne.symm hpages.1) _)
    · exact ih hpages.2 h

theorem Counts.flushNoSync (h : p.Counts n) : p.flushNoSync.Counts n := by
  unfold Pager.flushNoSync
  split
  · exact h
  · exact ⟨headerSays_writeDirty h.clean h.header, h.next, HashMap.not_mem_empty 0, h.nonempty, h.free⟩

theorem Counts.flush (h : p.Counts n) : p.flush.Counts n := by
  unfold Pager.flush
  split
  · exact h
  · exact ⟨headerSays_writeDirty h.clean h.header, h.next, HashMap.not_mem_empty 0, h.nonempty, h.free⟩

theorem Counts.syncDataOnly (h : p.Counts n) : p.syncDataOnly.Counts n := by
  unfold Pager.syncDataOnly
  split
  · exact h
  · exact ⟨h.header, h.next, h.clean, h.nonempty, h.free⟩

-- A header that is written takes the counter of the pager along.
theorem counts_writeHeader {p' : Pager} (hclean : 0 ∉ p.dirty) (hnonempty : 0 < p.numPages)
    (hfree : 0 ∉ p.freeList) {u : Unit} (h : p.writeHeader = (.ok u, p')) :
    p'.Counts p.nextTxId := by
  unfold writeHeader at h
  split at h
  · simp at h
  · obtain ⟨_, rfl⟩ := Prod.mk.inj h
    exact ⟨headerSays_write _ p.headerData, rfl, hclean, hnonempty, hfree⟩

theorem Counts.writePagesDirect (h : p.Counts n) {pages : List (PageNum × Page)}
    (hpages : ∀ entry ∈ pages, entry.1 ≠ 0) {p' : Pager} (he : p.writePagesDirect pages = .ok p') :
    p'.Counts n := by
  unfold Pager.writePagesDirect at he
  split at he
  · cases he
  · split at he
    · obtain rfl := Except.ok.inj he
      exact h
    · split at he
      · cases he
      · obtain rfl := Except.ok.inj he
        refine ⟨?_, h.next, h.clean, h.nonempty, h.free⟩
        exact headerSays_writeAll hpages h.header

end Pager

end JasonDb
