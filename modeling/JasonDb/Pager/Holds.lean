import JasonDb.Pager

namespace JasonDb

open Lib

namespace Pager

variable {p : Pager} {d : DocPage}

-- A document version that is cached or in the file, in use or left over.
def Holds (p : Pager) (d : DocPage) : Prop :=
  (∃ q, p.cache q = some (.doc d)) ∨ ∃ q, p.file.content q = some (.doc d)

theorem holds_alloc {min : PageNum} (h : (p.allocPageMinimum min).2.Holds d) : p.Holds d := by
  unfold allocPageMinimum at h
  split at h
  · exact h
  · split at h <;> exact h

theorem holds_write {q : PageNum} {page : Page} (h : (p.writePageTransfer q page).2.Holds d) :
    p.Holds d ∨ page = .doc d := by
  unfold writePageTransfer at h
  split at h
  · exact Or.inl h
  · split at h
    · exact Or.inl h
    · rcases h with ⟨q', hq'⟩ | hfile
      · simp only [Function.update_apply] at hq'
        split at hq'
        · exact Or.inr (Option.some.inj hq')
        · exact Or.inl (Or.inl ⟨q', hq'⟩)
      · exact Or.inl (Or.inr hfile)

theorem holds_free {q : PageNum} (h : (p.freePage q).2.Holds d) : p.Holds d := by
  unfold freePage at h
  split at h
  · exact h
  · rcases h with ⟨q', hq'⟩ | hfile
    · simp only [Function.update_apply] at hq'
      split at hq'
      · cases hq'
      · exact Or.inl ⟨q', hq'⟩
    · exact Or.inr hfile

-- A header is not a document.
theorem content_write_header {file : Disk Page} {header : Header} {q : PageNum}
    (h : (file.write 0 (.header header)).content q = some (.doc d)) :
    file.content q = some (.doc d) := by
  rw [Disk.content_write, Function.update_apply] at h
  split at h
  · cases h
  · exact h

theorem holds_writeHeader (h : p.writeHeader.2.Holds d) : p.Holds d := by
  unfold writeHeader at h
  split at h
  · exact h
  · rcases h with hcache | ⟨q, hq⟩
    · exact Or.inl hcache
    · exact Or.inr ⟨q, content_write_header hq⟩

theorem holds_writeHeaderNoSync (h : p.writeHeaderNoSync.2.Holds d) : p.Holds d := by
  unfold writeHeaderNoSync at h
  split at h
  · exact h
  · rcases h with hcache | ⟨q, hq⟩
    · exact Or.inl hcache
    · exact Or.inr ⟨q, content_write_header hq⟩

theorem content_writeDirty {pages : List PageNum} {file : Disk Page} {q : PageNum} {page : Page}
    (h : (p.writeDirty pages file).content q = some page) :
    (∃ q', p.cache q' = some page) ∨ file.content q = some page := by
  induction pages generalizing file with
  | nil => exact Or.inr h
  | cons pageNum rest ih =>
    unfold writeDirty at h
    split at h
    case h_1 cached hcached =>
      rcases ih h with hcache | hfile
      · exact Or.inl hcache
      · rw [Disk.content_write, Function.update_apply] at hfile
        split at hfile
        · obtain rfl := Option.some.inj hfile
          exact Or.inl ⟨pageNum, hcached⟩
        · exact Or.inr hfile
    case h_2 => exact ih h

theorem writeDirty_uncached (pages : List PageNum) (file : Disk Page) {q : PageNum}
    (hq : p.cache q = none) : (p.writeDirty pages file).content q = file.content q ∧
      file.len ≤ (p.writeDirty pages file).len := by
  induction pages generalizing file with
  | nil => exact ⟨rfl, le_rfl⟩
  | cons pageNum rest ih =>
    unfold writeDirty
    split
    case h_1 cached hcached =>
      have hne : q ≠ pageNum := by
        rintro rfl
        simp [hq] at hcached
      obtain ⟨hcontent, hlen⟩ := ih (file.write pageNum cached)
      rw [Disk.content_write, Function.update_of_ne hne] at hcontent
      rw [Disk.len_write] at hlen
      exact ⟨hcontent, Nat.le_trans (Nat.le_max_left _ _) hlen⟩
    case h_2 => exact ih file

-- A flush does not change what readers see.
theorem view_flush {q : PageNum} {page : Page} (h : p.view q = some page) : p.flush.view q = some page := by
  unfold flush
  split
  · exact h
  · unfold view at h ⊢
    cases hq : p.cache q with
    | some cached =>
      rw [hq] at h
      exact h
    | none =>
      obtain ⟨hcontent, hlen⟩ := writeDirty_uncached p.dirty.keys p.file hq
      rw [hq, Option.none_or] at h
      unfold filePage at h ⊢
      split at h
      · simp only [Option.none_or, Disk.len_sync, Disk.content_sync, hcontent]
        rw [if_pos (Nat.lt_of_lt_of_le ‹_› hlen)]
        exact h
      · cases h

theorem holds_flushNoSync (h : p.flushNoSync.Holds d) : p.Holds d := by
  unfold flushNoSync at h
  split at h
  · exact h
  · rcases h with hcache | ⟨q, hq⟩
    · exact Or.inl hcache
    · exact (content_writeDirty hq).imp id fun hfile => ⟨q, hfile⟩

theorem holds_flush (h : p.flush.Holds d) : p.Holds d := by
  unfold flush at h
  split at h
  · exact h
  · rcases h with hcache | ⟨q, hq⟩
    · exact Or.inl hcache
    · exact (content_writeDirty hq).imp id fun hfile => ⟨q, hfile⟩

theorem holds_syncDataOnly (h : p.syncDataOnly.Holds d) : p.Holds d := by
  unfold syncDataOnly at h
  split at h <;> exact h

end Pager

end JasonDb
