import JasonDb.Database.Open
import JasonDb.Pager.Lemmas

namespace JasonDb

open Lib

section Header

theorem checkFreeList_ok {numPages i : Nat} {pages : List PageNum}
    (h : Pager.checkFreeList numPages i pages = .ok ()) : ∀ p ∈ pages, 0 < p ∧ p < numPages := by
  induction pages generalizing i with
  | nil => simp
  | cons q rest ih =>
    unfold Pager.checkFreeList at h
    split at h
    · cases h
    case isFalse hlt =>
      split at h
      · cases h
      case isFalse hq =>
        intro p hp
        rcases List.mem_cons.mp hp with rfl | hp
        · exact ⟨Nat.pos_of_ne_zero hq, Nat.not_le.mp hlt⟩
        · exact ih h p hp

theorem checkDuplicates_ok {i : Nat} {seen pages : List PageNum}
    (h : Pager.checkDuplicates i seen pages = .ok ()) : pages.Nodup ∧ ∀ p ∈ pages, p ∉ seen := by
  induction pages generalizing i seen with
  | nil => simp
  | cons q rest ih =>
    unfold Pager.checkDuplicates at h
    split at h
    · cases h
    case isFalse hq =>
      obtain ⟨hnodup, hfresh⟩ := ih h
      refine ⟨List.nodup_cons.mpr ⟨fun hmem => hfresh q hmem (by simp), hnodup⟩, ?_⟩
      intro p hp
      rcases List.mem_cons.mp hp with rfl | hp
      · exact hq
      · exact fun hmem => hfresh p hp (List.mem_cons_of_mem _ hmem)

-- What a file must say of its pages to be opened.
structure Header.Checked (header : Header) : Prop where
  nonempty : 0 < header.numPages
  range : ∀ p ∈ header.freeList, 0 < p ∧ p < header.numPages
  nodup : header.freeList.Nodup
  metadata : header.metadataPage ≠ 0 →
    header.metadataPage < header.numPages ∧ header.metadataPage ∉ header.freeList

theorem checkHeader_ok {fileLen : Nat} {header : Header}
    (h : Pager.checkHeader fileLen header = .ok ()) : header.Checked := by
  unfold Pager.checkHeader at h
  simp only at h
  split at h
  · cases h
  case isFalse hpos =>
    split at h
    · cases h
    · split at h
      · cases h
      case isFalse hmeta =>
        cases hfree : Pager.checkFreeList header.numPages 0 header.freeList with
        | error e =>
          rw [hfree] at h
          cases h
        | ok u =>
          rw [hfree] at h
          cases hdup : Pager.checkDuplicates 0 [] header.freeList with
          | error e =>
            simp only [bind, Except.bind, hdup] at h
            cases h
          | ok u' =>
            simp only [bind, Except.bind, hdup] at h
            split at h
            · cases h
            case isFalse hused =>
              refine ⟨Nat.not_lt.mp hpos, checkFreeList_ok hfree, (checkDuplicates_ok hdup).1, ?_⟩
              intro hne
              exact ⟨Nat.not_le.mp fun hle => hmeta ⟨hne, hle⟩, fun hmem => hused ⟨hne, hmem⟩⟩

end Header

section Open

variable {p : Pager} {file : Option (Disk Page)}

theorem openFile_checked {readOnly : Bool} (h : Pager.openFile file readOnly = .ok p) :
    p.readOnly = readOnly ∧ p.headerData.Checked := by
  cases file with
  | none =>
    cases readOnly with
    | true => cases h
    | false =>
      obtain rfl := Except.ok.inj h
      refine ⟨rfl, Nat.zero_lt_one, ?_, List.nodup_nil, fun hne => absurd rfl hne⟩
      intro n hn
      cases hn
  | some f =>
    simp only [Pager.openFile, Pager.readHeader] at h
    split at h
    · cases h
    case h_2 page hpage =>
      cases hheader : Header.deserialize page with
      | error e =>
        rw [hheader] at h
        cases h
      | ok header =>
        rw [hheader] at h
        cases hcheck : Pager.checkHeader (Pager.start f readOnly).file.len header with
        | error e =>
          simp only [bind, Except.bind, hcheck] at h
          cases h
        | ok u =>
          simp only [bind, Except.bind, hcheck] at h
          obtain rfl := Except.ok.inj h
          exact ⟨rfl, checkHeader_ok hcheck⟩

theorem openFile_ok (h : Pager.openFile file false = .ok p) :
    p.WF ∧ (p.metadataPage ≠ 0 → p.Allocated p.metadataPage) := by
  obtain ⟨hwritable, hc⟩ := openFile_checked h
  refine ⟨⟨hwritable, hc.nonempty, hc.nodup, hc.range⟩, fun hne => ?_⟩
  exact ⟨hne, hc.metadata hne⟩

theorem createMetadata_ok (hwf : p.WF) {metadata : Metadata} {p' : Pager}
    (h : createMetadata p = .ok (metadata, p')) :
    p'.readOnly = false ∧ p'.Allocated p'.metadataPage := by
  obtain ⟨metaPage, p₁, halloc, hpage⟩ := Pager.allocPageMinimum_spec hwf 0
  unfold createMetadata at h
  simp only [halloc] at h
  have hlen : (Page.metadata .new).byteLen = PAGE_SIZE := by decide +kernel
  have hwrite := Pager.writePageTransfer_eq hpage.wf.writable metaPage hlen
  simp only [hwrite, Pager.writeHeader, hpage.wf.writable] at h
  obtain ⟨rfl, rfl⟩ := Prod.mk.inj (Except.ok.inj h)
  unfold Pager.flush
  split
  · exact ⟨rfl, hpage.used⟩
  · exact ⟨rfl, hpage.used⟩

theorem loadMetadata_ok (hwf : p.WF) (hp : p.metadataPage ≠ 0 → p.Allocated p.metadataPage)
    {metadata : Metadata} {p' : Pager} (h : loadMetadata p = .ok (metadata, p')) :
    p'.readOnly = false ∧ p'.Allocated p'.metadataPage := by
  unfold loadMetadata at h
  split at h
  case isTrue hpos =>
    cases hread : p.readPage p.metadataPage with
    | error e =>
      rw [hread] at h
      cases h
    | ok page =>
      rw [hread] at h
      cases hd : Metadata.deserialize page with
      | error e =>
        simp only [bind, Except.bind, hd] at h
        cases h
      | ok m' =>
        simp only [bind, Except.bind, hd, Except.ok.injEq, Prod.mk.injEq] at h
        obtain ⟨rfl, rfl⟩ := h
        exact ⟨hwf.writable, hp (Nat.pos_iff_ne_zero.mp hpos)⟩
  case isFalse => exact createMetadata_ok hwf h

end Open

end JasonDb
