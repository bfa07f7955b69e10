import JasonDb.TxBTree.Moves

namespace JasonDb

open Lib TxBTree

-- The metadata with these roots and nothing else.
def Metadata.ofRoots (roots : List (String × PageNum)) : Metadata :=
  roots.foldl (fun m entry =>
    m.modifyCollection entry.1 fun coll => { coll with btreeRoot := entry.2 }) .new

-- A database with these pages in memory and no open transaction. The metadata is in page 1.
def Database.ofPages (pages : List (PageNum × Page)) (numPages : Nat)
    (roots : List (String × PageNum)) (nextTxId : TransactionID) : Database where
  pager :=
    { cache := fun p => if p = 1 then some (.metadata (.ofRoots roots)) else pages.lookup p
      dirty := ∅
      file := .empty
      numPages := numPages
      metadataPage := 1
      nextTxId := nextTxId
      freeList := []
      readOnly := false }
  wal := .empty
  metadata := .ofRoots roots
  txManager := ⟨nextTxId, nextTxId - 1, ∅⟩
  versionChains := ∅
  txIdCounter := 0
  pendingWrites := []
  batchConfig := .default
  readOnly := false

section Build

variable {pages : List (PageNum × Page)} {numPages : Nat} {roots : List (String × PageNum)}
  {nextTxId : TransactionID}

theorem Database.ofPages_wf (h : 0 < numPages) : (ofPages pages numPages roots nextTxId).pager.WF :=
  ⟨rfl, h, List.nodup_nil, by simp [ofPages]⟩

theorem Database.view_ofPages {p : PageNum} (hp : p ≠ 1) :
    (ofPages pages numPages roots nextTxId).pager.view p = pages.lookup p := by
  simp [Pager.view, Pager.filePage, ofPages, hp, Disk.empty, Disk.len, Disk.extendLen]

theorem Metadata.root_ofRoots (roots : List (String × PageNum)) (c : String) :
    (Metadata.ofRoots roots).root c = 0 ∨ (Metadata.ofRoots roots).root c ∈ roots.map Prod.snd := by
  have hfold : ∀ (entries : List (String × PageNum)) (m : Metadata),
      (entries.foldl (fun m entry =>
        m.modifyCollection entry.1 fun coll => { coll with btreeRoot := entry.2 }) m).root c =
        m.root c ∨
      (entries.foldl (fun m entry =>
        m.modifyCollection entry.1 fun coll => { coll with btreeRoot := entry.2 }) m).root c ∈
        entries.map Prod.snd := by
    intro entries
    induction entries with
    | nil => exact fun _ => Or.inl rfl
    | cons entry rest ih =>
      intro m
      rw [List.foldl_cons, List.map_cons, List.mem_cons]
      rcases ih (m.modifyCollection entry.1 fun coll => { coll with btreeRoot := entry.2 }) with h | h
      · by_cases hc : c = entry.1
        · subst hc
          exact Or.inr (Or.inl (by rw [h, root_modifyCollection_self]))
        · exact Or.inl (by rw [h, root_modifyCollection_of_ne _ _ hc])
      · exact Or.inr (Or.inr h)
  exact hfold roots .new

end Build

-- A list of pages that the links do not leave holds all that is reached from its pages.
theorem Reaches.mem_of_closed {v : PageNum → Option Page} {S : List PageNum}
    (hclosed : ∀ p ∈ S, ∀ page, v p = some page → ∀ q ∈ page.links, q ∈ S) {root p : PageNum}
    (hroot : root ∈ S) (h : Reaches v root p) : p ∈ S := by
  induction h with
  | refl => exact hroot
  | tail _ hl ih =>
    obtain ⟨page, hv, hq⟩ := hl
    exact hclosed _ ih page hv _ hq

end JasonDb
