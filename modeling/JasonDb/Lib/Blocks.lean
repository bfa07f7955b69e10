import JasonDb.Lib.File
import Mathlib.Data.List.Induction

namespace JasonDb.Lib

section Overwrite

variable {bytes data : Bytes} {start : Nat}

-- Byte by byte. A write past the end fills the gap with zeros.
theorem getElem?_overwrite (hdata : data ≠ []) (i : Nat) : (overwrite bytes start data)[i]? =
    if i < start then some (bytes[i]?.getD 0)
    else if i < start + data.length then data[i - start]? else bytes[i]? := by
  have hfront : (bytes.take start ++ List.replicate (start - bytes.length) 0).length = start := by
    rw [List.length_append, List.length_take, List.length_replicate]
    omega
  rw [overwrite, if_neg hdata, List.append_assoc]
  by_cases hi : i < start
  · rw [if_pos hi, List.getElem?_append_left (by omega)]
    by_cases hlen : i < bytes.length
    · rw [List.getElem?_append_left (by rw [List.length_take]; omega), List.getElem?_take_of_lt hi,
        List.getElem?_eq_getElem hlen]
      rfl
    · rw [List.getElem?_append_right (by rw [List.length_take]; omega), List.length_take,
        List.getElem?_replicate, if_pos (by omega), List.getElem?_eq_none (Nat.not_lt.mp hlen)]
      rfl
  · rw [if_neg hi, List.getElem?_append_right (by omega), hfront]
    by_cases hend : i < start + data.length
    · rw [if_pos hend, List.getElem?_append_left (by omega)]
    · rw [if_neg hend, List.getElem?_append_right (by omega), List.getElem?_drop]
      congr 1
      omega

-- A write in two parts is one write, wherever it starts.
theorem overwrite_parts (bytes : Bytes) (start : Nat) {first second : Bytes} (hfirst : first ≠ [])
    (hsecond : second ≠ []) : overwrite (overwrite bytes start first) (start + first.length) second =
      overwrite bytes start (first ++ second) := by
  have hboth : first ++ second ≠ [] := by simp [hfirst]
  apply List.ext_getElem?
  intro i
  rw [getElem?_overwrite hsecond, getElem?_overwrite hboth, getElem?_overwrite hfirst, List.length_append]
  by_cases hi : i < start
  · rw [if_pos (by omega), if_pos hi, if_pos hi]
    rfl
  · by_cases hmid : i < start + first.length
    · have hin : i - start < first.length := by omega
      rw [if_pos hmid, if_neg hi, if_pos hmid, if_neg hi, if_pos (by omega),
        List.getElem?_append_left hin, List.getElem?_eq_getElem hin]
      rfl
    · rw [if_neg hmid]
      by_cases hend : i < start + first.length + second.length
      · rw [if_pos hend, if_neg hi, if_pos (by omega), List.getElem?_append_right (by omega)]
        congr 1
        omega
      · rw [if_neg hend, if_neg hi, if_neg hmid, if_neg hi, if_neg (by omega)]

end Overwrite

section Lookup

variable {κ α : Type} [DecidableEq κ] {entries : List (κ × α)}

theorem mem_of_lookup {key : κ} {value : α} (h : entries.lookup key = some value) :
    (key, value) ∈ entries := by
  obtain ⟨before, after, hsplit, -⟩ := List.lookup_eq_some_iff.mp h
  rw [hsplit]
  exact List.mem_append_right before List.mem_cons_self

theorem lookup_eq_some_of_nodup (hnodup : (entries.map Prod.fst).Nodup) {key : κ} {value : α} :
    entries.lookup key = some value ↔ (key, value) ∈ entries := by
  refine ⟨mem_of_lookup, fun h => ?_⟩
  obtain ⟨before, after, hsplit⟩ := List.append_of_mem h
  refine List.lookup_eq_some_iff.mpr ⟨before, after, hsplit, ?_⟩
  rw [hsplit, List.map_append, List.nodup_append] at hnodup
  intro e he
  have hne := hnodup.2.2 e.1 (List.mem_map_of_mem he) key List.mem_cons_self
  exact bne_iff_ne.mpr hne.symm

theorem lookup_reverse_isSome {key : κ} : (entries.reverse.lookup key).isSome ↔ ∃ e ∈ entries, e.1 = key := by
  rw [List.lookup_isSome_iff]
  constructor
  · rintro ⟨e, he, heq⟩
    exact ⟨e, List.mem_reverse.mp he, (beq_iff_eq.mp heq).symm⟩
  · rintro ⟨e, he, rfl⟩
    exact ⟨e, List.mem_reverse.mpr he, beq_self_eq_true _⟩

end Lookup

section Blocks

variable {size : Nat} {file : Bytes} {writes writes' : List (Nat × Bytes)}

-- Blocks of one size are written one after the other, each in its place.
def writeBlocks (size : Nat) (file : Bytes) (writes : List (Nat × Bytes)) : Bytes :=
  writes.foldl (fun file write => overwrite file (write.1 * size) write.2) file

theorem writeBlocks_append (size : Nat) (file : Bytes) (writes writes' : List (Nat × Bytes)) :
    writeBlocks size file (writes ++ writes') = writeBlocks size (writeBlocks size file writes) writes' :=
  List.foldl_append

-- What a byte is after the writes: the last write of its block decides, and gaps are zeros.
theorem getElem?_writeBlocks (hpos : 0 < size) (h : ∀ w ∈ writes, w.2.length = size) (i : Nat) :
    (writeBlocks size file writes)[i]? = match writes.reverse.lookup (i / size) with
      | some data => data[i % size]?
      | none => if ∃ w ∈ writes, i < w.1 * size then some (file[i]?.getD 0) else file[i]? := by
  induction writes using List.reverseRecOn with
  | nil => simp [writeBlocks]
  | append_singleton writes w ih =>
    obtain ⟨block, data⟩ := w
    have hdata : data.length = size := h (block, data) (by simp)
    have hne : data ≠ [] := by
      rintro rfl
      exact Nat.ne_of_gt hpos hdata.symm
    have hbefore := ih fun w hw => h w (List.mem_append_left _ hw)
    have hlast : writeBlocks size file (writes ++ [(block, data)]) =
        overwrite (writeBlocks size file writes) (block * size) data := writeBlocks_append _ _ _ _
    have hlookup : (writes ++ [(block, data)]).reverse.lookup (i / size) =
        if i / size = block then some data else writes.reverse.lookup (i / size) := by
      rw [List.reverse_append, List.reverse_singleton, List.singleton_append, List.lookup_cons]
      by_cases hblock : i / size = block
      · rw [if_pos hblock, beq_iff_eq.mpr hblock]
      · rw [if_neg hblock, beq_eq_false_iff_ne.mpr hblock]
    rw [hlast, getElem?_overwrite hne, hdata, hlookup]
    by_cases hblock : i / size = block
    · obtain ⟨hle, hlt⟩ := (Nat.div_eq_iff hpos).mp hblock
      have hmod : i % size = i - block * size := by
        rw [← hblock, Nat.mod_eq_sub_div_mul]
      rw [if_neg (by omega), if_pos (by omega), if_pos hblock, hmod]
    · rw [if_neg hblock]
      by_cases hi : i < block * size
      · -- the gap before the block is filled
        rw [if_pos hi, hbefore]
        cases hfound : writes.reverse.lookup (i / size) with
        | some found =>
          have hlen : found.length = size :=
            h (i / size, found) (List.mem_append_left _ (List.mem_reverse.mp (mem_of_lookup hfound)))
          have hin : i % size < found.length := by
            rw [hlen]
            exact Nat.mod_lt i hpos
          dsimp only
          rw [List.getElem?_eq_getElem hin]
          rfl
        | none =>
          have hgap : ∃ w ∈ writes ++ [(block, data)], i < w.1 * size := ⟨(block, data), by simp, hi⟩
          dsimp only
          rw [if_pos hgap]
          split
          · rfl
          · rfl
      · have hend : ¬ i < block * size + size := by
          intro hlt
          exact hblock ((Nat.div_eq_iff hpos).mpr ⟨Nat.not_lt.mp hi, by omega⟩)
        have hgap : (∃ w ∈ writes ++ [(block, data)], i < w.1 * size) ↔ ∃ w ∈ writes, i < w.1 * size := by
          simp [or_and_right, exists_or, hi]
        rw [if_neg hi, if_neg hend, hbefore]
        cases writes.reverse.lookup (i / size) with
        | some found => rfl
        | none =>
          dsimp only
          by_cases hex : ∃ w ∈ writes, i < w.1 * size
          · rw [if_pos hex, if_pos (hgap.mpr hex)]
          · rw [if_neg hex, if_neg fun h => hex (hgap.mp h)]

-- Only the last write of each block matters.
theorem writeBlocks_congr (hpos : 0 < size) (h : ∀ w ∈ writes, w.2.length = size)
    (h' : ∀ w ∈ writes', w.2.length = size)
    (hlast : ∀ block, writes.reverse.lookup block = writes'.reverse.lookup block) :
    writeBlocks size file writes = writeBlocks size file writes' := by
  apply List.ext_getElem?
  intro i
  have hgap : (∃ w ∈ writes, i < w.1 * size) ↔ ∃ w ∈ writes', i < w.1 * size := by
    constructor
    · rintro ⟨w, hw, hi⟩
      obtain ⟨w', hw', heq⟩ :=
        lookup_reverse_isSome.mp (hlast w.1 ▸ lookup_reverse_isSome.mpr ⟨w, hw, rfl⟩)
      exact ⟨w', hw', heq ▸ hi⟩
    · rintro ⟨w, hw, hi⟩
      obtain ⟨w', hw', heq⟩ :=
        lookup_reverse_isSome.mp (hlast w.1 ▸ lookup_reverse_isSome.mpr ⟨w, hw, rfl⟩)
      exact ⟨w', hw', heq ▸ hi⟩
  rw [getElem?_writeBlocks hpos h, getElem?_writeBlocks hpos h', hlast]
  simp only [hgap]

-- Blocks that follow one another can be written at once.
theorem overwrite_run (hpos : 0 < size) {write : Nat × Bytes} (h : ∀ w ∈ write :: writes, w.2.length = size)
    (hrun : List.IsChain (fun a b => b.1 = a.1 + 1) (write :: writes)) :
    overwrite file (write.1 * size) (write.2 ++ writes.flatMap Prod.snd) =
      writeBlocks size file (write :: writes) := by
  have hne : ∀ w ∈ write :: writes, w.2 ≠ [] := by
    intro w hw hnil
    have hlen := h w hw
    rw [hnil] at hlen
    exact Nat.ne_of_gt hpos hlen.symm
  induction writes generalizing file write with
  | nil => simp [writeBlocks]
  | cons next rest ih =>
    obtain ⟨hnext, hrest⟩ := List.isChain_cons_cons.mp hrun
    have htail : next.2 ++ rest.flatMap Prod.snd ≠ [] := by
      simp [hne next (List.mem_cons_of_mem _ List.mem_cons_self)]
    have hlen : write.1 * size + write.2.length = next.1 * size := by
      rw [h write List.mem_cons_self, hnext, Nat.succ_mul]
    rw [List.flatMap_cons, ← overwrite_parts file _ (hne write List.mem_cons_self) htail, hlen]
    exact ih (fun w hw => h w (List.mem_cons_of_mem _ hw)) hrest
      (fun w hw => hne w (List.mem_cons_of_mem _ hw))

end Blocks

end JasonDb.Lib
