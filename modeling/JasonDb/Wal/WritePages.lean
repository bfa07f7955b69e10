import JasonDb.Checked
import JasonDb.Lib.Blocks
import JasonDb.Wal.Log

namespace JasonDb.DbFile

open Lib WalFile WALInner

-- The pages that follow one another after `curr`, and those after them.
def nextBatch (checks : Bool) (curr : UInt64) : List DbPage → Except Error (List DbPage × List DbPage)
  | [] => .ok ([], [])
  | next :: rest => do
    let succ ← addU64 checks curr 1
    if next.1 = succ then do
      let (batch, rest) ← nextBatch checks next.1 rest
      .ok (next :: batch, rest)
    else .ok ([], next :: rest)

theorem nextBatch_eq {checks : Bool} {curr : UInt64} {pages batch rest : List DbPage}
    (h : nextBatch checks curr pages = .ok (batch, rest)) : pages = batch ++ rest := by
  induction pages generalizing curr batch with
  | nil =>
    cases h
    rfl
  | cons next pages ih =>
    unfold nextBatch at h
    cases hsucc : addU64 checks curr 1 with
    | error e =>
      rw [hsucc] at h
      cases h
    | ok succ =>
      rw [hsucc] at h
      simp only [bind, Except.bind] at h
      split at h
      · cases hnext : nextBatch checks next.1 pages with
        | error e =>
          rw [hnext] at h
          cases h
        | ok result =>
          rw [hnext] at h
          obtain ⟨batch', rest'⟩ := result
          cases h
          rw [ih hnext, List.cons_append]
      · cases h
        rfl

-- `file.write_all` at the place of the cursor. A write is cut where no file can go on.
def writeAt (file : Bytes) (offset : Nat) (data : Bytes) : Except Error Unit × Bytes :=
  if offset + data.length ≤ MAX_OFFSET then (.ok (), overwrite file offset data)
  else (.error (.io "File too large"), overwrite file offset (data.take (MAX_OFFSET - offset)))

-- Pages that follow one another are written at once, at the place of the first.
def writeBatches (checks : Bool) (file : Bytes) (pages : List DbPage) : Except Error Unit × Bytes :=
  match pages with
  | [] => (.ok (), file)
  | start :: pages =>
    match _hbatch : nextBatch checks start.1 pages with
    | .error e => (.error e, file)
    | .ok (batch, rest) =>
      match seekPage checks start.1 with
      | .error e => (.error e, file)
      | .ok offset =>
        match writeAt file offset (start.2 ++ batch.flatMap Prod.snd) with
        | (.error e, file) => (.error e, file)
        | (.ok (), file) => writeBatches checks file rest
termination_by pages.length
decreasing_by
  have hlen := congrArg List.length (nextBatch_eq _hbatch)
  rw [List.length_append] at hlen
  simp only [List.length_cons]
  omega

-- `write_pages_direct` on the bytes of the database file.
def writePagesDirect (checks readOnly : Bool) (file : Bytes) (pages : List DbPage) :
    Except Error Unit × Bytes :=
  if readOnly then (.error (.other "cannot write pages: database is read-only"), file)
  else if pages.isEmpty then (.ok (), file)
  else
    let sorted := pages.mergeSort fun p q => p.1 ≤ q.1
    if sorted.any fun page => page.2.length ≠ PAGE_SIZE then (.error .invalidPageSize, file)
    else writeBatches checks file sorted

-- The frames of a log written one at a time, each page in its place.
def replay (file : Bytes) (frames : List WalFile.WALFrame) : Bytes :=
  (frames.filter fun frame => frame.pageNum ≠ 0).foldl
    (fun file frame => overwrite file (frame.pageNum.toNat * PAGE_SIZE) frame.pageData) file

section Batches

variable {checks : Bool} {file : Bytes} {pages batch rest : List DbPage} {start : DbPage}

def blocks (pages : List DbPage) : List (Nat × Bytes) := pages.map fun p => (p.1.toNat, p.2)

-- In a list of growing page numbers no successor overflows, and the batch ends where the next page
-- is not the successor.
theorem nextBatch_spec (hsorted : List.Pairwise (fun p q : DbPage => p.1.toNat < q.1.toNat) (start :: pages)) :
    ∃ batch rest, nextBatch checks start.1 pages = .ok (batch, rest) ∧ pages = batch ++ rest ∧
      List.IsChain (fun a b : Nat × Bytes => b.1 = a.1 + 1) (blocks (start :: batch)) := by
  induction pages generalizing start with
  | nil => exact ⟨[], [], rfl, rfl, List.IsChain.singleton _⟩
  | cons next pages ih =>
    obtain ⟨hstart, htail⟩ := List.pairwise_cons.mp hsorted
    have hlt : start.1.toNat < next.1.toNat := hstart next List.mem_cons_self
    have hone : (1 : UInt64).toNat = 1 := rfl
    have hbound := next.1.toNat_lt
    obtain ⟨hadd, hsucc⟩ := addU64_small (a := start.1) (b := 1) checks (by omega)
    by_cases hnext : next.1 = start.1 + 1
    · obtain ⟨batch, rest, hbatch, hpages, hchain⟩ := ih htail
      have hnum : next.1.toNat = start.1.toNat + 1 := by
        rw [hnext, hsucc, hone]
      refine ⟨next :: batch, rest, ?_, by rw [hpages, List.cons_append], ?_⟩
      · simp only [nextBatch, hadd, bind, Except.bind, if_pos hnext, hbatch]
      · exact List.isChain_cons_cons.mpr ⟨hnum, hchain⟩
    · refine ⟨[], next :: pages, ?_, rfl, List.IsChain.singleton _⟩
      simp only [nextBatch, hadd, bind, Except.bind, if_neg hnext]

-- A batch ends with the page that is as many behind the first as there are pages.
theorem chain_last (hchain : List.IsChain (fun a b : Nat × Bytes => b.1 = a.1 + 1) (blocks (start :: batch))) :
    (∃ q ∈ start :: batch, q.1.toNat = start.1.toNat + batch.length) ∧
      ∀ q ∈ start :: batch, q.1.toNat ≤ start.1.toNat + batch.length := by
  induction batch generalizing start with
  | nil => simp
  | cons next batch ih =>
    obtain ⟨hnext, hrest⟩ := List.isChain_cons_cons.mp hchain
    replace hnext : next.1.toNat = start.1.toNat + 1 := hnext
    obtain ⟨⟨last, hlast, heq⟩, hle⟩ := ih hrest
    simp only [List.length_cons]
    refine ⟨⟨last, List.mem_cons_of_mem _ hlast, by omega⟩, ?_⟩
    intro q hq
    rcases List.mem_cons.mp hq with rfl | hq
    · omega
    · have := hle q hq
      omega

-- A batch ends in the file exactly when all of its pages do.
theorem batch_inPlace (hchain : List.IsChain (fun a b : Nat × Bytes => b.1 = a.1 + 1) (blocks (start :: batch)))
    (hsize : ∀ p ∈ start :: batch, p.2.length = PAGE_SIZE) :
    (start.1.toNat * PAGE_SIZE + (start.2 ++ batch.flatMap Prod.snd).length ≤ MAX_OFFSET) ↔
      ∀ p ∈ start :: batch, InPlace p.1.toNat := by
  have hdata : (start.2 ++ batch.flatMap Prod.snd).length = (batch.length + 1) * PAGE_SIZE := by
    have hlen : ∀ l : List DbPage, (∀ p ∈ l, p.2.length = PAGE_SIZE) →
        (l.flatMap Prod.snd).length = l.length * PAGE_SIZE := by
      intro l hl
      induction l with
      | nil => simp
      | cons q l ih =>
        rw [List.flatMap_cons, List.length_append, hl q List.mem_cons_self,
          ih fun p hp => hl p (List.mem_cons_of_mem q hp), List.length_cons, Nat.succ_mul, Nat.add_comm]
    rw [← List.flatMap_cons, hlen _ hsize, List.length_cons]
  obtain ⟨⟨last, hlast, heq⟩, hle⟩ := chain_last hchain
  have hend : start.1.toNat * PAGE_SIZE + (batch.length + 1) * PAGE_SIZE =
      (start.1.toNat + batch.length + 1) * PAGE_SIZE := by
    rw [← Nat.add_mul, Nat.add_assoc]
  rw [hdata, hend]
  constructor
  · intro h p hp
    exact Nat.le_trans (Nat.mul_le_mul_right _ (Nat.succ_le_succ (hle p hp))) h
  · intro h
    have := h last hlast
    rwa [heq] at this

theorem writeBatches_cons {offset : Nat} (hbatch : nextBatch checks start.1 pages = .ok (batch, rest))
    (hoffset : seekPage checks start.1 = .ok offset)
    (hend : offset + (start.2 ++ batch.flatMap Prod.snd).length ≤ MAX_OFFSET) :
    writeBatches checks file (start :: pages) =
      writeBatches checks (overwrite file offset (start.2 ++ batch.flatMap Prod.snd)) rest := by
  rw [writeBatches]
  split
  next e he =>
    rw [hbatch] at he
    cases he
  next batch' rest' he =>
    rw [hbatch] at he
    cases he
    rw [hoffset]
    dsimp only
    rw [writeAt, if_pos hend]

theorem writeBatches_cut {offset : Nat} (hbatch : nextBatch checks start.1 pages = .ok (batch, rest))
    (hoffset : seekPage checks start.1 = .ok offset)
    (hend : ¬ offset + (start.2 ++ batch.flatMap Prod.snd).length ≤ MAX_OFFSET) :
    (writeBatches checks file (start :: pages)).1 = .error (.io "File too large") := by
  rw [writeBatches]
  split
  next e he =>
    rw [hbatch] at he
    cases he
  next batch' rest' he =>
    rw [hbatch] at he
    cases he
    rw [hoffset]
    dsimp only
    rw [writeAt, if_neg hend]

theorem writeBatches_lost {e : Error} (hbatch : nextBatch checks start.1 pages = .ok (batch, rest))
    (hoffset : seekPage checks start.1 = .error e) :
    writeBatches checks file (start :: pages) = (.error e, file) := by
  rw [writeBatches]
  split
  next e he =>
    rw [hbatch] at he
    cases he
  next batch' rest' he =>
    rw [hbatch] at he
    cases he
    rw [hoffset]

theorem flatMap_blocks (pages : List DbPage) : (blocks pages).flatMap Prod.snd = pages.flatMap Prod.snd := by
  rw [blocks, List.flatMap_map]

-- Batches of pages in place do what writing the pages one at a time does.
theorem writeBatches_inPlace (hsorted : pages.Pairwise fun p q => p.1.toNat < q.1.toNat)
    (hsize : ∀ p ∈ pages, p.2.length = PAGE_SIZE) (hplaced : ∀ p ∈ pages, InPlace p.1.toNat) :
    writeBatches checks file pages = (.ok (), writeBlocks PAGE_SIZE file (blocks pages)) := by
  induction hn : pages.length using Nat.strong_induction_on generalizing pages file with
  | _ n ih =>
    cases pages with
    | nil =>
      rw [writeBatches]
      rfl
    | cons start pages =>
      obtain ⟨batch, rest, hbatch, hpages, hchain⟩ := @nextBatch_spec checks pages start hsorted
      have htail := (List.pairwise_cons.mp hsorted).2
      have hfront : ∀ p ∈ start :: batch, p ∈ start :: pages := by
        intro p hp
        rw [hpages]
        exact List.mem_append_left rest hp
      have hblock : ∀ w ∈ blocks (start :: batch), w.2.length = PAGE_SIZE := by
        intro w hw
        obtain ⟨p, hp, rfl⟩ := List.mem_map.mp hw
        exact hsize p (hfront p hp)
      have hend := (batch_inPlace hchain fun p hp => hsize p (hfront p hp)).mpr fun p hp =>
        hplaced p (hfront p hp)
      have hrun : overwrite file (start.1.toNat * PAGE_SIZE) (start.2 ++ batch.flatMap Prod.snd) =
          writeBlocks PAGE_SIZE file (blocks (start :: batch)) := by
        rw [← flatMap_blocks]
        exact overwrite_run (by decide) hblock hchain
      have hrest : ∀ p ∈ rest, p ∈ pages := by
        intro p hp
        rw [hpages]
        exact List.mem_append_right _ hp
      have hlen : rest.length < n := by
        rw [← hn, hpages, List.length_cons, List.length_append]
        omega
      have hsorted' : rest.Pairwise fun p q => p.1.toNat < q.1.toNat := by
        rw [hpages] at htail
        exact (List.pairwise_append.mp htail).2.1
      rw [writeBatches_cons hbatch (seekPage_inPlace checks (hplaced start List.mem_cons_self)) hend, hrun,
        ih rest.length hlen hsorted' (fun p hp => hsize p (List.mem_cons_of_mem _ (hrest p hp)))
          (fun p hp => hplaced p (List.mem_cons_of_mem _ (hrest p hp))) rfl, ← writeBlocks_append]
      rw [hpages, ← List.cons_append, blocks, blocks, blocks, ← List.map_append]

-- With overflow checks the batches come to an end only if all pages are in place.
theorem inPlace_of_writeBatches (hsorted : pages.Pairwise fun p q => p.1.toNat < q.1.toNat)
    (hsize : ∀ p ∈ pages, p.2.length = PAGE_SIZE) (h : (writeBatches true file pages).1 = .ok ()) :
    ∀ p ∈ pages, InPlace p.1.toNat := by
  induction hn : pages.length using Nat.strong_induction_on generalizing pages file with
  | _ n ih =>
    cases pages with
    | nil =>
      intro p hp
      cases hp
    | cons start pages =>
      obtain ⟨batch, rest, hbatch, hpages, hchain⟩ := @nextBatch_spec true pages start hsorted
      have hfront : ∀ p ∈ start :: batch, p ∈ start :: pages := by
        intro p hp
        rw [hpages]
        exact List.mem_append_left rest hp
      have hback : ∀ p ∈ rest, p ∈ start :: pages := by
        intro p hp
        rw [hpages]
        exact List.mem_append_right (start :: batch) hp
      cases hoffset : seekPage true start.1 with
      | error e =>
        rw [writeBatches_lost hbatch hoffset] at h
        cases h
      | ok offset =>
        obtain ⟨-, rfl⟩ := seekPage_checked hoffset
        by_cases hend : start.1.toNat * PAGE_SIZE + (start.2 ++ batch.flatMap Prod.snd).length ≤ MAX_OFFSET
        · have hlen : rest.length < n := by
            rw [← hn, hpages, List.length_cons, List.length_append]
            omega
          have hsorted' : rest.Pairwise fun p q => p.1.toNat < q.1.toNat := by
            have htail := (List.pairwise_cons.mp hsorted).2
            rw [hpages] at htail
            exact (List.pairwise_append.mp htail).2.1
          rw [writeBatches_cons hbatch hoffset hend] at h
          have hrest := ih rest.length hlen hsorted' (fun p hp => hsize p (hback p hp)) h rfl
          have hbatched := (batch_inPlace hchain fun p hp => hsize p (hfront p hp)).mp hend
          intro p hp
          rw [hpages, ← List.cons_append, List.mem_append] at hp
          rcases hp with hp | hp
          · exact hbatched p hp
          · exact hrest p hp
        · rw [writeBatches_cut hbatch hoffset hend] at h
          cases h

end Batches

section Checkpoint

variable {checks readOnly : Bool} {file : Bytes} {pages : List DbPage} {frames : List WalFile.WALFrame}

theorem sorted_pages (hnodup : (pages.map Prod.fst).Nodup) :
    (pages.mergeSort fun p q => p.1 ≤ q.1).Pairwise fun p q => p.1.toNat < q.1.toNat := by
  have hperm := List.mergeSort_perm pages fun p q => p.1 ≤ q.1
  have hle : (pages.mergeSort fun p q => p.1 ≤ q.1).Pairwise fun p q => p.1 ≤ q.1 := by
    have htrans : ∀ p q r : DbPage, decide (p.1 ≤ q.1) → decide (q.1 ≤ r.1) → decide (p.1 ≤ r.1) := by
      intro p q r hpq hqr
      simp only [decide_eq_true_eq] at hpq hqr ⊢
      exact UInt64.le_trans hpq hqr
    have htotal : ∀ p q : DbPage, decide (p.1 ≤ q.1) || decide (q.1 ≤ p.1) := by
      intro p q
      simpa using UInt64.le_total p.1 q.1
    simpa using List.pairwise_mergeSort htrans htotal pages
  have hne : (pages.mergeSort fun p q => p.1 ≤ q.1).Pairwise fun p q => p.1 ≠ q.1 :=
    List.pairwise_map.mp ((hperm.map Prod.fst).nodup_iff.mpr hnodup)
  refine (hle.and hne).imp ?_
  intro p q h
  exact Nat.lt_of_le_of_ne (UInt64.le_iff_toNat_le.mp h.1) fun heq => h.2 (UInt64.toNat.inj heq)

def frameBlocks (frames : List WalFile.WALFrame) : List (Nat × Bytes) :=
  (frames.filter fun frame => frame.pageNum ≠ 0).map fun frame => (frame.pageNum.toNat, frame.pageData)

theorem replay_eq (file : Bytes) (frames : List WalFile.WALFrame) :
    replay file frames = writeBlocks PAGE_SIZE file (frameBlocks frames) := by
  rw [replay, writeBlocks, frameBlocks, List.foldl_map]

-- The last frame of a page is the one in the map.
theorem lookup_frameBlocks (frames : List WalFile.WALFrame) (block : Nat) (data : Bytes) :
    (frameBlocks frames).reverse.lookup block = some data ↔
      ∃ pageNum : UInt64, pageNum.toNat = block ∧ (pageMap frames).get? pageNum = some data := by
  induction frames using List.reverseRecOn with
  | nil => simp [frameBlocks, pageMap]
  | append_singleton frames last ih =>
    have hmap : pageMap (frames ++ [last]) = if last.pageNum ≠ 0 then
        (pageMap frames).insert last.pageNum last.pageData else pageMap frames := by
      rw [pageMap, List.foldl_append]
      rfl
    rw [hmap]
    by_cases hzero : last.pageNum = 0
    · have hblocks : frameBlocks (frames ++ [last]) = frameBlocks frames := by
        simp [frameBlocks, hzero]
      rw [hblocks, if_neg (not_not.mpr hzero)]
      exact ih
    · have hblocks : (frameBlocks (frames ++ [last])).reverse =
          (last.pageNum.toNat, last.pageData) :: (frameBlocks frames).reverse := by
        simp [frameBlocks, hzero]
      rw [hblocks, if_pos hzero, List.lookup_cons]
      by_cases hblock : block = last.pageNum.toNat
      · rw [beq_iff_eq.mpr hblock]
        constructor
        · intro h
          exact ⟨last.pageNum, hblock.symm, by rw [HashMap.get?_insert_self]; exact h⟩
        · rintro ⟨pageNum, hnum, hget⟩
          rw [UInt64.toNat.inj (hnum.trans hblock), HashMap.get?_insert_self] at hget
          exact hget
      · have hne : ∀ pageNum : UInt64, pageNum.toNat = block → pageNum ≠ last.pageNum := by
          rintro pageNum hnum rfl
          exact hblock hnum.symm
        rw [beq_eq_false_iff_ne.mpr hblock]
        dsimp only
        rw [ih]
        constructor
        · rintro ⟨pageNum, hnum, hget⟩
          exact ⟨pageNum, hnum, by rw [HashMap.get?_insert_of_ne _ _ (hne pageNum hnum)]; exact hget⟩
        · rintro ⟨pageNum, hnum, hget⟩
          rw [HashMap.get?_insert_of_ne _ _ (hne pageNum hnum)] at hget
          exact ⟨pageNum, hnum, hget⟩

-- The pages of the map, in whatever order it lists them.
structure Selected (frames : List WalFile.WALFrame) (pages : List DbPage) : Prop where
  perm : pages.Perm (pageMap frames).toList
  size : ∀ frame ∈ frames, frame.pageData.length = PAGE_SIZE

theorem Selected.nodup (h : Selected frames pages) : (pages.map Prod.fst).Nodup := by
  rw [(h.perm.map Prod.fst).nodup_iff, HashMap.map_fst_toList]
  exact HashMap.nodup_keys _

theorem Selected.mem_iff (h : Selected frames pages) {pageNum : UInt64} {data : Bytes} :
    (pageNum, data) ∈ pages ↔ (pageMap frames).get? pageNum = some data := by
  rw [h.perm.mem_iff, HashMap.mem_toList]

theorem Selected.lookup (h : Selected frames pages) (block : Nat) :
    (frameBlocks frames).reverse.lookup block =
      (blocks (pages.mergeSort fun p q => p.1 ≤ q.1)).reverse.lookup block := by
  have hsort := List.mergeSort_perm pages fun p q => p.1 ≤ q.1
  have hblocks := (List.reverse_perm (blocks (pages.mergeSort fun p q => p.1 ≤ q.1))).trans
    (hsort.map fun p : DbPage => (p.1.toNat, p.2))
  have hnodup : ((blocks (pages.mergeSort fun p q => p.1 ≤ q.1)).reverse.map Prod.fst).Nodup := by
    rw [(hblocks.map Prod.fst).nodup_iff, List.map_map]
    have hinj := h.nodup.map (f := UInt64.toNat) fun a b hab => UInt64.toNat.inj hab
    rw [List.map_map] at hinj
    exact hinj
  apply Option.ext
  intro data
  rw [lookup_frameBlocks, lookup_eq_some_of_nodup hnodup, hblocks.mem_iff, List.mem_map]
  constructor
  · rintro ⟨pageNum, hnum, hget⟩
    exact ⟨(pageNum, data), h.mem_iff.mpr hget, by rw [hnum]⟩
  · rintro ⟨⟨pageNum, data'⟩, hmem, heq⟩
    cases heq
    exact ⟨pageNum, rfl, h.mem_iff.mp hmem⟩

theorem Selected.frame (h : Selected frames pages) {p : DbPage} (hp : p ∈ pages) :
    p.2.length = PAGE_SIZE ∧ ∃ frame ∈ frames, frame.pageNum = p.1 ∧ frame.pageNum ≠ 0 := by
  have hget := (lookup_frameBlocks frames p.1.toNat p.2).mpr ⟨p.1, rfl, h.mem_iff.mp hp⟩
  obtain ⟨frame, hframe, heq⟩ := List.mem_map.mp (List.mem_reverse.mp (mem_of_lookup hget))
  obtain ⟨hmem, hne⟩ := List.mem_filter.mp hframe
  obtain ⟨hnum, hdata⟩ := Prod.mk.inj heq
  refine ⟨?_, frame, hmem, UInt64.toNat.inj hnum, by simpa using hne⟩
  rw [← hdata]
  exact h.size frame hmem

theorem Selected.page (h : Selected frames pages) {frame : WalFile.WALFrame} (hmem : frame ∈ frames)
    (hne : frame.pageNum ≠ 0) : ∃ p ∈ pages, p.1 = frame.pageNum := by
  have hblock : (frame.pageNum.toNat, frame.pageData) ∈ frameBlocks frames :=
    List.mem_map.mpr ⟨frame, List.mem_filter.mpr ⟨hmem, by simpa using hne⟩, rfl⟩
  obtain ⟨data, hdata⟩ := Option.isSome_iff_exists.mp
    (lookup_reverse_isSome.mpr ⟨_, hblock, rfl⟩)
  obtain ⟨pageNum, hnum, hget⟩ := (lookup_frameBlocks frames _ data).mp hdata
  exact ⟨(pageNum, data), h.mem_iff.mpr hget, UInt64.toNat.inj hnum⟩

-- Every page ends at an offset a file can have.
def Fits (frames : List WalFile.WALFrame) : Prop :=
  ∀ frame ∈ frames, InPlace frame.pageNum.toNat

theorem Selected.inPlace_iff (h : Selected frames pages) :
    (∀ p ∈ pages, InPlace p.1.toNat) ↔ Fits frames := by
  constructor
  · intro hplaced frame hframe
    by_cases hzero : frame.pageNum = 0
    · rw [hzero]
      decide
    · obtain ⟨p, hp, hnum⟩ := h.page hframe hzero
      rw [← hnum]
      exact hplaced p hp
  · intro hfits p hp
    obtain ⟨-, frame, hframe, hnum, -⟩ := h.frame hp
    rw [← hnum]
    exact hfits frame hframe

theorem writePagesDirect_wrong_size (checks readOnly : Bool) (file : Bytes) {pages : List DbPage}
    (h : ∃ p ∈ pages, p.2.length ≠ PAGE_SIZE) :
    ∃ e, writePagesDirect checks readOnly file pages = (.error e, file) := by
  obtain ⟨p, hp, hsize⟩ := h
  unfold writePagesDirect
  split
  · exact ⟨_, rfl⟩
  · have hne : pages.isEmpty = false := List.isEmpty_eq_false_iff_exists_mem.mpr ⟨p, hp⟩
    have hany : ((pages.mergeSort fun p q => p.1 ≤ q.1).any fun page => page.2.length ≠ PAGE_SIZE) = true :=
      List.any_eq_true.mpr ⟨p, List.mem_mergeSort.mpr hp, by simpa using hsize⟩
    dsimp only
    rw [hne, hany]
    exact ⟨_, rfl⟩

theorem Selected.writePagesDirect_eq (h : Selected frames pages) (checks : Bool) (file : Bytes) :
    writePagesDirect checks false file pages =
      writeBatches checks file (pages.mergeSort fun p q => p.1 ≤ q.1) := by
  have hany : ((pages.mergeSort fun p q => p.1 ≤ q.1).any fun page => page.2.length ≠ PAGE_SIZE) = false := by
    rw [List.any_eq_false]
    intro p hp
    simpa using (h.frame (List.mem_mergeSort.mp hp)).1
  unfold writePagesDirect
  dsimp only
  rw [hany]
  cases pages with
  | nil =>
    simp only [List.mergeSort_nil]
    rw [writeBatches]
    rfl
  | cons p pages => rfl

theorem Selected.landed_eq (h : Selected frames pages) (hfits : Fits frames) (checks : Bool) :
    (WALInner.writePagesDirect checks .none pages).2 = pages.mergeSort fun p q => p.1 ≤ q.1 :=
  congrArg Prod.snd (landAll_inPlace checks fun p hp =>
    h.inPlace_iff.mpr hfits p (List.mem_mergeSort.mp hp))

-- In place, the pages the log counts as written are the ones whose bytes change.
theorem Selected.writePagesDirect_landed (h : Selected frames pages) (hfits : Fits frames) (checks : Bool)
    (file : Bytes) : writePagesDirect checks false file pages =
      (.ok (), writeBlocks PAGE_SIZE file (blocks (WALInner.writePagesDirect checks .none pages).2)) := by
  have hplaced : ∀ p ∈ pages.mergeSort fun p q => p.1 ≤ q.1, InPlace p.1.toNat := fun p hp =>
    h.inPlace_iff.mpr hfits p (List.mem_mergeSort.mp hp)
  have hsize : ∀ p ∈ pages.mergeSort fun p q => p.1 ≤ q.1, p.2.length = PAGE_SIZE :=
    fun p hp => (h.frame (List.mem_mergeSort.mp hp)).1
  rw [h.landed_eq hfits, h.writePagesDirect_eq, writeBatches_inPlace (sorted_pages h.nodup) hsize hplaced]

theorem Selected.writes_iff (h : Selected frames pages) (readOnly : Bool) (file : Bytes) :
    (∀ checks, writePagesDirect checks readOnly file pages = (.ok (), replay file frames)) ↔
      readOnly = false ∧ Fits frames := by
  have hsorted := sorted_pages h.nodup
  have hsize : ∀ p ∈ pages.mergeSort fun p q => p.1 ≤ q.1, p.2.length = PAGE_SIZE :=
    fun p hp => (h.frame (List.mem_mergeSort.mp hp)).1
  rw [← h.inPlace_iff]
  constructor
  · intro hwrites
    have hchecked := hwrites true
    cases readOnly with
    | true => cases hchecked
    | false =>
      rw [h.writePagesDirect_eq] at hchecked
      have hplaced := inPlace_of_writeBatches hsorted hsize (congrArg Prod.fst hchecked)
      exact ⟨rfl, fun p hp => hplaced p (List.mem_mergeSort.mpr hp)⟩
  · rintro ⟨rfl, hplaced⟩ checks
    have hfits := h.inPlace_iff.mp hplaced
    rw [h.writePagesDirect_landed hfits, h.landed_eq hfits, replay_eq]
    congr 1
    refine writeBlocks_congr (by decide) ?_ ?_ fun block => (h.lookup block).symm
    · intro w hw
      obtain ⟨p, hp, rfl⟩ := List.mem_map.mp hw
      exact hsize p hp
    · intro w hw
      obtain ⟨frame, hframe, rfl⟩ := List.mem_map.mp hw
      exact h.size frame (List.mem_filter.mp hframe).1

end Checkpoint

section Recognised

variable {header : WalFile.WALHeader} {frames : List WalFile.WALFrame}

-- A frame that is recognised has a whole page.
theorem length_pageData {frame : WalFile.WALFrame} {bytes : Bytes} (h : header.decode bytes = some frame) :
    frame.pageData.length = PAGE_SIZE := by
  unfold WalFile.WALHeader.decode at h
  split_ifs at h with hok
  rw [← Option.some.inj h]
  simp only [parseFrame, WalFile.slice, List.length_take, List.length_drop, hok.1, WAL_FRAME_SIZE]
  omega

-- The pages of a checkpoint, in the order in which the map happens to list them, are written as the
-- frames would be one at a time, exactly when the pager may write and every page ends at an offset a
-- file can have. A page of another size keeps all pages from being written.
theorem checkpoint_replays_iff (hframes : ∀ frame ∈ frames, ∃ bytes, header.decode bytes = some frame)
    {pages : List DbPage} (hpages : pages.Perm (pageMap frames).toList) (readOnly : Bool) (file : Bytes) :
    ((∀ checks, writePagesDirect checks readOnly file pages = (.ok (), replay file frames)) ↔
      readOnly = false ∧ Fits frames) ∧
    ∀ checks (pages' : List DbPage), (∃ p ∈ pages', p.2.length ≠ PAGE_SIZE) →
      ∃ e, writePagesDirect checks readOnly file pages' = (.error e, file) := by
  have hselected : Selected frames pages := by
    refine ⟨hpages, fun frame hframe => ?_⟩
    obtain ⟨bytes, hbytes⟩ := hframes frame hframe
    exact length_pageData hbytes
  exact ⟨hselected.writes_iff readOnly file, fun checks pages' h =>
    writePagesDirect_wrong_size checks readOnly file h⟩

def log : WalFile.WALHeader := ⟨WAL_MAGIC, 1, 7, 9⟩

def twoFrames (pageNum : UInt64) : List WalFile.WALFrame :=
  [log.frame 1 pageNum (filledPage 1), log.frame 2 1 (filledPage 2)]

theorem recognised_twoFrames (pageNum : UInt64) :
    ∀ frame ∈ twoFrames pageNum, ∃ bytes, log.decode bytes = some frame := by
  intro frame hframe
  simp only [twoFrames, List.mem_cons, List.not_mem_nil, or_false] at hframe
  rcases hframe with rfl | rfl
  · exact ⟨_, decode_frame log 1 pageNum List.length_replicate⟩
  · exact ⟨_, decode_frame log 2 1 List.length_replicate⟩

theorem checkpoint_twoFrames : Fits (twoFrames 3) ∧
    ((∀ checks, writePagesDirect checks false [] (pageMap (twoFrames 3)).toList =
        (.ok (), replay [] (twoFrames 3))) ↔ false = false ∧ Fits (twoFrames 3)) := by
  refine ⟨?_, (checkpoint_replays_iff (recognised_twoFrames 3) (List.Perm.refl _) false []).1⟩
  intro frame hframe
  simp only [twoFrames, List.mem_cons, List.not_mem_nil, or_false] at hframe
  rcases hframe with rfl | rfl
  · exact inPlace_iff.mpr (by decide)
  · exact inPlace_iff.mpr (by decide)

theorem getElem?_filledPage (byte : UInt8) : (filledPage byte)[PAGE_SIZE % PAGE_SIZE]? = some byte := by
  rw [filledPage, List.getElem?_replicate, if_pos (by decide)]

-- Page 2^52 + 1. The first 64 bits of its place are those of page 1.
def farPage : UInt64 := 4503599627370497

theorem sorted_farPage : (pageMap (twoFrames farPage)).toList.mergeSort (fun p q => p.1 ≤ q.1) =
    [(1, filledPage 2), (farPage, filledPage 1)] := by
  have hpages : (pageMap (twoFrames farPage)).toList = [(1, filledPage 2), (farPage, filledPage 1)] := rfl
  rw [hpages]
  refine List.mergeSort_of_pairwise (List.pairwise_pair.mpr ?_)
  exact decide_eq_true (by decide : (1 : UInt64) ≤ farPage)

theorem writeBatches_farPage :
    writeBatches false [] [(1, filledPage 2), (farPage, filledPage 1)] =
      (.ok (), writeBlocks PAGE_SIZE [] [(1, filledPage 2), (1, filledPage 1)]) ∧
    (writeBatches true [] [(1, filledPage 2), (farPage, filledPage 1)]).1 =
      .error (.panic "attempt to multiply with overflow") := by
  have hnext : ∀ checks, nextBatch checks 1 [(farPage, filledPage 1)] = .ok ([], [(farPage, filledPage 1)]) := by
    intro checks
    cases checks with
    | true => rfl
    | false => rfl
  have hlast : ∀ checks, nextBatch checks farPage [] = .ok ([], []) := fun _ => rfl
  have hfirst : ∀ checks, seekPage checks 1 = .ok 4096 := by
    intro checks
    cases checks with
    | true => rfl
    | false => rfl
  have hcut : seekPage false farPage = .ok 4096 := rfl
  have hoverflow : seekPage true farPage = .error (.panic "attempt to multiply with overflow") := rfl
  have hroom : ∀ byte : UInt8, 4096 + (filledPage byte ++ []).length ≤ MAX_OFFSET := by
    intro byte
    rw [List.append_nil, filledPage, List.length_replicate]
    decide
  let near : DbPage := (1, filledPage 2)
  let far : DbPage := (farPage, filledPage 1)
  have hone : ∀ checks, writeBatches checks [] [near, far] =
      writeBatches checks (overwrite [] 4096 (filledPage 2)) [far] := by
    intro checks
    have h := @writeBatches_cons checks [] [far] [] [far] near 4096 (hnext checks) (hfirst checks) (hroom 2)
    rw [List.flatMap_nil, List.append_nil] at h
    exact h
  constructor
  · have h := @writeBatches_cons false (overwrite [] 4096 (filledPage 2)) [] [] [] far 4096 (hlast false) hcut
      (hroom 1)
    have hblocks : writeBlocks PAGE_SIZE [] [(1, filledPage 2), (1, filledPage 1)] =
        overwrite (overwrite [] 4096 (filledPage 2)) 4096 (filledPage 1) := by
      simp [writeBlocks, PAGE_SIZE]
    rw [List.flatMap_nil, List.append_nil, writeBatches] at h
    rw [hone false, h, hblocks]
  · rw [hone true, @writeBatches_lost true _ [] [] [] far _ (hlast true) hoverflow]

-- A frame of that page and a later one of page 1. Without overflow checks what the first frame
-- holds is left in the place of page 1. With checks it is a panic.
theorem far_page_overwrites :
    (writePagesDirect false false [] (pageMap (twoFrames farPage)).toList).1 = .ok () ∧
    (writePagesDirect false false [] (pageMap (twoFrames farPage)).toList).2[PAGE_SIZE]? = some 1 ∧
    (replay [] (twoFrames farPage))[PAGE_SIZE]? = some 2 ∧
    (writePagesDirect true false [] (pageMap (twoFrames farPage)).toList).1 =
      .error (.panic "attempt to multiply with overflow") := by
  have hselected : Selected (twoFrames farPage) (pageMap (twoFrames farPage)).toList := by
    refine ⟨List.Perm.refl _, fun frame hframe => ?_⟩
    obtain ⟨bytes, hbytes⟩ := recognised_twoFrames farPage frame hframe
    exact length_pageData hbytes
  have hsize : ∀ (i j : Nat) (b c : UInt8), ∀ w ∈ [(i, filledPage b), (j, filledPage c)], w.2.length = PAGE_SIZE := by
    intro i j b c w hw
    simp only [List.mem_cons, List.not_mem_nil, or_false] at hw
    rcases hw with rfl | rfl
    · exact List.length_replicate
    · exact List.length_replicate
  have hreplay : frameBlocks (twoFrames farPage) = [(farPage.toNat, filledPage 1), (1, filledPage 2)] := rfl
  obtain ⟨hwrapped, hpanics⟩ := writeBatches_farPage
  rw [hselected.writePagesDirect_eq, hselected.writePagesDirect_eq, sorted_farPage, replay_eq, hreplay]
  refine ⟨congrArg Prod.fst hwrapped, ?_, ?_, hpanics⟩
  · rw [hwrapped, getElem?_writeBlocks (by decide) (hsize 1 1 2 1)]
    exact getElem?_filledPage 1
  · rw [getElem?_writeBlocks (by decide) (hsize farPage.toNat 1 1 2)]
    exact getElem?_filledPage 2

end Recognised

end JasonDb.DbFile
