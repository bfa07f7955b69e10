import Mathlib.Algebra.GroupWithZero.Nat
import Mathlib.Data.String.Basic

namespace JasonDb.Lib

section Pieces

variable {α : Type} [BEq α] [LawfulBEq α] {c : α}

theorem intercalate_append_singleton {α : Type} {c : α} (before : List (List α)) (last : List α) :
    [c].intercalate (before ++ [last]) = before.flatMap (· ++ [c]) ++ last := by
  induction before with
  | nil => simp [List.intercalate]
  | cons piece before ih =>
    rw [List.cons_append, List.intercalate_cons_of_ne_nil (by simp), ih, List.flatMap_cons]
    simp

-- Pieces without the separator are found again, and what stands behind them is split.
theorem splitOn_intercalate_append {before : List (List α)} (last : List α)
    (h : ∀ piece ∈ before, c ∉ piece) :
    ([c].intercalate (before ++ [last])).splitOn c = before ++ last.splitOn c := by
  rw [intercalate_append_singleton]
  induction before with
  | nil => rfl
  | cons piece before ih =>
    have hrest := ih fun piece hpiece => h piece (List.mem_cons_of_mem _ hpiece)
    rw [List.flatMap_cons, List.append_assoc, List.append_assoc, List.singleton_append,
      List.splitOn_append_cons_self_of_not_mem (h piece List.mem_cons_self), hrest]
    rfl

theorem count_intercalate_append (before : List (List α)) (last : List α) :
    ([c].intercalate (before ++ [last])).count c = (before.map (List.count c)).sum + before.length + last.count c := by
  rw [intercalate_append_singleton]
  induction before with
  | nil => simp
  | cons piece before ih =>
    rw [List.flatMap_cons, List.append_assoc, List.append_assoc, List.count_append, List.count_append, ih]
    simp
    omega

theorem not_mem_of_mem_splitOn {l piece : List α} (h : piece ∈ l.splitOn c) : c ∉ piece := by
  induction l generalizing piece with
  | nil =>
    rw [List.splitOn_nil, List.mem_singleton] at h
    simp [h]
  | cons d l ih =>
    rw [List.splitOn_cons_eq_if_modifyHead] at h
    by_cases hd : d = c
    · rw [if_pos (beq_iff_eq.mpr hd)] at h
      rcases List.mem_cons.mp h with rfl | h
      · simp
      · exact ih h
    · rw [if_neg (by simpa using hd)] at h
      cases hpieces : l.splitOn c with
      | nil => exact absurd hpieces (List.splitOn_ne_nil _ _)
      | cons first pieces =>
        rw [hpieces] at h
        rcases List.mem_cons.mp h with rfl | h
        · have hfirst : c ∉ first := ih (hpieces ▸ List.mem_cons_self)
          simp [Ne.symm hd, hfirst]
        · exact ih (hpieces ▸ List.mem_cons_of_mem _ h)

theorem intercalate_append {α : Type} (c : α) (before : List (List α)) {after : List (List α)}
    (h : after ≠ []) :
    [c].intercalate (before ++ after) = [c].intercalate (before ++ [[c].intercalate after]) := by
  induction before with
  | nil => simp
  | cons piece before ih =>
    rw [List.cons_append, List.cons_append, List.intercalate_cons_of_ne_nil (by simp [h]),
      List.intercalate_cons_of_ne_nil (by simp), ih]

theorem count_splitOn (l : List α) : l.count c + 1 = (l.splitOn c).length := by
  have hpieces := List.dropLast_append_getLast (List.splitOn_ne_nil c l)
  have hfree : ∀ piece ∈ l.splitOn c, piece.count c = 0 :=
    fun piece hpiece => List.count_eq_zero.mpr (not_mem_of_mem_splitOn hpiece)
  have hzero : ((l.splitOn c).dropLast.map (List.count c)).sum = 0 := by
    refine List.sum_eq_zero_iff_forall_eq_nat.mpr fun n hn => ?_
    obtain ⟨piece, hpiece, rfl⟩ := List.mem_map.mp hn
    exact hfree piece (List.dropLast_subset _ hpiece)
  have hcount := count_intercalate_append (c := c) (l.splitOn c).dropLast ((l.splitOn c).getLast (by simp))
  rw [hpieces, List.intercalate_splitOn, hzero, hfree _ (List.getLast_mem _), List.length_dropLast] at hcount
  have hpos := List.length_pos_of_ne_nil (List.splitOn_ne_nil c l)
  omega

-- Behind the pieces the last one is found exactly if no piece has the separator.
theorem drop_splitOn_intercalate (before : List (List α)) (last : List α) :
    [c].intercalate ((([c].intercalate (before ++ [last])).splitOn c).drop before.length) = last ↔
      ∀ piece ∈ before, c ∉ piece := by
  constructor
  · intro hdrop
    have hcount := count_intercalate_append (c := c) before last
    generalize hl : [c].intercalate (before ++ [last]) = l at hdrop hcount
    have hlen := count_splitOn (c := c) l
    have hne : (l.splitOn c).drop before.length ≠ [] := by
      rw [Ne, List.drop_eq_nil_iff]
      omega
    have htake : ∀ n ∈ ((l.splitOn c).take before.length).map (List.count c), n = 0 := by
      intro n hn
      obtain ⟨piece, hpiece, rfl⟩ := List.mem_map.mp hn
      exact List.count_eq_zero.mpr (not_mem_of_mem_splitOn (List.mem_of_mem_take hpiece))
    -- The pieces in front, which have no separator, and the last one are the text once more.
    have htext : [c].intercalate ((l.splitOn c).take before.length ++ [last]) = l := by
      rw [← hdrop, ← intercalate_append c _ hne, List.take_append_drop, List.intercalate_splitOn]
    have hcount' := count_intercalate_append (c := c) ((l.splitOn c).take before.length) last
    rw [htext, List.sum_eq_zero_iff_forall_eq_nat.mpr htake, List.length_take] at hcount'
    have hsum : (before.map (List.count c)).sum = 0 := by omega
    intro piece hpiece
    exact List.count_eq_zero.mp (List.sum_eq_zero_iff_forall_eq_nat.mp hsum _ (List.mem_map_of_mem hpiece))
  · intro hnot
    rw [splitOn_intercalate_append last hnot, List.drop_left, List.intercalate_splitOn]

theorem findIdx?_append_separator {before : List α} (after : List α) (h : c ∉ before) :
    (before ++ c :: after).findIdx? (· == c) = some before.length := by
  have hbefore : before.findIdx? (· == c) = none := by
    rw [List.findIdx?_eq_none_iff]
    intro d hd
    simp only [beq_eq_false_iff_ne]
    rintro rfl
    exact h hd
  rw [List.findIdx?_append, hbefore, List.findIdx?_cons, if_pos (beq_self_eq_true c)]
  simp

-- A text in front of its first separator shows where it ends.
theorem append_separator_inj {before before' after after' : List α} (hbefore : c ∉ before)
    (hbefore' : c ∉ before')
    (h : before ++ c :: after = before' ++ c :: after') : before = before' ∧ after = after' := by
  have hpos := congrArg (List.findIdx? (· == c)) h
  rw [findIdx?_append_separator _ hbefore, findIdx?_append_separator _ hbefore'] at hpos
  obtain ⟨htext, hrest⟩ := List.append_inj h (Option.some.inj hpos)
  exact ⟨htext, (List.cons.inj hrest).2⟩

theorem drop_append_separator {α : Type} (c : α) (before after : List α) :
    (before ++ c :: after).drop (before.length + 1) = after := by
  rw [List.drop_append, List.drop_eq_nil_of_le (by omega)]
  simp

end Pieces

section Strings

open String

-- The text between `l` and the position, which is behind `m`, is read; `r` is to be read.
theorem splitOnAux_of_valid (c : Char) (l m r : List Char) (acc : List String) :
    splitOnAux (ofList (l ++ m ++ r)) (ofList [c]) ⟨utf8Len l⟩ ⟨utf8Len l + utf8Len m⟩ 0 acc =
      acc.reverse ++ (List.splitOnPPrepend (· == c) r m.reverse).map ofList := by
  induction r generalizing l m acc with
  | nil =>
    have hextract := extract_of_valid l m []
    rw [List.append_nil] at hextract ⊢
    unfold splitOnAux
    have hend : (⟨utf8Len l + utf8Len m⟩ : Pos.Raw).atEnd (ofList (l ++ m)) = true := by
      rw [atEnd_iff, rawEndPos_ofList, utf8Len_append]
      exact Nat.le_refl _
    rw [if_pos hend, hextract]
    simp
  | cons d r ih =>
    have hget : Pos.Raw.get (ofList (l ++ m ++ d :: r)) ⟨utf8Len l + utf8Len m⟩ = d := by
      rw [← utf8Len_append]
      exact get_of_valid (l ++ m) (d :: r)
    have hnext : Pos.Raw.next (ofList (l ++ m ++ d :: r)) ⟨utf8Len l + utf8Len m⟩ =
        ⟨utf8Len l + utf8Len m + d.utf8Size⟩ := by
      rw [← utf8Len_append]
      exact next_of_valid (l ++ m) d r
    have hsep : Pos.Raw.get (ofList [c]) 0 = c := get_of_valid [] [c]
    have hsepNext : Pos.Raw.next (ofList [c]) 0 = ⟨c.utf8Size⟩ := by
      have := next_of_valid [] c []
      simpa using this
    have hsepEnd : (⟨c.utf8Size⟩ : Pos.Raw).atEnd (ofList [c]) = true := by
      rw [atEnd_iff, rawEndPos_ofList]
      simp
    have hinside : (⟨utf8Len l + utf8Len m⟩ : Pos.Raw).atEnd (ofList (l ++ m ++ d :: r)) ≠ true := by
      rw [Ne, atEnd_iff, rawEndPos_ofList, utf8Len_append, utf8Len_append, utf8Len_cons]
      have hpos := d.utf8Size_pos
      rw [Pos.Raw.mk_le_mk]
      omega
    have hextract := extract_of_valid l m (d :: r)
    have hback : ∀ i k : Nat, (⟨i + k⟩ : Pos.Raw).unoffsetBy ⟨k⟩ = ⟨i⟩ := fun i k => by
      simp [Pos.Raw.unoffsetBy]
    unfold splitOnAux
    rw [if_neg hinside, hget, hsep, hnext, hsepNext]
    by_cases hd : d = c
    · subst hd
      have hrest := ih (l ++ m ++ [d]) [] (ofList m :: acc)
      simp only [utf8Len_append, utf8Len_cons, utf8Len_nil, Nat.zero_add, Nat.add_zero, List.append_nil,
        List.append_assoc, List.singleton_append] at hrest
      rw [if_pos (beq_self_eq_true d), if_pos hsepEnd, hback, hextract]
      rw [List.append_assoc, Nat.add_assoc, hrest,
        List.splitOnPPrepend_cons_pos (p := (· == d)) (beq_self_eq_true d)]
      simp
    · have hne : (d == c) = false := by simpa using hd
      have hrest := ih l (m ++ [d]) acc
      simp only [utf8Len_append, utf8Len_cons, utf8Len_nil, Nat.zero_add, List.append_assoc,
        List.singleton_append] at hrest
      rw [hne, if_neg Bool.false_ne_true]
      have hzero : (⟨utf8Len l + utf8Len m⟩ : Pos.Raw).unoffsetBy 0 = ⟨utf8Len l + utf8Len m⟩ :=
        hback _ 0
      rw [hzero, hnext, List.append_assoc, Nat.add_assoc, hrest, List.splitOnPPrepend_cons_neg (p := (· == c)) hne]
      simp

-- Splitting at a character is splitting the list of characters.
theorem splitOn_char (s : String) (c : Char) :
    s.splitOn (ofList [c]) = (s.toList.splitOn c).map ofList := by
  have hne : (ofList [c] == "") = false := by
    simp
  have haux := splitOnAux_of_valid c [] [] s.toList []
  unfold splitOn
  rw [hne, if_neg Bool.false_ne_true]
  simpa [List.splitOn_eq_splitOnP] using haux

end Strings

end JasonDb.Lib
