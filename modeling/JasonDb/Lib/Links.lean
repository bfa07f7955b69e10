import Mathlib.Data.List.Basic

namespace JasonDb.Lib

-- Both links of a node of a doubly linked list. Nodes are named by numbers.
structure Link where
  prev : Option Nat
  next : Option Nat

def Links := Nat → Option Link

namespace Links

-- Changes the links of one node, if there is one.
def modify (links : Links) (node : Option Nat) (f : Link → Link) : Links :=
  fun i => if some i = node then (links i).map f else links i

def setNext (links : Links) (node next : Option Nat) : Links :=
  links.modify node fun link => { link with next }

def setPrev (links : Links) (node prev : Option Nat) : Links :=
  links.modify node fun link => { link with prev }

-- The nodes follow each other between `before` and `after`.
def Segment (links : Links) : Option Nat → List Nat → Option Nat → Prop
  | _, [], _ => True
  | before, i :: rest, after =>
    links i = some ⟨before, rest.head?.or after⟩ ∧ Segment links (some i) rest after

variable {links links' : Links} {before after before' after' : Option Nat} {xs ys : List Nat} {i : Nat}

theorem modify_of_ne {node : Option Nat} {f : Link → Link} (h : some i ≠ node) :
    links.modify node f i = links i := if_neg h

theorem modify_self {f : Link → Link} : links.modify (some i) f i = (links i).map f := if_pos rfl

theorem segment_append : Segment links before (xs ++ ys) after ↔
    Segment links before xs (ys.head?.or after) ∧
      Segment links (xs.getLast?.or before) ys after := by
  induction xs generalizing before with
  | nil => simp [Segment]
  | cons x xs ih =>
    have hlast : (x :: xs).getLast?.or before = xs.getLast?.or (some x) := by
      rw [List.getLast?_cons]
      cases xs.getLast? with
      | none => rfl
      | some last => rfl
    rw [List.cons_append, Segment, Segment, ih, hlast, List.head?_append, Option.or_assoc, and_assoc]

theorem Segment.congr (h : Segment links before xs after) (heq : ∀ i ∈ xs, links' i = links i) :
    Segment links' before xs after := by
  induction xs generalizing before with
  | nil => trivial
  | cons x xs ih =>
    refine ⟨(heq x List.mem_cons_self).trans h.1, ih h.2 ?_⟩
    intro i hi
    exact heq i (List.mem_cons_of_mem x hi)

-- A change to a node elsewhere.
theorem Segment.modify (h : Segment links before xs after) {node : Option Nat} {f : Link → Link}
    (hnode : ∀ i ∈ xs, some i ≠ node) : Segment (links.modify node f) before xs after :=
  h.congr fun i hi => modify_of_ne (hnode i hi)

theorem Segment.setPrev_head (h : Segment links before xs after) (hnodup : xs.Nodup) :
    Segment (links.setPrev xs.head? before') before' xs after := by
  cases xs with
  | nil => trivial
  | cons x xs =>
    refine ⟨?_, h.2.modify ?_⟩
    · rw [setPrev, List.head?_cons, modify_self, h.1]
      rfl
    · intro i hi heq
      obtain rfl := Option.some.inj heq
      exact (List.nodup_cons.mp hnodup).1 hi

theorem Segment.setNext_getLast (h : Segment links before xs after) (hnodup : xs.Nodup) :
    Segment (links.setNext xs.getLast? after') before xs after' := by
  rcases List.eq_nil_or_concat' xs with rfl | ⟨ys, last, rfl⟩
  · trivial
  · rw [segment_append] at h ⊢
    rw [List.nodup_append] at hnodup
    rw [List.getLast?_concat]
    refine ⟨h.1.modify ?_, ?_, trivial⟩
    · intro i hi heq
      exact hnodup.2.2 i hi last (List.mem_singleton_self last) (Option.some.inj heq)
    · rw [setNext, modify_self, h.2.1]
      rfl

-- A node leaves the list: its neighbours are linked to each other.
theorem Segment.unlink (h : Segment links before (xs ++ i :: ys) after)
    (hnodup : (xs ++ i :: ys).Nodup) :
    links i = some ⟨xs.getLast?.or before, ys.head?.or after⟩ ∧
      Segment ((links.setNext xs.getLast? (ys.head?.or after)).setPrev ys.head? (xs.getLast?.or before))
        before (xs ++ ys) after := by
  obtain ⟨hxs, hi, hys⟩ := segment_append.mp h
  obtain ⟨hxsNodup, hcons, hdisj⟩ := List.nodup_append.mp hnodup
  have hysNodup := (List.nodup_cons.mp hcons).2
  refine ⟨hi, segment_append.mpr ⟨?_, ?_⟩⟩
  · refine (hxs.setNext_getLast hxsNodup).modify ?_
    intro j hj heq
    exact hdisj j hj j (List.mem_cons_of_mem i (List.mem_of_head? heq.symm)) rfl
  · refine Segment.setPrev_head (hys.modify ?_) hysNodup
    intro j hj heq
    exact hdisj j (List.mem_of_getLast? heq.symm) j (List.mem_cons_of_mem i hj) rfl

-- A node that is linked to the first one becomes the first one.
theorem Segment.push (h : Segment links none xs after) (hnodup : (i :: xs).Nodup)
    (hi : links i = some ⟨none, xs.head?.or after⟩) :
    Segment (links.setPrev xs.head? (some i)) none (i :: xs) after := by
  obtain ⟨hnot, hxs⟩ := List.nodup_cons.mp hnodup
  refine ⟨?_, h.setPrev_head hxs⟩
  rw [setPrev, modify_of_ne, hi]
  intro heq
  exact hnot (List.mem_of_head? heq.symm)

end Links

end JasonDb.Lib
