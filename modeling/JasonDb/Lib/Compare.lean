import Mathlib.Data.List.Sort
import Mathlib.Order.Defs.LinearOrder

namespace JasonDb.Lib

variable {α β : Type}

-- A comparison that orders the members of `s`, up to those that it calls equal.
structure TotalPreorderOn (s : α → Prop) (cmp : α → α → Ordering) : Prop where
  refl : ∀ a, s a → cmp a a = .eq
  swap : ∀ a b, s a → s b → cmp a b = (cmp b a).swap
  trans : ∀ a b c, s a → s b → s c → cmp a b ≠ .gt → cmp b c ≠ .gt → cmp a c ≠ .gt

theorem TotalPreorderOn.reverse {s : α → Prop} {cmp : α → α → Ordering} (h : TotalPreorderOn s cmp) :
    TotalPreorderOn s fun a b => (cmp a b).swap := by
  have hle : ∀ a b, s a → s b → (cmp a b).swap ≠ .gt → cmp b a ≠ .gt := by
    intro a b ha hb hab
    rwa [h.swap b a hb ha]
  constructor
  · intro a ha
    rw [h.refl a ha]
    rfl
  · intro a b ha hb
    rw [h.swap a b ha hb]
  · intro a b c ha hb hc hab hbc
    have hca := h.trans c b a hc hb ha (hle b c hb hc hbc) (hle a b ha hb hab)
    rwa [h.swap c a hc ha] at hca

def TotalPreorder (cmp : α → α → Ordering) : Prop := TotalPreorderOn (fun _ => True) cmp

-- Transitivity at three values. In this form it goes through a lexicographic comparison without a
-- change of the order of the three.
structure TransAt (cmp : α → α → Ordering) (x y z : α) : Prop where
  eq_left : cmp x y = .eq → cmp x z = cmp y z
  eq_right : cmp y z = .eq → cmp x z = cmp x y
  same : cmp x y = cmp y z → cmp x z = cmp x y

section TransAt

variable {cmp cmp' : α → α → Ordering} {x y z : α}

theorem TransAt.le_trans (h : TransAt cmp x y z) (hxy : cmp x y ≠ .gt) (hyz : cmp y z ≠ .gt) :
    cmp x z ≠ .gt := by
  cases hx : cmp x y with
  | gt => exact absurd hx hxy
  | eq => rwa [h.eq_left hx]
  | lt =>
    cases hy : cmp y z with
    | gt => exact absurd hy hyz
    | eq => rwa [h.eq_right hy]
    | lt => rwa [h.same (hx.trans hy.symm)]

-- What the second comparison does matters only where the first one finds no difference.
theorem TransAt.then (h : TransAt cmp x y z)
    (h' : cmp x y = .eq → cmp y z = .eq → TransAt cmp' x y z) :
    TransAt (fun a b => (cmp a b).then (cmp' a b)) x y z := by
  cases hx : cmp x y with
  | eq =>
    have hxz := h.eq_left hx
    cases hy : cmp y z with
    | eq =>
      obtain ⟨hleft, hright, hsame⟩ := h' hx hy
      constructor <;> simpa [hx, hy, hxz]
    | lt => constructor <;> simp [hx, hy, hxz, eq_comm]
    | gt => constructor <;> simp [hx, hy, hxz, eq_comm]
  | lt =>
    cases hy : cmp y z with
    | eq => constructor <;> simp [hx, hy, h.eq_right hy]
    | lt => constructor <;> simp [hx, hy, h.same (hx.trans hy.symm)]
    | gt => constructor <;> simp [hx, hy]
  | gt =>
    cases hy : cmp y z with
    | eq => constructor <;> simp [hx, hy, h.eq_right hy]
    | lt => constructor <;> simp [hx, hy]
    | gt => constructor <;> simp [hx, hy, h.same (hx.trans hy.symm)]

theorem TransAt.reverse (h : TransAt cmp x y z) : TransAt (fun a b => (cmp a b).swap) x y z := by
  have hswap : ∀ {o : Ordering}, o.swap = .eq → o = .eq := by
    intro o
    cases o <;> simp
  constructor
  · intro heq
    simp only [h.eq_left (hswap heq)]
  · intro heq
    simp only [h.eq_right (hswap heq)]
  · intro heq
    have := congrArg Ordering.swap heq
    simp only [Ordering.swap_swap] at this
    simp only [h.same this]

theorem TransAt.comap {f : β → α} {u v w : β} (h : TransAt cmp (f u) (f v) (f w)) :
    TransAt (fun a b => cmp (f a) (f b)) u v w :=
  ⟨h.eq_left, h.eq_right, h.same⟩

theorem transAt_compare [Ord α] [Std.TransOrd α] (x y z : α) : TransAt compare x y z := by
  constructor
  · intro h
    exact Std.TransCmp.congr_left h
  · intro h
    exact (Std.TransCmp.congr_right h).symm
  · intro h
    cases hx : compare x y with
    | eq => rw [Std.TransCmp.congr_left hx, ← h, hx]
    | lt => exact Std.TransCmp.lt_trans hx (h ▸ hx)
    | gt => exact Std.TransCmp.gt_trans hx (h ▸ hx)

theorem TotalPreorder.of_transAt (hswap : ∀ a b, cmp a b = (cmp b a).swap)
    (htrans : ∀ a b c, TransAt cmp a b c) :
    TotalPreorder cmp := by
  refine ⟨fun a _ => ?_, fun a b _ _ => hswap a b, fun a b c _ _ _ => (htrans a b c).le_trans⟩
  have := hswap a a
  cases h : cmp a a with
  | eq => rfl
  | lt => rw [h] at this; cases this
  | gt => rw [h] at this; cases this

end TransAt

section Lists

-- Members one by one, and the shorter list first.
def compareLists (cmp : α → α → Ordering) : List α → List α → Ordering
  | [], [] => .eq
  | [], _ :: _ => .lt
  | _ :: _, [] => .gt
  | a :: as, b :: bs => (cmp a b).then (compareLists cmp as bs)

variable {cmp : α → α → Ordering} {as bs cs : List α}

theorem compareLists_swap (h : ∀ a ∈ as, ∀ b ∈ bs, cmp a b = (cmp b a).swap) :
    compareLists cmp as bs = (compareLists cmp bs as).swap := by
  induction as generalizing bs with
  | nil => cases bs <;> rfl
  | cons a as ih =>
    cases bs with
    | nil => rfl
    | cons b bs =>
      have hlater := @ih bs fun a' ha' b' hb' => h a' (by simp [ha']) b' (by simp [hb'])
      rw [compareLists, compareLists, h a (by simp) b (by simp), hlater, Ordering.swap_then]

theorem compareLists_transAt (h : ∀ a ∈ as, ∀ b ∈ bs, ∀ c ∈ cs, TransAt cmp a b c) :
    TransAt (compareLists cmp) as bs cs := by
  induction as generalizing bs cs with
  | nil => cases bs <;> cases cs <;> constructor <;> simp [compareLists]
  | cons a as ih =>
    cases bs with
    | nil => cases cs <;> constructor <;> simp [compareLists]
    | cons b bs =>
      cases cs with
      | nil => constructor <;> simp [compareLists, eq_comm]
      | cons c cs =>
        have hfirst := h a (by simp) b (by simp) c (by simp)
        have hlater := @ih bs cs fun a' ha' b' hb' c' hc' => h a' (by simp [ha']) b' (by simp [hb']) c' (by simp [hc'])
        -- The heads and the tails are compared as pairs.
        have hpairs : TransAt (fun p q : α × List α => (cmp p.1 q.1).then (compareLists cmp p.2 q.2))
            (a, as) (b, bs) (c, cs) :=
          .then (.comap (f := Prod.fst) hfirst) fun _ _ => .comap (f := Prod.snd) hlater
        exact ⟨hpairs.eq_left, hpairs.eq_right, hpairs.same⟩

end Lists

section Sorting

-- A stable sort by a comparison.
def sortBy (cmp : α → α → Ordering) (l : List α) : List α := l.mergeSort fun a b => (cmp a b).isLE

variable {cmp : α → α → Ordering} {l : List α}

theorem sortBy_perm (cmp : α → α → Ordering) (l : List α) : (sortBy cmp l).Perm l := List.mergeSort_perm _ _

-- A comparison that orders the members of a list sorts it.
theorem sortBy_sorted (h : TotalPreorderOn (· ∈ l) cmp) :
    (sortBy cmp l).Pairwise fun a b => cmp b a ≠ .lt := by
  have hle : ∀ {o : Ordering}, o.isLE = true ↔ o ≠ .gt := by
    intro o
    cases o <;> simp
  have hsorted := @List.pairwise_mergeSort {x // x ∈ l} (fun a b => (cmp a.1 b.1).isLE)
    (fun a b c hab hbc => hle.mpr (h.trans a b c a.2 b.2 c.2 (hle.mp hab) (hle.mp hbc)))
    (fun a b => by
      rw [h.swap a b a.2 b.2]
      cases cmp b.1 a.1 <;> rfl) l.attach
  have hmap : (l.attach.mergeSort fun a b => (cmp a.1 b.1).isLE).map Subtype.val = sortBy cmp l := by
    rw [@List.map_mergeSort _ _ _ (fun a b => (cmp a b).isLE) _ _ fun _ _ _ _ => rfl,
      List.attach_map_subtype_val]
    rfl
  rw [← hmap]
  refine List.pairwise_map.mpr (hsorted.imp fun {a b} hab => ?_)
  rw [h.swap b a b.2 a.2]
  have := hle.mp hab
  cases hcmp : cmp a.1 b.1 <;> simp_all

-- A sort of which no more is known than that it is stable and sorts by a comparison that orders the
-- members. With another comparison it may fail.
structure Sorter (ε α : Type) where
  run : (α → α → Ordering) → List α → Except ε (List α)
  run_eq : ∀ cmp l, TotalPreorderOn (· ∈ l) cmp → run cmp l = .ok (sortBy cmp l)

theorem TotalPreorder.on (h : TotalPreorder cmp) (s : α → Prop) : TotalPreorderOn s cmp :=
  ⟨fun a _ => h.refl a trivial, fun a b _ _ => h.swap a b trivial trivial,
    fun a b c _ _ _ => h.trans a b c trivial trivial trivial⟩

theorem Sorter.sorts {ε : Type} (sorter : Sorter ε α) (h : TotalPreorderOn (· ∈ l) cmp) :
    ∃ sorted, sorter.run cmp l = .ok sorted ∧ sorted.Perm l ∧ sorted.Pairwise fun a b => cmp b a ≠ .lt :=
  ⟨sortBy cmp l, sorter.run_eq cmp l h, sortBy_perm cmp l, sortBy_sorted h⟩

end Sorting

end JasonDb.Lib
