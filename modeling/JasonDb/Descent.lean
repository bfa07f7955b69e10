import JasonDb.Lib.Walk
import JasonDb.Database.State

namespace JasonDb

open Lib

-- One step from the page `p` down a tree, or the end of the way. `find` chooses the child.
def stepDown (find : BTreeNode → String → Except Error PageNum)
    (read : PageNum → Except Error BTreeNode) (key : String) (p : PageNum) :
    Except Error BTreeNode ⊕ PageNum :=
  match read p with
  | .error e => .inl (.error e)
  | .ok n => match n.nodeType with
    | .leafNode => .inl (.ok n)
    | .internalNode => match find n key with
      | .error e => .inl (.error e)
      | .ok c => .inr c

-- A set of pages that reading does not leave.
def ReadClosed (read : PageNum → Except Error BTreeNode) (S : PageNum → Prop) : Prop :=
  ∀ p, S p → ∀ n, read p = .ok n → n.nodeType = .internalNode → ∀ c ∈ n.children, S c

section Walk

variable {find : BTreeNode → String → Except Error PageNum}
  {read read' : PageNum → Except Error BTreeNode} {S : PageNum → Prop} {key : String}
  (hfind : ∀ n c, find n key = .ok c → c ∈ n.children)

include hfind

theorem stepDown_closed (h : ReadClosed read S) {p c : PageNum} (hp : S p)
    (hn : stepDown find read key p = .inr c) : S c := by
  unfold stepDown at hn
  cases hread : read p with
  | error e => simp [hread] at hn
  | ok n =>
    simp only [hread] at hn
    cases htype : n.nodeType with
    | leafNode => simp [htype] at hn
    | internalNode =>
      simp only [htype] at hn
      cases hc : find n key with
      | error e => simp [hc] at hn
      | ok c' =>
        rw [hc] at hn
        obtain rfl := Sum.inr.inj hn
        exact h p hp n hread htype c' (hfind n c' hc)

-- On pages below `N` the way down ends within `N` steps or never.
theorem walk_bounded (h : ReadClosed read S) {N : Nat} (hN : ∀ p, S p → p < N) {p : PageNum}
    (hp : S p) {fuel fuel' : Nat} (hf : N ≤ fuel) (hf' : N ≤ fuel') :
    walk (stepDown find read key) fuel p = walk (stepDown find read key) fuel' p := by
  classical
  have hcard : ((Finset.range N).filter S).card ≤ N :=
    (Finset.card_filter_le _ _).trans (by simp)
  have hmem : ∀ q, q ∈ (Finset.range N).filter S ↔ S q := by
    intro q
    simp only [Finset.mem_filter, Finset.mem_range]
    exact ⟨And.right, fun hq => ⟨hN q hq, hq⟩⟩
  refine walk_fuel ?_ ((hmem p).mpr hp) (hcard.trans hf) (hcard.trans hf')
  intro a ha a' hn
  exact (hmem a').mpr (stepDown_closed hfind h ((hmem a).mp ha) hn)

-- Readers that see the same nodes go the same way, also when their bounds differ.
theorem walk_agree (h : ReadClosed read S) (hsame : ∀ p, S p → read' p = read p) {N N' : Nat}
    (hN : ∀ p, S p → p < N) (hN' : ∀ p, S p → p < N') {p : PageNum} (hp : S p) :
    walk (stepDown find read' key) (N' + 1) p = walk (stepDown find read key) (N + 1) p := by
  have hmin : ∀ q, S q → q < min N N' := fun q hq => lt_min (hN q hq) (hN' q hq)
  have hnext : ∀ q, S q → stepDown find read' key q = stepDown find read key q := by
    intro q hq
    simp only [stepDown, hsame q hq]
  rw [walk_congr (fun _ ha _ hn => stepDown_closed hfind h ha hn) hnext hp]
  exact walk_bounded hfind h hmin hp (by omega) (by omega)

end Walk

-- Code that goes down a tree as `find_leaf` does, with the fuel left, the node it is at and the
-- path to it.
structure Descends {ℓ : Type} (find : BTreeNode → String → Except Error PageNum)
    (read : PageNum → Except Error BTreeNode) (key : String) (l : ℓ) (db : Database)
    (readNode : PageNum → DbM ℓ BTreeNode)
    (findLeaf : Nat → BTreeNode → List PageNum → DbM ℓ (BTreeNode × List PageNum)) : Prop where
  zero : ∀ n path, findLeaf 0 n path = Proc.fail .diverged
  succ : ∀ fuel n path, findLeaf (fuel + 1) n path = match n.nodeType with
    | .leafNode => pure (n, path)
    | .internalNode => do
      let childPage ← Proc.ofExcept (find n key)
      let child ← readNode childPage
      findLeaf fuel child (childPage :: path)
  read : ∀ p, Proc.exec (readNode p) l db = (read p, l, db)

namespace Descends

variable {ℓ : Type} {l : ℓ} {db : Database} {find : BTreeNode → String → Except Error PageNum}
  {read : PageNum → Except Error BTreeNode} {key : String} {readNode : PageNum → DbM ℓ BTreeNode}
  {findLeaf : Nat → BTreeNode → List PageNum → DbM ℓ (BTreeNode × List PageNum)}
  {p : PageNum} {n : BTreeNode} {fuel : Nat}

theorem exec_some (hd : Descends find read key l db readNode findLeaf) (path : List PageNum)
    (hn : read p = .ok n) {r : Except Error BTreeNode}
    (h : walk (stepDown find read key) fuel p = some r) :
    ∃ res, Proc.exec (findLeaf fuel n path) l db = (res, l, db) ∧ res.map Prod.fst = r := by
  induction fuel generalizing p n path with
  | zero => simp [walk] at h
  | succ fuel ih =>
    rw [hd.succ]
    unfold walk stepDown at h
    rw [hn] at h
    cases htype : n.nodeType with
    | leafNode =>
      simp only [htype, Option.some.injEq] at h
      exact ⟨_, Proc.exec_pure _ l db, h⟩
    | internalNode =>
      simp only [htype] at h
      cases hc : find n key with
      | error e =>
        simp only [hc, Option.some.injEq] at h
        exact ⟨_, Proc.exec_bind_error (Proc.exec_fail e l db), h⟩
      | ok c =>
        simp only [hc] at h
        simp only [show (Proc.ofExcept (.ok c) : DbM ℓ PageNum) = pure c from rfl,
          Proc.exec_bind_ok (Proc.exec_pure c l db)]
        have hread := hd.read c
        cases hm : read c with
        | error e =>
          have hr : r = .error e := by
            cases fuel with
            | zero => simp [walk] at h
            | succ fuel => simpa [walk, stepDown, hm] using h.symm
          rw [hm] at hread
          exact ⟨_, Proc.exec_bind_error hread, hr.symm⟩
        | ok m =>
          rw [hm] at hread
          rw [Proc.exec_bind_ok hread]
          exact ih _ hm h

theorem exec_none (hd : Descends find read key l db readNode findLeaf) (path : List PageNum)
    (hn : read p = .ok n) (h : walk (stepDown find read key) (fuel + 1) p = none) :
    Proc.exec (findLeaf fuel n path) l db = (.error .diverged, l, db) := by
  induction fuel generalizing p n path with
  | zero =>
    rw [hd.zero]
    rfl
  | succ fuel ih =>
    rw [hd.succ]
    rw [walk, stepDown, hn] at h
    cases htype : n.nodeType with
    | leafNode => simp [htype] at h
    | internalNode =>
      simp only [htype] at h
      cases hc : find n key with
      | error e => simp [hc] at h
      | ok c =>
        simp only [hc] at h
        simp only [show (Proc.ofExcept (.ok c) : DbM ℓ PageNum) = pure c from rfl,
          Proc.exec_bind_ok (Proc.exec_pure c l db)]
        have hread := hd.read c
        cases hm : read c with
        | error e => simp [walk, stepDown, hm] at h
        | ok m =>
          rw [hm] at hread
          rw [Proc.exec_bind_ok hread]
          exact ih _ hm h

-- From the root: the root is read, then the way down is taken with a bound on its length that
-- the pages justify.
theorem exec_root (hd : Descends find read key l db readNode findLeaf)
    (hfind : ∀ n c, find n key = .ok c → c ∈ n.children) {S : PageNum → Prop}
    (h : ReadClosed read S) (hp : S p) {N : Nat} (hN : ∀ q, S q → q < N) :
    ∃ res, Proc.exec (do
        let root ← readNode p
        findLeaf (N + 1) root [p]) l db = (res, l, db) ∧
      res.map Prod.fst = (walk (stepDown find read key) (N + 1) p).getD (.error .diverged) := by
  have hread := hd.read p
  cases hn : read p with
  | error e =>
    rw [hn] at hread
    refine ⟨_, Proc.exec_bind_error hread, ?_⟩
    simp [walk, stepDown, hn, Except.map]
  | ok n =>
    rw [hn] at hread
    rw [Proc.exec_bind_ok hread]
    cases hw : walk (stepDown find read key) (N + 1) p with
    | some r => exact hd.exec_some [p] hn hw
    | none =>
      have hmore : walk (stepDown find read key) (N + 1 + 1) p = none := by
        rw [← hw]
        exact walk_bounded hfind h hN hp (by omega) (by omega)
      exact ⟨_, hd.exec_none [p] hn hmore, rfl⟩

end Descends

end JasonDb
