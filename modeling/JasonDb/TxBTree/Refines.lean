import JasonDb.TxBTree.Reopen

namespace JasonDb.TxBTree

open Lib SearchTree

variable {t : TxBTree} {db : Database}

-- The map a tree stands for, as its users see it.
abbrev KeyMap := String → Option PageNum

-- What `search` answers for a map.
def answer (M : KeyMap) (key : String) : Except Error PageNum :=
  match M key with
  | some value => .ok value
  | none => .error (notFound key)

namespace TreeOp

-- The operation on the map.
def apply (M : KeyMap) : TreeOp → KeyMap
  | .insert key value => Function.update M key (some value)
  | .update key value => if (M key).isSome then Function.update M key (some value) else M
  | .delete key => Function.update M key none

-- What the operation returns: a key that is to be replaced or removed has to be there.
def result (M : KeyMap) : TreeOp → Except Error Unit
  | .insert _ _ => .ok ()
  | .update key _ => if (M key).isSome then .ok () else .error (notFound key)
  | .delete key => if (M key).isSome then .ok () else .error (notFound key)

end TreeOp

-- The handle reads a well-formed tree with the entries of `M`.
def Denotes (t : TxBTree) (db : Database) (M : KeyMap) : Prop :=
  ∃ rank T, Represents t db rank T ∧ mapOf T.entries = M

theorem Denotes.search {M : KeyMap} (h : Denotes t db M) (key : String) :
    (Proc.exec (search key) t db).1 = answer M key := by
  obtain ⟨rank, T, hrep, rfl⟩ := h
  rw [exec_search hrep key]
  exact lookup_eq_mapOf key T.entries

theorem Denotes.unique {t : TxBTree} {M M' : KeyMap} (h : Denotes t db M) (h' : Denotes t db M') :
    M = M' := by
  funext key
  have hanswer := (h.search key).symm.trans (h'.search key)
  unfold answer at hanswer
  cases hM : M key with
  | none =>
    cases hM' : M' key with
    | none => rfl
    | some page => simp [hM, hM'] at hanswer
  | some page =>
    cases hM' : M' key with
    | none => simp [hM, hM'] at hanswer
    | some page' => simpa [hM, hM'] using hanswer

theorem Represents.entries_sorted {rank : Rank} {T : PageTree} (h : Represents t db rank T) :
    SortedEntries T.entries := h.ordered.entries_sorted LeafOk.sorted bot_lt_top

-- One call does to the tree what it does to the map.
theorem Denotes.step {M : KeyMap} (h : Denotes t db M) (op : TreeOp) :
    (Proc.exec op.run t db).1 = op.result M ∧
      Denotes (Proc.exec op.run t db).2.1 (Proc.exec op.run t db).2.2 (op.apply M) := by
  obtain ⟨rank, T, hrep, rfl⟩ := h
  cases op with
  | insert key value =>
    obtain ⟨_, t', db', _, he, T', rank', hrep', hes, _⟩ := exec_insert hrep key value
    rw [TreeOp.run, he]
    refine ⟨rfl, rank', T', hrep', ?_⟩
    rw [hes]
    exact mapOf_insertEntry hrep.entries_sorted
  | update key value =>
    obtain ⟨hfound, hmissing⟩ := exec_update hrep key value
    by_cases hk : (mapOf T.entries key).isSome
    · obtain ⟨t', db', he, T', rank', hrep', hes, _⟩ := hfound (mapOf_isSome.mp hk)
      rw [TreeOp.run, he]
      refine ⟨by simp [TreeOp.result, hk], rank', T', hrep', ?_⟩
      rw [hes, TreeOp.apply, if_pos hk]
      exact mapOf_setEntry hk
    · have hnone : mapOf T.entries key = none := by simpa using hk
      rw [TreeOp.run, hmissing (mapOf_eq_none.mp hnone)]
      refine ⟨by simp [TreeOp.result, hnone], rank, T, hrep, ?_⟩
      rw [TreeOp.apply, if_neg hk]
  | delete key =>
    obtain ⟨hfound, hmissing⟩ := exec_delete hrep key
    by_cases hk : (mapOf T.entries key).isSome
    · obtain ⟨t', db', he, T', rank', hrep', hes, _⟩ := hfound (mapOf_isSome.mp hk)
      rw [TreeOp.run, he]
      refine ⟨by simp [TreeOp.result, hk], rank', T', hrep', ?_⟩
      rw [hes]
      exact mapOf_filter T.entries
    · have hnone : mapOf T.entries key = none := by simpa using hk
      rw [TreeOp.run, hmissing (mapOf_eq_none.mp hnone)]
      refine ⟨by simp [TreeOp.result, hnone], rank, T, hrep, ?_⟩
      rw [TreeOp.apply, ← hnone, Function.update_eq_self]

theorem Denotes.runOps {M : KeyMap} (h : Denotes t db M) (ops : List TreeOp) :
    Denotes (runOps ops t db).1 (TxBTree.runOps ops t db).2 (ops.foldl TreeOp.apply M) := by
  induction ops generalizing t db M with
  | nil => exact h
  | cons op ops ih => exact ih (h.step op).2

-- After any calls on a handle opened at a tree for `M`, search answers from `M` with the same
-- calls done to it, and so does the next call, whichever it is. A call that fails has left the
-- map, and with it all later answers, as they were.
theorem runOps_refines {root : PageNum} {w : HashMap PageNum Page} {M : KeyMap}
    (h : Denotes (new root w) db M) (ops : List TreeOp) :
    let s := runOps ops (new root w) db
    (∀ key, (Proc.exec (search key) s.1 s.2).1 = answer (ops.foldl TreeOp.apply M) key) ∧
      ∀ op : TreeOp, (Proc.exec op.run s.1 s.2).1 = op.result (ops.foldl TreeOp.apply M) := by
  have hs := h.runOps ops
  exact ⟨hs.search, fun op => (hs.step op).1⟩

section TwoLeaves

def pairTree : PageTree := .node 2 ["m"] [.leaf 3 [⟨"a", 10⟩] 4, .leaf 4 [⟨"m", 20⟩, ⟨"z", 30⟩] 0]

theorem denotes_pairTree : Denotes (new 2 ∅) (dbOf pairTree 8) (mapOf pairTree.entries) :=
  ⟨rankOf pairTree, pairTree, represents_dbOf (T := pairTree) (by decide +kernel)
    (by decide +kernel) (by decide +kernel), rfl⟩

-- A key of its own, one that is replaced, and one that is not there.
theorem runOps_refines_pair :
    let s := runOps [.insert "k" 7, .update "z" 8, .update "y" 9, .delete "a"] (new 2 ∅)
      (dbOf pairTree 8)
    (Proc.exec (search "k") s.1 s.2).1 = .ok 7 ∧ (Proc.exec (search "z") s.1 s.2).1 = .ok 8 ∧
      (Proc.exec (search "a") s.1 s.2).1 = .error (notFound "a") ∧
      (Proc.exec (TreeOp.delete "y").run s.1 s.2).1 = .error (notFound "y") := by
  obtain ⟨hsearch, hresult⟩ := runOps_refines denotes_pairTree
    [.insert "k" 7, .update "z" 8, .update "y" 9, .delete "a"]
  refine ⟨(hsearch "k").trans ?_, (hsearch "z").trans ?_, (hsearch "a").trans ?_,
    (hresult (.delete "y")).trans ?_⟩
  · decide +kernel
  · decide +kernel
  · decide +kernel
  · decide +kernel

end TwoLeaves

end JasonDb.TxBTree
