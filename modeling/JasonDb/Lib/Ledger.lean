import Mathlib.Data.List.Nodup
import Mathlib.Data.List.Perm.Basic
import Mathlib.Logic.Function.Basic

namespace JasonDb.Lib

variable {Party Id Result : Type}

-- Requests of parties that a server works off. `own` is the request a party is waiting for and
-- `cell` the place its result is put in. Of the requests, `waiting` have not been executed,
-- `executed` have, of these `completed` have got their result and `owed` have not.
structure Ledger (known : Id → Prop) (own : Party → Option Id) (cell : Id → Option Result)
    (waiting owed executed completed : List Id) : Prop where
  known : ∀ id ∈ waiting ++ executed, known id
  nodup : (waiting ++ executed).Nodup
  split : executed.Perm (completed ++ owed)
  cells : ∀ id, (cell id).isSome → id ∈ completed
  unique : ∀ i j id, own i = some id → own j = some id → i = j
  kept : ∀ i id, own i = some id → id ∈ waiting ∨ id ∈ owed ∨ (cell id).isSome
  owned : ∀ id ∈ waiting ++ owed, ∃ i, own i = some id

namespace Ledger

variable {known known' : Id → Prop} {own : Party → Option Id} {cell : Id → Option Result}
  {waiting waiting' owed executed completed batch : List Id} {id : Id} {i : Party}

theorem executed_nodup (h : Ledger known own cell waiting owed executed completed) :
    executed.Nodup := (List.nodup_append.mp h.nodup).2.1

theorem completed_nodup (h : Ledger known own cell waiting owed executed completed) :
    completed.Nodup :=
  (List.nodup_append.mp (h.split.nodup_iff.mp h.executed_nodup)).1

theorem executed_of_completed (h : Ledger known own cell waiting owed executed completed)
    (hid : id ∈ completed) : id ∈ executed :=
  h.split.mem_iff.mpr (List.mem_append_left _ hid)

theorem executed_of_owed (h : Ledger known own cell waiting owed executed completed)
    (hid : id ∈ owed) : id ∈ executed :=
  h.split.mem_iff.mpr (List.mem_append_right _ hid)

-- A request that someone waits for is not a new one.
theorem known_own (h : Ledger known own cell waiting owed executed completed)
    (hown : own i = some id) : known id := by
  apply h.known
  rcases h.kept i id hown with hid | hid | hid
  · exact List.mem_append_left _ hid
  · exact List.mem_append_right _ (h.executed_of_owed hid)
  · exact List.mem_append_right _ (h.executed_of_completed (h.cells id hid))

-- Requests may be kept in any order.
theorem perm (h : Ledger known own cell waiting owed executed completed)
    (hp : waiting.Perm waiting') : Ledger known own cell waiting' owed executed completed where
  known id hid := h.known id ((hp.append_right _).mem_iff.mpr hid)
  nodup := (hp.append_right _).nodup_iff.mp h.nodup
  split := h.split
  cells := h.cells
  unique := h.unique
  kept i id hown := by
    rcases h.kept i id hown with hid | hid
    · exact Or.inl (hp.mem_iff.mp hid)
    · exact Or.inr hid
  owned id hid := h.owned id ((hp.append_right _).mem_iff.mpr hid)

-- A new request.
theorem submit [DecidableEq Party]
    (h : Ledger known own cell waiting owed executed completed) (hi : own i = none) (hnew : ¬ known id)
    (hmono : ∀ j, known j → known' j) (hid : known' id) :
    Ledger known' (Function.update own i (some id)) cell (waiting ++ [id]) owed executed completed := by
  have hold : ∀ j, j ≠ i → Function.update own i (some id) j = own j := fun j hj =>
    Function.update_of_ne hj _ _
  refine ⟨?_, ?_, h.split, h.cells, ?_, ?_, ?_⟩
  · intro j hj
    simp only [List.append_assoc, List.mem_append, List.mem_singleton] at hj
    rcases hj with hj | rfl | hj
    · exact hmono j (h.known j (List.mem_append_left _ hj))
    · exact hid
    · exact hmono j (h.known j (List.mem_append_right _ hj))
  · rw [List.append_assoc, List.singleton_append, List.nodup_middle]
    exact List.nodup_cons.mpr ⟨fun hmem => hnew (h.known id hmem), h.nodup⟩
  · intro a b j ha hb
    by_cases hai : a = i
    · by_cases hbi : b = i
      · rw [hai, hbi]
      · rw [hai, Function.update_self] at ha
        rw [hold b hbi] at hb
        exact absurd (h.known_own (Option.some.inj ha ▸ hb)) hnew
    · by_cases hbi : b = i
      · rw [hbi, Function.update_self] at hb
        rw [hold a hai] at ha
        exact absurd (h.known_own (Option.some.inj hb ▸ ha)) hnew
      · rw [hold a hai] at ha
        rw [hold b hbi] at hb
        exact h.unique a b j ha hb
  · intro a j ha
    by_cases hai : a = i
    · rw [hai, Function.update_self] at ha
      obtain rfl := Option.some.inj ha
      exact Or.inl (by simp)
    · rw [hold a hai] at ha
      exact (h.kept a j ha).imp (List.mem_append_left _) fun hj => hj
  · intro j hj
    simp only [List.append_assoc, List.mem_append, List.mem_singleton] at hj
    have hothers : j ∈ waiting ++ owed → ∃ a, Function.update own i (some id) a = some j := by
      intro hmem
      obtain ⟨a, ha⟩ := h.owned j hmem
      have hai : a ≠ i := fun e => by rw [e, hi] at ha; cases ha
      exact ⟨a, by rw [hold a hai, ha]⟩
    rcases hj with hj | rfl | hj
    · exact hothers (List.mem_append_left _ hj)
    · exact ⟨i, Function.update_self ..⟩
    · exact hothers (List.mem_append_right _ hj)

-- A batch is executed, when no earlier one has results left to hand out.
theorem execute (h : Ledger known own cell (waiting ++ batch) [] executed completed) :
    Ledger known own cell waiting batch (executed ++ batch) completed := by
  have hperm : (waiting ++ batch ++ executed).Perm (waiting ++ (executed ++ batch)) := by
    rw [List.append_assoc]
    exact List.Perm.append_left _ List.perm_append_comm
  refine ⟨?_, hperm.nodup_iff.mp h.nodup, ?_, h.cells, h.unique, ?_, ?_⟩
  · exact fun j hj => h.known j (hperm.mem_iff.mpr hj)
  · have hsplit := h.split
    rw [List.append_nil] at hsplit
    exact hsplit.append_right _
  · intro a j ha
    rcases h.kept a j ha with hj | hj | hj
    · rcases List.mem_append.mp hj with hj | hj
      · exact Or.inl hj
      · exact Or.inr (Or.inl hj)
    · simp at hj
    · exact Or.inr (Or.inr hj)
  · exact fun j hj => h.owned j (List.mem_append_left _ hj)

-- A result is handed out.
theorem complete [DecidableEq Id]
    (h : Ledger known own cell waiting (id :: owed) executed completed) (r : Result) :
    Ledger known own (Function.update cell id (some r)) waiting owed executed (completed ++ [id]) := by
  refine ⟨h.known, h.nodup, ?_, ?_, h.unique, ?_, ?_⟩
  · simpa using h.split
  · intro j hj
    by_cases hji : j = id
    · simp [hji]
    · rw [Function.update_of_ne hji] at hj
      exact List.mem_append_left _ (h.cells j hj)
  · intro a j ha
    by_cases hji : j = id
    · exact Or.inr (Or.inr (by rw [hji, Function.update_self]; rfl))
    · rw [Function.update_of_ne hji]
      rcases h.kept a j ha with hj | hj | hj
      · exact Or.inl hj
      · exact Or.inr (Or.inl ((List.mem_cons.mp hj).resolve_left hji))
      · exact Or.inr (Or.inr hj)
  · intro j hj
    refine h.owned j ?_
    rcases List.mem_append.mp hj with hj | hj
    · exact List.mem_append_left _ hj
    · exact List.mem_append_right _ (List.mem_cons_of_mem _ hj)

-- A party takes its result.
theorem take [DecidableEq Party] [DecidableEq Id]
    (h : Ledger known own cell waiting owed executed completed) (hi : own i = some id)
    (hcell : (cell id).isSome) :
    Ledger known (Function.update own i none) (Function.update cell id none) waiting owed executed
      completed := by
  have hown : ∀ a j, Function.update own i none a = some j → a ≠ i ∧ own a = some j := by
    intro a j ha
    by_cases hai : a = i
    · rw [hai, Function.update_self] at ha
      cases ha
    · rw [Function.update_of_ne hai] at ha
      exact ⟨hai, ha⟩
  refine ⟨h.known, h.nodup, h.split, ?_, ?_, ?_, ?_⟩
  · intro j hj
    by_cases hji : j = id
    · rw [hji, Function.update_self] at hj
      simp at hj
    · rw [Function.update_of_ne hji] at hj
      exact h.cells j hj
  · exact fun a b j ha hb => h.unique a b j (hown a j ha).2 (hown b j hb).2
  · intro a j ha
    obtain ⟨hai, ha⟩ := hown a j ha
    have hji : j ≠ id := fun e => hai (h.unique a i id (e ▸ ha) hi)
    rw [Function.update_of_ne hji]
    exact h.kept a j ha
  · intro j hj
    obtain ⟨a, ha⟩ := h.owned j hj
    refine ⟨a, ?_⟩
    rw [Function.update_of_ne, ha]
    rintro rfl
    -- a request with its result is neither waiting nor owed
    obtain rfl : id = j := Option.some.inj (hi.symm.trans ha)
    have hdone := h.cells id hcell
    rcases List.mem_append.mp hj with hj | hj
    · exact (List.nodup_append.mp h.nodup).2.2 id hj id (h.executed_of_completed hdone) rfl
    · exact (List.nodup_append.mp (h.split.nodup_iff.mp h.executed_nodup)).2.2 id hdone id hj rfl

end Ledger

end JasonDb.Lib
