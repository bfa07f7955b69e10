import JasonDb.Lib.HashMap
import Mathlib.Data.List.Induction

namespace JasonDb.Lib

variable {α κ : Type} [DecidableEq κ] (key : α → κ)

-- The members of a list by key, each group in the order of the list.
def addToGroup (groups : HashMap κ (List α)) (a : α) : HashMap κ (List α) :=
  groups.insert (key a) ((groups.get? (key a)).getD [] ++ [a])

def groupBy (l : List α) : HashMap κ (List α) := l.foldl (addToGroup key) ∅

variable {key} {l : List α}

theorem get?_groupBy (k : κ) :
    (groupBy key l).get? k = if k ∈ l.map key then some (l.filter (key · = k)) else none := by
  induction l using List.reverseRecOn with
  | nil => simp [groupBy]
  | append_singleton l a ih =>
    have hstep : groupBy key (l ++ [a]) = addToGroup key (groupBy key l) a := by simp [groupBy]
    rw [hstep, addToGroup, HashMap.get?_insert]
    by_cases hk : k = key a
    · subst hk
      by_cases hmem : key a ∈ l.map key
      · simp [ih, hmem]
      · have hnone : l.filter (key · = key a) = [] := by
          rw [List.filter_eq_nil_iff]
          intro b hb heq
          exact hmem (List.mem_map.mpr ⟨b, hb, by simpa using heq⟩)
        simp [ih, hmem, hnone]
    · have hne : key a ≠ k := Ne.symm hk
      simp [ih, hk, hne]

theorem mem_groupBy {k : κ} {group : List α} :
    (k, group) ∈ (groupBy key l).toList ↔ k ∈ l.map key ∧ group = l.filter (key · = k) := by
  rw [HashMap.mem_toList, get?_groupBy]
  by_cases h : k ∈ l.map key
  · simp [h, eq_comm]
  · simp [h]

theorem nodup_groupBy : ((groupBy key l).toList.map Prod.fst).Nodup := by
  rw [HashMap.map_fst_toList]
  exact HashMap.nodup_keys _

theorem same_group_iff {a b : α} (ha : a ∈ l) (hb : b ∈ l) :
    (∃ group ∈ (groupBy key l).toList, a ∈ group.2 ∧ b ∈ group.2) ↔ key a = key b := by
  constructor
  · rintro ⟨⟨k, group⟩, hgroup, ha', hb'⟩
    obtain ⟨-, rfl⟩ := mem_groupBy.mp hgroup
    have hka : key a = k := by simpa using (List.mem_filter.mp ha').2
    have hkb : key b = k := by simpa using (List.mem_filter.mp hb').2
    exact hka.trans hkb.symm
  · intro h
    refine ⟨(key a, l.filter (key · = key a)), mem_groupBy.mpr ⟨List.mem_map_of_mem ha, rfl⟩, ?_, ?_⟩
    · exact List.mem_filter.mpr ⟨ha, by simp⟩
    · exact List.mem_filter.mpr ⟨hb, by simp [h]⟩

theorem sum_length_filter {keys : List κ} (hnodup : keys.Nodup) (hcover : ∀ a ∈ l, key a ∈ keys) :
    (keys.map fun k => (l.filter (key · = k)).length).sum = l.length := by
  induction keys generalizing l with
  | nil =>
    cases l with
    | nil => rfl
    | cons a l => exact absurd (hcover a (by simp)) (by simp)
  | cons k keys ih =>
    obtain ⟨hk, hnodup⟩ := List.nodup_cons.mp hnodup
    have hlater := @ih (l.filter (key · ≠ k)) hnodup fun a ha => by
      obtain ⟨ha, hne⟩ := List.mem_filter.mp ha
      exact (List.mem_cons.mp (hcover a ha)).resolve_left (by simpa using hne)
    -- The members with the first key are in none of the later groups.
    have hgroups : ∀ k' ∈ keys, (l.filter (key · ≠ k)).filter (key · = k') = l.filter (key · = k') := by
      intro k' hk'
      rw [List.filter_filter]
      refine List.filter_congr fun a _ => ?_
      by_cases ha : key a = k'
      · have hne : k' ≠ k := fun heq => hk (heq ▸ hk')
        simp [ha, hne]
      · simp [ha]
    rw [List.map_congr_left fun k' hk' => congrArg List.length (hgroups k' hk')] at hlater
    have hsplit := List.length_eq_length_filter_add (l := l) (key · = k)
    simp only [decide_not] at hlater
    rw [List.map_cons, List.sum_cons, hlater, hsplit]

theorem sum_length_groupBy : ((groupBy key l).toList.map fun group => group.2.length).sum = l.length := by
  have hgroups : ((groupBy key l).toList.map fun group => group.2.length) =
      ((groupBy key l).toList.map Prod.fst).map fun k => (l.filter (key · = k)).length := by
    rw [List.map_map]
    refine List.map_congr_left fun group hgroup => ?_
    rw [(mem_groupBy.mp hgroup).2]
    rfl
  rw [hgroups]
  refine sum_length_filter nodup_groupBy fun a ha => ?_
  exact List.mem_map.mpr ⟨_, mem_groupBy.mpr ⟨List.mem_map_of_mem ha, rfl⟩, rfl⟩

end JasonDb.Lib
