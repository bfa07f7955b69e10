import Mathlib.Algebra.GroupWithZero.Nat
import Mathlib.Data.List.AList

namespace JasonDb.Lib

-- A finite map with distinct keys. Its entries are listed in some order; what is
-- said about maps below does not depend on which.
def HashMap (κ α : Type) : Type := AList fun _ : κ => α

abbrev HashSet (κ : Type) := HashMap κ Unit

namespace HashMap

variable {κ α : Type}

def keys (m : HashMap κ α) : List κ := AList.keys m

def toList (m : HashMap κ α) : List (κ × α) := m.entries.map fun e => (e.1, e.2)

instance : EmptyCollection (HashMap κ α) := ⟨(∅ : AList fun _ : κ => α)⟩

instance : Membership κ (HashMap κ α) := ⟨fun m k => k ∈ m.keys⟩

instance [DecidableEq κ] (k : κ) (m : HashMap κ α) : Decidable (k ∈ m) :=
  inferInstanceAs (Decidable (k ∈ m.keys))

def isEmpty (m : HashMap κ α) : Bool := m.keys.isEmpty

theorem nodup_keys (m : HashMap κ α) : m.keys.Nodup := AList.keys_nodup m

@[simp] theorem not_mem_empty (k : κ) : k ∉ (∅ : HashMap κ α) := by
  intro h
  cases h

theorem isEmpty_of_mem {m : HashMap κ α} {k : κ} (h : k ∈ m) : m.isEmpty = false := by
  unfold isEmpty
  rw [List.isEmpty_eq_false_iff_exists_mem]
  exact ⟨k, h⟩

theorem eq_empty_of_isEmpty {m : HashMap κ α} (h : m.isEmpty) : m = ∅ :=
  AList.ext (List.map_eq_nil_iff.mp (List.isEmpty_iff.mp h))

theorem mem_keys {m : HashMap κ α} {k : κ} : k ∈ m.keys ↔ k ∈ m := Iff.rfl

theorem map_fst_toList (m : HashMap κ α) : m.toList.map Prod.fst = m.keys := by
  simp only [toList, List.map_map]
  rfl

variable [DecidableEq κ]

def get? (m : HashMap κ α) (k : κ) : Option α := AList.lookup k m

def insert (m : HashMap κ α) (k : κ) (a : α) : HashMap κ α := AList.insert k a m

def erase (m : HashMap κ α) (k : κ) : HashMap κ α := AList.erase k m

@[simp] theorem get?_empty (k : κ) : (∅ : HashMap κ α).get? k = none := rfl

@[simp] theorem get?_insert_self (m : HashMap κ α) (k : κ) (a : α) :
    (m.insert k a).get? k = some a := AList.lookup_insert m

theorem get?_insert_of_ne (m : HashMap κ α) {k k' : κ} (a : α) (h : k' ≠ k) :
    (m.insert k a).get? k' = m.get? k' := AList.lookup_insert_ne h

theorem get?_insert (m : HashMap κ α) (k k' : κ) (a : α) :
    (m.insert k a).get? k' = if k' = k then some a else m.get? k' := by
  by_cases h : k' = k
  · simp [h]
  · simp [h, get?_insert_of_ne m a h]

theorem get?_erase (m : HashMap κ α) (k k' : κ) :
    (m.erase k).get? k' = if k' = k then none else m.get? k' := by
  by_cases h : k' = k
  · subst h
    rw [if_pos rfl]
    exact AList.lookup_erase k' m
  · rw [if_neg h]
    exact AList.lookup_erase_ne h

@[simp] theorem mem_insert {m : HashMap κ α} {k k' : κ} {a : α} :
    k' ∈ m.insert k a ↔ k' = k ∨ k' ∈ m := AList.mem_insert m

theorem get?_eq_none {m : HashMap κ α} {k : κ} : m.get? k = none ↔ k ∉ m := AList.lookup_eq_none

theorem get?_isSome {m : HashMap κ α} {k : κ} : (m.get? k).isSome ↔ k ∈ m := AList.lookup_isSome

theorem mem_erase {m : HashMap κ α} {k k' : κ} : k' ∈ m.erase k ↔ k' ≠ k ∧ k' ∈ m := AList.mem_erase

theorem mem_of_get? {m : HashMap κ α} {k : κ} {a : α} (h : m.get? k = some a) : k ∈ m :=
  get?_isSome.mp (by simp [h])

theorem mem_toList {m : HashMap κ α} {k : κ} {a : α} : (k, a) ∈ m.toList ↔ m.get? k = some a := by
  have hlook : m.get? k = some a ↔ (⟨k, a⟩ : Sigma fun _ : κ => α) ∈ m.entries :=
    AList.mem_lookup_iff
  rw [hlook, toList, List.mem_map]
  constructor
  · rintro ⟨⟨k', a'⟩, he, heq⟩
    simp only [Prod.mk.injEq] at heq
    obtain ⟨rfl, rfl⟩ := heq
    exact he
  · intro he
    exact ⟨_, he, rfl⟩

theorem map_find?_toList (m : HashMap κ α) (k : κ) :
    (m.toList.find? fun entry => entry.1 = k).map Prod.snd = m.get? k := by
  cases hfind : m.toList.find? fun entry => entry.1 = k with
  | none =>
    cases hget : m.get? k with
    | none => rfl
    | some a => simpa using List.find?_eq_none.mp hfind (k, a) (mem_toList.mpr hget)
  | some entry =>
    have hkey : entry.1 = k := by simpa using List.find?_some hfind
    have hmem : (k, entry.2) ∈ m.toList := hkey ▸ List.mem_of_find?_eq_some hfind
    exact (mem_toList.mp hmem).symm

end HashMap

end JasonDb.Lib
