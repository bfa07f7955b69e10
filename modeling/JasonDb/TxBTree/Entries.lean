import JasonDb.TxBTree.Descent

namespace JasonDb.TxBTree

open Lib SearchTree

abbrev SortedEntries (es : List LeafEntry) : Prop := es.Pairwise (fun a b => a.key < b.key)

section Insert

variable {key : String} {value : PageNum}

theorem mem_insertEntry {es : List LeafEntry} {e : LeafEntry}
    (h : e ∈ insertEntry key value es) : e = ⟨key, value⟩ ∨ e ∈ es := by
  induction es with
  | nil => simpa [insertEntry] using h
  | cons d ds ih =>
    unfold insertEntry at h
    split at h
    · rcases List.mem_cons.mp h with h | h
      · exact Or.inl h
      · exact Or.inr (List.mem_cons_of_mem _ h)
    · split at h
      · rcases List.mem_cons.mp h with h | h
        · exact Or.inl h
        · exact Or.inr h
      · rcases List.mem_cons.mp h with h | h
        · exact Or.inr (by simp [h])
        · rcases ih h with h | h
          · exact Or.inl h
          · exact Or.inr (List.mem_cons_of_mem _ h)

theorem length_insertEntry_le (key : String) (value : PageNum) (es : List LeafEntry) :
    (insertEntry key value es).length ≤ es.length + 1 := by
  induction es with
  | nil => simp [insertEntry]
  | cons d ds ih =>
    unfold insertEntry
    split
    · simp
    · split
      · simp
      · simpa using ih

theorem sorted_insertEntry {es : List LeafEntry} (h : SortedEntries es) :
    SortedEntries (insertEntry key value es) := by
  induction es with
  | nil => simp [insertEntry, SortedEntries]
  | cons d ds ih =>
    obtain ⟨hd, hds⟩ := List.pairwise_cons.mp h
    unfold insertEntry
    split
    case isTrue heq => exact List.pairwise_cons.mpr ⟨fun e he => heq ▸ hd e he, hds⟩
    case isFalse hne =>
      split
      case isTrue hlt =>
        refine List.pairwise_cons.mpr ⟨?_, h⟩
        intro e he
        rcases List.mem_cons.mp he with rfl | he
        · exact hlt
        · exact hlt.trans (hd e he)
      case isFalse hge =>
        refine List.pairwise_cons.mpr ⟨?_, ih hds⟩
        intro e he
        rcases mem_insertEntry he with rfl | he
        · exact lt_of_le_of_ne (not_lt.mp hge) hne
        · exact hd e he

theorem insertEntry_middle {before es after : List LeafEntry} (hb : ∀ e ∈ before, e.key < key)
    (ha : ∀ e ∈ after, key < e.key) :
    insertEntry key value (before ++ es ++ after) =
      before ++ insertEntry key value es ++ after := by
  induction before with
  | cons b bs ih =>
    have hlt := hb b (by simp)
    simp only [List.cons_append, insertEntry, hlt.ne, ↓reduceIte, hlt.not_gt]
    rw [ih fun e he => hb e (by simp [he])]
  | nil =>
    rw [List.nil_append, List.nil_append]
    induction es with
    | nil =>
      cases after with
      | nil => rfl
      | cons a as =>
        have hlt := ha a (by simp)
        simp [insertEntry, hlt.ne', hlt]
    | cons d ds ih =>
      simp only [List.cons_append, insertEntry]
      split
      · rfl
      · split
        · rfl
        · rw [ih, List.cons_append]

-- A key of the range of a leaf is put in.
theorem leafSorted_insertEntry (value : PageNum) {lo hi : Bound String} {p nx : PageNum}
    {es : List LeafEntry}
    (h : LeafSorted LeafEntry.key lo hi p es nx) (hlo : lo ≤ .key key) (hhi : .key key < hi) :
    LeafSorted LeafEntry.key lo hi p (insertEntry key value es) nx := by
  refine ⟨sorted_insertEntry h.1, fun e he => ?_⟩
  rcases mem_insertEntry he with rfl | he
  · exact ⟨hlo, hhi⟩
  · exact h.2 e he

-- The new last key is no smaller than any key the leaf had.
theorem le_getLast_insertEntry {es : List LeafEntry} (h : SortedEntries es) {e last : LeafEntry}
    (he : e ∈ es) (hlast : (insertEntry key value es).getLast? = some last) :
    e.key ≤ last.key := by
  have hsorted : SortedEntries (insertEntry key value es) := sorted_insertEntry h
  have hkey : ∃ e' ∈ insertEntry key value es, e'.key = e.key := by
    clear hlast hsorted
    induction es with
    | nil => simp at he
    | cons d ds ih =>
      unfold insertEntry
      split
      case isTrue heq =>
        rcases List.mem_cons.mp he with rfl | he
        · exact ⟨_, List.mem_cons_self .., heq.symm⟩
        · exact ⟨e, List.mem_cons_of_mem _ he, rfl⟩
      case isFalse =>
        split
        case isTrue => exact ⟨e, List.mem_cons_of_mem _ he, rfl⟩
        case isFalse =>
          rcases List.mem_cons.mp he with rfl | he
          · exact ⟨_, List.mem_cons_self .., rfl⟩
          · obtain ⟨e', he', heq⟩ := ih (List.pairwise_cons.mp h).2 he
            exact ⟨e', List.mem_cons_of_mem _ he', heq⟩
  obtain ⟨e', he', hee'⟩ := hkey
  obtain ⟨front, hfront⟩ := List.getLast?_eq_some_iff.mp hlast
  rw [hfront] at he' hsorted
  rcases List.mem_append.mp he' with he' | he'
  · exact hee' ▸ ((List.pairwise_append.mp hsorted).2.2 e' he' last (by simp)).le
  · obtain rfl : e' = last := by simpa using he'
    exact hee'.ge

end Insert

section Set

variable {key : String} {value : PageNum}

theorem map_key_setEntry (es : List LeafEntry) :
    (setEntry key value es).map LeafEntry.key = es.map LeafEntry.key := by
  induction es with
  | nil => rfl
  | cons d ds ih =>
    unfold setEntry
    split
    · rfl
    · simp [ih]

theorem length_setEntry (key : String) (value : PageNum) (es : List LeafEntry) :
    (setEntry key value es).length = es.length := by
  rw [← List.length_map LeafEntry.key, map_key_setEntry, List.length_map]

theorem mem_setEntry {es : List LeafEntry} {e : LeafEntry} (h : e ∈ setEntry key value es) :
    ∃ e' ∈ es, e.key = e'.key := by
  have hkey : e.key ∈ es.map LeafEntry.key := by
    rw [← map_key_setEntry]
    exact List.mem_map_of_mem h
  obtain ⟨e', he', heq⟩ := List.mem_map.mp hkey
  exact ⟨e', he', heq.symm⟩

theorem setEntry_middle {before es after : List LeafEntry} (hb : ∀ e ∈ before, e.key ≠ key)
    (ha : ∀ e ∈ after, e.key ≠ key) :
    setEntry key value (before ++ es ++ after) = before ++ setEntry key value es ++ after := by
  induction before with
  | cons b bs ih =>
    simp only [List.cons_append, setEntry, hb b (by simp), ↓reduceIte]
    rw [ih fun e he => hb e (by simp [he])]
  | nil =>
    rw [List.nil_append, List.nil_append]
    induction es with
    | nil =>
      rw [List.nil_append, setEntry, List.nil_append]
      induction after with
      | nil => rfl
      | cons a as ih =>
        simp only [setEntry, ha a (by simp), ↓reduceIte]
        rw [ih fun e he => ha e (by simp [he])]
    | cons d ds ih =>
      simp only [List.cons_append, setEntry]
      split
      · rfl
      · rw [ih, List.cons_append]

end Set

section Map

variable {key : String} {value : PageNum}

-- The map that the entries of a tree stand for.
def mapOf (es : List LeafEntry) (key : String) : Option PageNum :=
  (es.find? (·.key = key)).map LeafEntry.value

theorem mapOf_cons (e : LeafEntry) (es : List LeafEntry) (key : String) :
    mapOf (e :: es) key = if e.key = key then some e.value else mapOf es key := by
  unfold mapOf
  by_cases h : e.key = key
  · simp [h]
  · simp [h]

theorem mapOf_isSome {es : List LeafEntry} : (mapOf es key).isSome ↔ ∃ e ∈ es, e.key = key := by
  simp [mapOf]

theorem mapOf_eq_none {es : List LeafEntry} : mapOf es key = none ↔ ∀ e ∈ es, e.key ≠ key := by
  simp [mapOf]

theorem mapOf_eq_some {es : List LeafEntry} (h : SortedEntries es) {value : PageNum} :
    mapOf es key = some value ↔ ⟨key, value⟩ ∈ es := by
  induction es with
  | nil => simp [mapOf]
  | cons d ds ih =>
    obtain ⟨hd, hds⟩ := List.pairwise_cons.mp h
    rw [mapOf_cons, List.mem_cons]
    by_cases hk : d.key = key
    · subst hk
      have hnot : ⟨d.key, value⟩ ∉ ds := fun hmem => lt_irrefl d.key (hd ⟨d.key, value⟩ hmem)
      rw [if_pos rfl, Option.some.injEq]
      constructor
      · rintro rfl
        exact Or.inl rfl
      · rintro (he | he)
        · rw [← he]
        · exact absurd he hnot
    · rw [if_neg hk, ih hds]
      constructor
      · exact Or.inr
      · rintro (he | he)
        · exact absurd (by rw [← he]) hk
        · exact he

theorem lookup_eq_mapOf (key : String) (es : List LeafEntry) :
    lookup key es = match mapOf es key with
      | some value => .ok value
      | none => .error (notFound key) := by
  unfold lookup mapOf
  cases es.find? (·.key = key) <;> rfl

theorem mapOf_insertEntry {es : List LeafEntry} (h : SortedEntries es) :
    mapOf (insertEntry key value es) = Function.update (mapOf es) key (some value) := by
  funext k
  induction es with
  | nil =>
    rw [insertEntry, mapOf_cons]
    by_cases hk : key = k
    · simp [hk]
    · rw [if_neg hk, Function.update_of_ne (Ne.symm hk)]
  | cons d ds ih =>
    obtain ⟨hd, hds⟩ := List.pairwise_cons.mp h
    unfold insertEntry
    by_cases hk : k = key
    · subst hk
      rw [Function.update_self]
      split
      · simp [mapOf_cons]
      case isFalse hne =>
        split
        · simp [mapOf_cons]
        · rw [mapOf_cons, if_neg hne, ih hds, Function.update_self]
    · rw [Function.update_of_ne hk]
      split
      case isTrue heq =>
        rw [mapOf_cons, mapOf_cons, heq, if_neg (Ne.symm hk), if_neg (Ne.symm hk)]
      case isFalse =>
        split
        · rw [mapOf_cons, if_neg (Ne.symm hk)]
        · rw [mapOf_cons, mapOf_cons, ih hds, Function.update_of_ne hk]

theorem mapOf_setEntry {es : List LeafEntry} (h : (mapOf es key).isSome) :
    mapOf (setEntry key value es) = Function.update (mapOf es) key (some value) := by
  funext k
  induction es with
  | nil => simp [mapOf] at h
  | cons d ds ih =>
    unfold setEntry
    by_cases hd : d.key = key
    · rw [if_pos hd, mapOf_cons]
      by_cases hk : key = k
      · simp [hd, hk]
      · rw [Function.update_of_ne (Ne.symm hk), mapOf_cons, hd, if_neg hk, if_neg hk]
    · rw [mapOf_cons, if_neg hd] at h
      rw [if_neg hd, mapOf_cons, ih h]
      by_cases hk : k = key
      · subst hk
        rw [Function.update_self, if_neg hd, Function.update_self]
      · rw [Function.update_of_ne hk, Function.update_of_ne hk, mapOf_cons]

theorem mapOf_filter (es : List LeafEntry) :
    mapOf (es.filter (·.key ≠ key)) = Function.update (mapOf es) key none := by
  funext k
  induction es with
  | nil =>
    by_cases hk : k = key
    · simp [mapOf, hk]
    · simp [mapOf, Function.update_of_ne hk]
  | cons d ds ih =>
    by_cases hd : d.key = key
    · rw [List.filter_cons_of_neg (by simpa using hd), ih]
      by_cases hk : k = key
      · rw [hk, Function.update_self, Function.update_self]
      · rw [Function.update_of_ne hk, Function.update_of_ne hk, mapOf_cons, hd, if_neg (Ne.symm hk)]
    · rw [List.filter_cons_of_pos (by simpa using hd), mapOf_cons, ih]
      by_cases hk : k = key
      · rw [hk, if_neg hd, Function.update_self, Function.update_self]
      · rw [Function.update_of_ne hk, Function.update_of_ne hk, mapOf_cons]

end Map

-- Leaves whose keys are among those of a sorted leaf, in the same order.
theorem LeafOk.of_keys {rank : Rank} {lo hi : Bound String} {p nx : PageNum}
    {es es' : List LeafEntry} (h : LeafOk rank lo hi p es nx)
    (hsub : (es'.map LeafEntry.key).Sublist (es.map LeafEntry.key)) :
    LeafOk rank lo hi p es' nx := by
  obtain ⟨⟨hsorted, hrange⟩, hlink⟩ := h
  refine ⟨⟨?_, ?_⟩, hlink⟩
  · have hs : (es.map LeafEntry.key).Pairwise (· < ·) := List.pairwise_map.mpr hsorted
    exact List.pairwise_map.mp (hs.sublist hsub)
  · intro e he
    obtain ⟨e', he', hkey⟩ := List.mem_map.mp (hsub.subset (List.mem_map_of_mem he))
    exact hkey ▸ hrange e' he'

end JasonDb.TxBTree
