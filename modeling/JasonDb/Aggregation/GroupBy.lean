import JasonDb.Aggregation
import JasonDb.Json.Text

namespace JasonDb

open Lib

theorem Json.eq_refl (v : Json) : v.eq v := by
  have hnumber : ∀ n : Number, n.eq n := by
    intro n
    cases n <;> simp [Number.eq]
  induction v using Json.nested with
  | null => rfl
  | bool value => simp [eq]
  | num number => exact hnumber number
  | str value => simp [eq]
  | arr items ih =>
    rw [eq]
    induction items with
    | nil => rfl
    | cons item rest ihrest =>
      rw [eqItems, ih item (by simp), ihrest fun item hitem => ih item (List.mem_cons_of_mem _ hitem)]
      rfl
  | obj fields ih =>
    rw [eq]
    induction fields with
    | nil => rfl
    | cons field rest ihrest =>
      rw [eqFields, ih field (by simp), ihrest fun field hfield => ih field (List.mem_cons_of_mem _ hfield)]
      simp

theorem Json.eq_str_left {s : String} {w : Json} (h : (Json.str s).eq w) : w = .str s := by
  cases w with
  | str s' => rw [show s = s' from of_decide_eq_true h]
  | _ => cases h

theorem Json.eq_str_right {s : String} {v : Json} (h : v.eq (.str s)) : v = .str s := by
  cases v with
  | str s' => rw [show s' = s from of_decide_eq_true h]
  | _ => cases h

namespace AggregationPipeline

-- A missing field counts as `null`.
def fieldValue (field : String) (doc : Json) : Json := (doc.get field).getD .null

-- Each group is that of one value, and is as large as the count says.
structure PartitionsByValue (floats : FloatTools) (field : String) (accumulators : List Accumulator)
    (docs : List Json) : Prop where
  one_result : ∃ values results, executeGroupBy floats field accumulators docs = .ok results ∧
    values.Pairwise (fun v w => ¬Json.eq v w) ∧
    (∀ v, (∃ w ∈ values, Json.eq w v) ↔ ∃ doc ∈ docs, (fieldValue field doc).eq v) ∧
    List.Forall₂ (fun v result => ∃ key, result = groupResult floats accumulators
      (key, docs.filter fun doc => (fieldValue field doc).eq v)) values results
  same_group : ∀ a ∈ docs, ∀ b ∈ docs, (∃ group ∈ (groups field docs).toList, a ∈ group.2 ∧ b ∈ group.2) ↔
    (fieldValue field a).eq (fieldValue field b)
  counts : ∀ before outputField after, accumulators = before ++ ⟨outputField, .count⟩ :: after →
    (∀ accumulator ∈ after, accumulator.outputField ≠ outputField) →
    ∃ (results : List Json) (counts : List Nat), executeGroupBy floats field accumulators docs = .ok results ∧
      results.map (·.get outputField) = counts.map (fun n => some (.num (.int n))) ∧ counts.sum = docs.length

-- No string is the text of a value of another type, and equal values are the same.
structure Unambiguous (field : String) (docs : List Json) : Prop where
  texts : ∀ a ∈ docs, ∀ b ∈ docs, ∀ s, fieldValue field a = .str s → (∀ s', fieldValue field b ≠ .str s') →
    s ≠ (fieldValue field b).render
  zeros : ∀ a ∈ docs, ∀ b ∈ docs, (fieldValue field a).eq (fieldValue field b) → fieldValue field a = fieldValue field b

section Keys

variable {field : String} {docs : List Json} {a b : Json}

theorem groupKey_eq (field : String) (doc : Json) : groupKey field doc =
    match fieldValue field doc with
    | .str s => s
    | value => value.render := by
  unfold groupKey fieldValue
  cases h : doc.get field with
  | none => rfl
  | some value =>
    cases value with
    | bool value => cases value <;> rfl
    | _ => rfl

theorem groupKey_of_str {s : String} (h : fieldValue field a = .str s) : groupKey field a = s := by
  rw [groupKey_eq, h]

theorem groupKey_of_not_str (h : ∀ s, fieldValue field a ≠ .str s) :
    groupKey field a = (fieldValue field a).render := by
  rw [groupKey_eq]
  split
  · exact absurd ‹_› (h _)
  · rfl

theorem groupKey_eq_iff (hclear : Unambiguous field docs) (ha : a ∈ docs) (hb : b ∈ docs) :
    groupKey field a = groupKey field b ↔ (fieldValue field a).eq (fieldValue field b) := by
  constructor
  · intro hkey
    have hsame : fieldValue field a = fieldValue field b := by
      by_cases hsa : ∃ s, fieldValue field a = .str s
      · obtain ⟨s, hs⟩ := hsa
        rw [groupKey_of_str hs] at hkey
        by_cases hsb : ∃ s, fieldValue field b = .str s
        · obtain ⟨s', hs'⟩ := hsb
          rw [groupKey_of_str hs'] at hkey
          rw [hs, hs', hkey]
        · have hnot := not_exists.mp hsb
          rw [groupKey_of_not_str hnot] at hkey
          exact absurd hkey (hclear.texts a ha b hb s hs hnot)
      · have hnot := not_exists.mp hsa
        rw [groupKey_of_not_str hnot] at hkey
        by_cases hsb : ∃ s, fieldValue field b = .str s
        · obtain ⟨s', hs'⟩ := hsb
          rw [groupKey_of_str hs'] at hkey
          exact absurd hkey.symm (hclear.texts b hb a ha s' hs' hnot)
        · rw [groupKey_of_not_str (not_exists.mp hsb)] at hkey
          exact Json.render_injective hkey
    rw [hsame]
    exact Json.eq_refl _
  · intro heq
    rw [groupKey_eq, groupKey_eq, hclear.zeros a ha b hb heq]

-- When the keys tell the values apart, the values must be unambiguous.
theorem unambiguous_of_groupKey (h : ∀ a ∈ docs, ∀ b ∈ docs,
    groupKey field a = groupKey field b ↔ (fieldValue field a).eq (fieldValue field b)) : Unambiguous field docs := by
  constructor
  · intro a ha b hb s hs hnot heq
    have hkey : groupKey field a = groupKey field b := by rw [groupKey_of_str hs, groupKey_of_not_str hnot, heq]
    have hvalues := (h a ha b hb).mp hkey
    rw [hs] at hvalues
    exact hnot s (Json.eq_str_left hvalues)
  · intro a ha b hb heq
    have hkey := (h a ha b hb).mpr heq
    by_cases hsa : ∃ s, fieldValue field a = .str s
    · obtain ⟨s, hs⟩ := hsa
      rw [hs] at heq ⊢
      exact (Json.eq_str_left heq).symm
    · have hsb : ¬∃ s, fieldValue field b = .str s := by
        rintro ⟨s, hs⟩
        rw [hs] at heq
        exact hsa ⟨s, Json.eq_str_right heq⟩
      rw [groupKey_of_not_str (not_exists.mp hsa), groupKey_of_not_str (not_exists.mp hsb)] at hkey
      exact Json.render_injective hkey

end Keys

section Groups

variable {floats : FloatTools} {field : String} {accumulators : List Accumulator} {docs : List Json}

theorem get_groupResult {before after : List Accumulator} {outputField : String} (op : AccumulatorOp)
    (group : String × List Json) (hafter : ∀ accumulator ∈ after, accumulator.outputField ≠ outputField) :
    (groupResult floats (before ++ ⟨outputField, op⟩ :: after) group).get outputField =
      some (accumulate floats op group.2) := by
  -- The accumulators behind leave the field alone.
  have hlater : ∀ (after : List Accumulator) (result : Json.Map),
      (∀ accumulator ∈ after, accumulator.outputField ≠ outputField) →
      Json.Map.get (after.foldl (fun result accumulator =>
        Json.Map.insert accumulator.outputField (accumulate floats accumulator.op group.2) result) result) outputField =
        Json.Map.get result outputField := by
    intro after
    induction after with
    | nil => exact fun _ _ => rfl
    | cons accumulator after ih =>
      intro result hne
      rw [List.foldl_cons, ih _ fun a ha => hne a (List.mem_cons_of_mem _ ha)]
      exact Json.Map.get_insert_of_ne _ _ (Ne.symm (hne accumulator (by simp)))
  rw [groupResult, List.foldl_append, List.foldl_cons]
  exact (hlater after _ hafter).trans (Json.Map.get_insert_self _ _ _)

theorem counts_sum {before after : List Accumulator} {outputField : String}
    (haccumulators : accumulators = before ++ ⟨outputField, .count⟩ :: after)
    (hafter : ∀ accumulator ∈ after, accumulator.outputField ≠ outputField) :
    ∃ (results : List Json) (counts : List Nat), executeGroupBy floats field accumulators docs = .ok results ∧
      results.map (·.get outputField) = counts.map (fun n => some (.num (.int n))) ∧ counts.sum = docs.length := by
  refine ⟨_, (groups field docs).toList.map fun group => group.2.length, rfl, ?_, sum_length_groupBy⟩
  rw [List.map_map, List.map_map]
  refine List.map_congr_left fun group _ => ?_
  rw [haccumulators]
  exact get_groupResult .count group hafter

-- The value of the first document with a key.
def valueOf (field : String) (docs : List Json) (key : String) : Json :=
  ((docs.find? (groupKey field · = key)).map (fieldValue field)).getD .null

theorem valueOf_eq {key : String} (h : key ∈ docs.map (groupKey field)) :
    ∃ doc ∈ docs, groupKey field doc = key ∧ valueOf field docs key = fieldValue field doc := by
  obtain ⟨doc, hdoc, hkey⟩ := List.mem_map.mp h
  have hsome : (docs.find? (groupKey field · = key)).isSome :=
    List.find?_isSome.mpr ⟨doc, hdoc, by simpa using hkey⟩
  obtain ⟨found, hfound⟩ := Option.isSome_iff_exists.mp hsome
  refine ⟨found, List.mem_of_find?_eq_some hfound, by simpa using List.find?_some hfound, ?_⟩
  rw [valueOf, hfound]
  rfl

theorem one_result_of_unambiguous (hclear : Unambiguous field docs) :
    ∃ values results, executeGroupBy floats field accumulators docs = .ok results ∧
      values.Pairwise (fun v w => ¬Json.eq v w) ∧
      (∀ v, (∃ w ∈ values, Json.eq w v) ↔ ∃ doc ∈ docs, (fieldValue field doc).eq v) ∧
      List.Forall₂ (fun v result => ∃ key, result = groupResult floats accumulators
        (key, docs.filter fun doc => (fieldValue field doc).eq v)) values results := by
  have hgroup : ∀ group ∈ (groups field docs).toList, ∃ doc ∈ docs, groupKey field doc = group.1 ∧
      valueOf field docs group.1 = fieldValue field doc ∧ group.2 = docs.filter (groupKey field · = group.1) := by
    intro group hmem
    obtain ⟨hkey, hdocs⟩ := mem_groupBy.mp hmem
    obtain ⟨doc, hdoc, hkey, hvalue⟩ := valueOf_eq hkey
    exact ⟨doc, hdoc, hkey, hvalue, hdocs⟩
  refine ⟨(groups field docs).toList.map fun group => valueOf field docs group.1, _, rfl, ?_, fun v => ?_, ?_⟩
  · rw [List.pairwise_map]
    have hnodup : ((groups field docs).toList.map Prod.fst).Nodup := nodup_groupBy
    refine (List.pairwise_map.mp hnodup).imp_of_mem ?_
    intro group group' hmem hmem' hne heq
    obtain ⟨a, ha, hkey, hvalue, -⟩ := hgroup group hmem
    obtain ⟨b, hb, hkey', hvalue', -⟩ := hgroup group' hmem'
    rw [hvalue, hvalue', ← groupKey_eq_iff hclear ha hb, hkey, hkey'] at heq
    exact hne heq
  · constructor
    · rintro ⟨w, hw, heq⟩
      obtain ⟨group, hmem, rfl⟩ := List.mem_map.mp hw
      obtain ⟨doc, hdoc, -, hvalue, -⟩ := hgroup group hmem
      exact ⟨doc, hdoc, hvalue ▸ heq⟩
    · rintro ⟨doc, hdoc, heq⟩
      have hmem : (groupKey field doc, docs.filter (groupKey field · = groupKey field doc)) ∈ (groups field docs).toList :=
        mem_groupBy.mpr ⟨List.mem_map_of_mem hdoc, rfl⟩
      obtain ⟨first, hfirst, hkey, hvalue, -⟩ := hgroup _ hmem
      -- Documents with one key have one value.
      have hsame := hclear.zeros first hfirst doc hdoc ((groupKey_eq_iff hclear hfirst hdoc).mp hkey)
      exact ⟨_, List.mem_map_of_mem hmem, by rw [hvalue, hsame]; exact heq⟩
  · rw [List.forall₂_map_left_iff, List.forall₂_map_right_iff, List.forall₂_same]
    intro group hmem
    obtain ⟨first, hfirst, hkey, hvalue, hdocs⟩ := hgroup group hmem
    refine ⟨group.1, congrArg (groupResult floats accumulators) (Prod.ext rfl ?_)⟩
    rw [hdocs]
    refine List.filter_congr fun doc hdoc => ?_
    rw [hvalue, ← hkey, Bool.eq_iff_iff, decide_eq_true_iff]
    exact groupKey_eq_iff hclear hdoc hfirst

theorem partitionsByValue_iff (floats : FloatTools) (field : String) (accumulators : List Accumulator)
    (docs : List Json) :
    PartitionsByValue floats field accumulators docs ↔ Unambiguous field docs := by
  constructor
  · intro h
    refine unambiguous_of_groupKey fun a ha b hb => ?_
    rw [← h.same_group a ha b hb]
    exact (same_group_iff ha hb).symm
  · intro hclear
    refine ⟨one_result_of_unambiguous hclear, fun a ha b hb => ?_, fun _ _ _ => counts_sum⟩
    rw [← groupKey_eq_iff hclear ha hb]
    exact same_group_iff ha hb

-- `"1"` and `1` have the same text.
theorem text_of_number_not_partitioned :
    ¬∀ (floats : FloatTools) (field : String) (accumulators : List Accumulator) (docs : List Json),
      PartitionsByValue floats field accumulators docs := by
  intro h
  have hclear := (partitionsByValue_iff
    ⟨Rat, Number.asF64, fun n => n, 0, (· + ·), (· / ·), fun a b => some (compare a b), fun _ => .null⟩ "x" [⟨"total", .count⟩]
    [.obj [("x", .str "1")], .obj [("x", .num (.int 1))]]).mp (h _ _ _ _)
  exact hclear.texts (.obj [("x", .str "1")]) (by simp) (.obj [("x", .num (.int 1))]) (by simp) "1" rfl
    (by simp [fieldValue, Json.get, Json.asObject, Json.Map.get]) rfl

end Groups

end AggregationPipeline

end JasonDb
