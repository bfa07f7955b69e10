import JasonDb.IndexKey
import JasonDb.Json.Text
import JasonDb.Lib.Split

namespace JasonDb

open Lib

section Definitions

variable (fromStr : String → Except Error Json)

def IndexKey.serialize (key : IndexKey) : String :=
  let valueJson := key.fieldValue.render
  valueJson ++ "|" ++ key.docId

-- Cut at the first bar. `fromStr` is `serde_json::from_str`.
def IndexKey.deserialize (s : String) : Except Error IndexKey :=
  match s.toList.findIdx? (· == '|') with
  | some pos => do
    let fieldValue ← fromStr (String.ofList (s.toList.take pos))
    let docId := String.ofList (s.toList.drop (pos + 1))
    .ok ⟨fieldValue, docId⟩
  | none => .error (.other "invalid index key format")

structure CompoundIndexKey where
  fieldValues : List Json
  docId : String

namespace CompoundIndexKey

def serialize (key : CompoundIndexKey) : String :=
  let parts := key.fieldValues.map Json.render
  "|".intercalate (parts ++ [key.docId])

def deserialize (s : String) (numFields : Nat) : Except Error CompoundIndexKey :=
  let parts := s.splitOn "|"
  let found := parts.length
  if found < numFields + 1 then
    .error (.other s!"invalid compound index key format: expected {numFields} fields + doc_id, got {found} parts")
  else do
    let fieldValues ← (parts.take numFields).mapM fromStr
    -- The id may have bars of its own.
    .ok ⟨fieldValues, "|".intercalate (parts.drop numFields)⟩

end CompoundIndexKey

end Definitions

variable {fromStr : String → Except Error Json}

-- The text of a value has no separator.
def Json.Unbarred (v : Json) : Prop := '|' ∉ v.render.toList

instance (v : Json) : Decidable v.Unbarred := inferInstanceAs (Decidable ('|' ∉ v.render.toList))

theorem IndexKey.toList_serialize (key : IndexKey) :
    key.serialize.toList = key.fieldValue.render.toList ++ '|' :: key.docId.toList := by
  unfold serialize
  rw [String.toList_append, String.toList_append, List.append_assoc]
  rfl

-- A value with a bar is cut there, and the rest of its text goes to the id.
theorem IndexKey.deserialize_of_mem {key key' : IndexKey} (hbar : '|' ∈ key.fieldValue.render.toList)
    (h : deserialize fromStr key.serialize = .ok key') : key.docId.length < key'.docId.length := by
  obtain ⟨before, after, htext, hfree⟩ := List.eq_append_cons_of_mem hbar
  unfold deserialize at h
  rw [toList_serialize, htext, List.append_assoc, List.cons_append, findIdx?_append_separator _ hfree] at h
  simp only [List.take_left] at h
  cases hvalue : fromStr (String.ofList before) with
  | error e =>
    rw [hvalue] at h
    cases h
  | ok value =>
    rw [hvalue] at h
    cases h
    rw [drop_append_separator, String.length_ofList, ← String.length_toList]
    simp
    omega

theorem IndexKey.deserialize_of_not_mem {key : IndexKey} (hbar : '|' ∉ key.fieldValue.render.toList) :
    deserialize fromStr key.serialize = (fromStr key.fieldValue.render).map fun value => ⟨value, key.docId⟩ := by
  unfold deserialize
  rw [toList_serialize, findIdx?_append_separator _ hbar]
  simp only [List.take_left, String.ofList_toList]
  rw [drop_append_separator, String.ofList_toList]
  cases fromStr key.fieldValue.render <;> rfl

namespace CompoundIndexKey

def texts (key : CompoundIndexKey) : List (List Char) := key.fieldValues.map fun v => v.render.toList

theorem toList_serialize (key : CompoundIndexKey) :
    key.serialize.toList = ['|'].intercalate (key.texts ++ [key.docId.toList]) := by
  unfold serialize texts
  rw [String.toList_intercalate, List.map_append, List.map_map]
  rfl

theorem splitOn_serialize (key : CompoundIndexKey) :
    key.serialize.splitOn "|" =
      ((['|'].intercalate (key.texts ++ [key.docId.toList])).splitOn '|').map String.ofList := by
  rw [← toList_serialize]
  exact splitOn_char key.serialize '|'

theorem deserialize_docId {s : String} {numFields : Nat} {key : CompoundIndexKey}
    (h : deserialize fromStr s numFields = .ok key) : key.docId = "|".intercalate ((s.splitOn "|").drop numFields) := by
  simp only [deserialize] at h
  split at h
  · cases h
  · cases hvalues : ((s.splitOn "|").take numFields).mapM fromStr with
    | error e =>
      rw [hvalues] at h
      cases h
    | ok values =>
      rw [hvalues] at h
      cases h
      rfl

theorem mapM_fromStr {values : List Json} (hparse : ∀ v ∈ values, fromStr v.render = .ok v) :
    (values.map Json.render).mapM fromStr = .ok values := by
  induction values with
  | nil => rfl
  | cons v values ih =>
    rw [List.map_cons, List.mapM_cons, hparse v List.mem_cons_self, ih fun v hv => hparse v (List.mem_cons_of_mem _ hv)]
    rfl

theorem toList_intercalate_ofList (pieces : List (List Char)) :
    ("|".intercalate (pieces.map String.ofList)).toList = ['|'].intercalate pieces := by
  rw [String.toList_intercalate, List.map_map]
  simp

theorem deserialize_serialize {key : CompoundIndexKey}
    (hparse : ∀ v ∈ key.fieldValues, fromStr v.render = .ok v) :
    deserialize fromStr key.serialize key.fieldValues.length = .ok key ↔ ∀ v ∈ key.fieldValues, v.Unbarred := by
  have hlen : key.texts.length = key.fieldValues.length := by simp [texts]
  have hfree : (∀ text ∈ key.texts, '|' ∉ text) ↔ ∀ v ∈ key.fieldValues, v.Unbarred := by
    simp [texts, Json.Unbarred]
  constructor
  · intro h
    have hid := congrArg String.toList (deserialize_docId h)
    rw [splitOn_serialize, ← List.map_drop, toList_intercalate_ofList, ← hlen] at hid
    exact hfree.mp ((drop_splitOn_intercalate _ _).mp hid.symm)
  · intro hnot
    have hpieces : key.serialize.splitOn "|" =
        key.fieldValues.map Json.render ++ (key.docId.toList.splitOn '|').map String.ofList := by
      rw [splitOn_serialize, splitOn_intercalate_append _ (hfree.mpr hnot), List.map_append, texts, List.map_map]
      simp
    have hid : "|".intercalate ((key.docId.toList.splitOn '|').map String.ofList) = key.docId := by
      rw [← String.toList_inj, toList_intercalate_ofList, List.intercalate_splitOn]
    simp only [deserialize, hpieces]
    rw [if_neg (by simp), List.take_left' (by simp), List.drop_left' (by simp), mapM_fromStr hparse, hid]
    rfl

end CompoundIndexKey

theorem IndexKey.deserialize_serialize {key : IndexKey}
    (hparse : fromStr key.fieldValue.render = .ok key.fieldValue) :
    deserialize fromStr key.serialize = .ok key ↔ key.fieldValue.Unbarred := by
  constructor
  · intro h hbar
    exact Nat.lt_irrefl _ (deserialize_of_mem hbar h)
  · intro hbar
    rw [deserialize_of_not_mem hbar, hparse]
    rfl

theorem indexKey_roundTrip (fromStr : String → Except Error Json) :
    (∀ key : IndexKey, fromStr key.fieldValue.render = .ok key.fieldValue →
      (IndexKey.deserialize fromStr key.serialize = .ok key ↔ key.fieldValue.Unbarred)) ∧
    ∀ key : CompoundIndexKey, (∀ v ∈ key.fieldValues, fromStr v.render = .ok v) →
      (CompoundIndexKey.deserialize fromStr key.serialize key.fieldValues.length = .ok key ↔
        ∀ v ∈ key.fieldValues, v.Unbarred) :=
  ⟨fun _ hparse => IndexKey.deserialize_serialize hparse, fun _ hparse => CompoundIndexKey.deserialize_serialize hparse⟩

-- `"NYC"|30|doc|123`
theorem indexKey_roundTrip_bar_in_id :
    let fromStr := fun s => if s = "30" then .ok (.num (.int 30)) else if s = "\"NYC\"" then .ok (.str "NYC") else .error .invalidDocument
    IndexKey.deserialize fromStr "30|doc|123" = .ok ⟨.num (.int 30), "doc|123"⟩ ∧
      CompoundIndexKey.deserialize fromStr "\"NYC\"|30|doc|123" 2 = .ok ⟨[.str "NYC", .num (.int 30)], "doc|123"⟩ := by
  refine ⟨((indexKey_roundTrip _).1 ⟨.num (.int 30), "doc|123"⟩ ?_).mpr ?_,
    ((indexKey_roundTrip _).2 ⟨[.str "NYC", .num (.int 30)], "doc|123"⟩ ?_).mpr ?_⟩
  · decide
  · decide
  · decide
  · decide

-- A value with a bar does not come back, even where each text is read back.
theorem indexKey_roundTrip_bar_in_value :
    ∃ fromStr : String → Except Error Json, (∀ v : Json, fromStr v.render = .ok v) ∧
      IndexKey.deserialize fromStr (IndexKey.serialize ⟨.str "a|b", "1"⟩) ≠ .ok ⟨.str "a|b", "1"⟩ ∧
      CompoundIndexKey.deserialize fromStr (CompoundIndexKey.serialize ⟨[.str "a|b"], "1"⟩) 1 ≠ .ok ⟨[.str "a|b"], "1"⟩ := by
  classical
  let fromStr : String → Except Error Json := fun s => if h : ∃ v : Json, v.render = s then .ok h.choose else .error .invalidDocument
  have hparse : ∀ v : Json, fromStr v.render = .ok v := by
    intro v
    have hex : ∃ w : Json, w.render = v.render := ⟨v, rfl⟩
    simp only [fromStr, dif_pos hex, Json.render_injective hex.choose_spec]
  have hbar : ¬(Json.str "a|b").Unbarred := by decide
  refine ⟨fromStr, hparse, fun h => ?_, fun h => ?_⟩
  · exact hbar ((IndexKey.deserialize_serialize (hparse _)).mp h)
  · have hvalues := (CompoundIndexKey.deserialize_serialize (fun v _ => hparse v)).mp h
    exact hbar (hvalues _ List.mem_cons_self)

end JasonDb
