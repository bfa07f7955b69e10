import JasonDb.Lib.Split
import JasonDb.QueryBuilder

namespace JasonDb

open Lib

namespace Json

-- `serde_json::Map` keeps its fields sorted.
def Sorted (doc : Json) : Prop :=
  ∀ path fields, doc.resolve path = some (.obj fields) → (fields.map Prod.fst).Pairwise (· < ·)

section Maps

variable {key key' : String} {value : Json} {fields : Map}

theorem Map.get_remove_self : (Map.remove key fields).get key = none := by
  unfold Map.get Map.remove
  rw [List.lookup_eq_none_iff]
  intro entry hentry
  have hne : entry.1 ≠ key := of_decide_eq_true (List.mem_filter.mp hentry).2
  exact bne_iff_ne.mpr (Ne.symm hne)

theorem Map.get_remove_of_ne (h : key' ≠ key) : (Map.remove key fields).get key' = fields.get key' := by
  unfold Map.get Map.remove
  induction fields with
  | nil => rfl
  | cons entry rest ih =>
    obtain ⟨k, v⟩ := entry
    rw [List.filter_cons]
    by_cases hk : k = key
    · have hbeq : (key' == k) = false := by simpa [hk] using h
      simp only [hk, ne_eq, not_true_eq_false, decide_false, Bool.false_eq_true, ite_false, List.lookup_cons]
      rw [← hk, hbeq, ← ih, hk]
    · simp only [ne_eq, hk, not_false_eq_true, decide_true, ite_true, List.lookup_cons]
      rw [ih]

-- A field that is already there is put back where it was.
theorem Map.insert_same (hsorted : (fields.map Prod.fst).Pairwise (· < ·)) (h : fields.get key = some value) :
    Map.insert key value fields = fields := by
  induction fields with
  | nil => cases h
  | cons entry rest ih =>
    obtain ⟨k, v⟩ := entry
    rw [List.map_cons, List.pairwise_cons] at hsorted
    by_cases hk : key = k
    · subst hk
      rw [Map.get, List.lookup_cons_self] at h
      obtain rfl := Option.some.inj h
      rw [Map.insert, if_neg (lt_irrefl _), if_pos rfl]
    · have hbeq : (key == k) = false := by simpa using hk
      have hrest : Map.get rest key = some value := by
        rw [Map.get, List.lookup_cons, hbeq] at h
        exact h
      obtain ⟨before, after, hsplit, -⟩ := List.lookup_eq_some_iff.mp hrest
      have hlt : k < key := hsorted.1 key (by simp [hsplit])
      rw [Map.insert, if_neg (not_lt_of_gt hlt), if_neg hk, ih hsorted.2 hrest]

end Maps

section Paths

variable {part : String} {rest path : List String} {fields : Map} {v w : Json}

theorem resolve_append (path rest : List String) (v : Json) :
    v.resolve (path ++ rest) = (v.resolve path).bind (resolve rest) := by
  induction path generalizing v with
  | nil => rfl
  | cons part path ih =>
    rw [List.cons_append, resolve, resolve]
    cases v.asObject.bind (·.get part) with
    | none => rfl
    | some next => exact ih next

theorem resolve_cons (part : String) (rest : List String) (fields : Map) :
    (obj fields).resolve (part :: rest) = (fields.get part).bind (resolve rest) := rfl

-- Only an object has fields.
theorem isObject_of_resolve (h : v.resolve (part :: rest) = some w) : ∃ fields, v = .obj fields := by
  cases v with
  | obj fields => exact ⟨fields, rfl⟩
  | _ => cases h

theorem Sorted.resolve (h : v.Sorted) (hw : v.resolve path = some w) : w.Sorted := by
  intro rest fields hfields
  apply h (path ++ rest)
  rw [resolve_append, hw]
  exact hfields

theorem sorted_of_str (s : String) : (str s).Sorted := by
  intro path fields hfields
  cases path with
  | nil => cases hfields
  | cons part rest => cases hfields

theorem sorted_obj (hkeys : (fields.map Prod.fst).Pairwise (· < ·))
    (hfields : ∀ entry ∈ fields, entry.2.Sorted) :
    (obj fields).Sorted := by
  intro path found hfound
  cases path with
  | nil =>
    cases hfound
    exact hkeys
  | cons part rest =>
    obtain ⟨next, hget, hnext⟩ := Option.bind_eq_some_iff.mp hfound
    obtain ⟨before, after, hsplit, -⟩ := List.lookup_eq_some_iff.mp hget
    exact hfields (part, next) (by simp [hsplit]) rest found hnext

end Paths

end Json

namespace QueryBuilder

open Json

section SetNested

variable {part key : String} {rest path : List String} {obj : Json.Map} {value : Json}

-- The object in a field, an empty one if there is no object.
def nestedAt (obj : Json.Map) (part : String) : Json.Map :=
  match obj.get part with
  | some (.obj nested) => nested
  | _ => []

-- The way along a path is open: where it comes to a field that is there, it comes to an object.
def Opens : List String → Json.Map → Prop
  | part :: next :: rest, obj =>
    (∀ v, obj.get part = some v → ∃ nested, v = .obj nested) ∧ Opens (next :: rest) (nestedAt obj part)
  | _, _ => True

theorem get_set_of_ne (h : key ≠ part) :
    (setNestedFieldRecursive (part :: rest) obj value).get key = obj.get key := by
  cases rest with
  | nil => exact Map.get_insert_of_ne _ _ h
  | cons next rest =>
    have hmade : (if (obj.get part).isSome then obj else Map.insert part (.obj []) obj).get key = obj.get key := by
      split
      · rfl
      · exact Map.get_insert_of_ne _ _ h
    simp only [setNestedFieldRecursive]
    split
    · rw [Map.get_insert_of_ne _ _ h, hmade]
    · exact hmade

theorem get_set_self (h : Opens (part :: next :: rest) obj) :
    (setNestedFieldRecursive (part :: next :: rest) obj value).get part =
      some (.obj (setNestedFieldRecursive (next :: rest) (nestedAt obj part) value)) := by
  have hmade : (if (obj.get part).isSome then obj else Map.insert part (.obj []) obj).get part =
      some (.obj (nestedAt obj part)) := by
    unfold nestedAt
    cases hget : obj.get part with
    | none =>
      simp only [Option.isSome_none, Bool.false_eq_true, ite_false]
      exact Map.get_insert_self _ _ _
    | some v =>
      obtain ⟨nested, rfl⟩ := h.1 v hget
      simpa using hget
  simp only [setNestedFieldRecursive]
  rw [hmade]
  exact Map.get_insert_self _ _ _

theorem resolve_nestedAt (h : ∀ v, obj.get part = some v → ∃ nested, v = .obj nested) (hpath : path ≠ []) :
    (Json.obj (nestedAt obj part)).resolve path = (Json.obj obj).resolve (part :: path) := by
  rw [resolve_cons, nestedAt]
  cases hget : obj.get part with
  | none =>
    cases path with
    | nil => exact absurd rfl hpath
    | cons next path => rfl
  | some v =>
    obtain ⟨nested, rfl⟩ := h v hget
    rfl

-- The value is found where it was put.
theorem resolve_set_append {l : List String} (hl : l ≠ []) (h : Opens l obj) (path : List String) :
    (Json.obj (setNestedFieldRecursive l obj value)).resolve (l ++ path) = value.resolve path := by
  induction l generalizing obj with
  | nil => exact absurd rfl hl
  | cons part rest ih =>
    rw [List.cons_append, resolve_cons]
    cases rest with
    | nil =>
      simp only [setNestedFieldRecursive, Map.get_insert_self]
      rfl
    | cons next rest =>
      rw [get_set_self h]
      exact ih (by simp) h.2

-- On the way there are objects. Those that were there before are the same up to the rest of the way.
theorem resolve_set_strict {l path : List String} (hl : l ≠ []) (h : Opens (path ++ l) obj) :
    ∃ made, (Json.obj (setNestedFieldRecursive (path ++ l) obj value)).resolve path = some (.obj made) ∧
      ∀ found, (Json.obj obj).resolve path = some (.obj found) → made = setNestedFieldRecursive l found value := by
  induction path generalizing obj with
  | nil =>
    refine ⟨_, rfl, fun found hfound => ?_⟩
    cases hfound
    rfl
  | cons part path ih =>
    obtain ⟨next, rest, hrest⟩ : ∃ next rest, path ++ l = next :: rest :=
      List.exists_cons_of_ne_nil (by simp [hl])
    rw [List.cons_append, hrest] at h ⊢
    obtain ⟨made, hmade, hfound⟩ := ih (hrest ▸ h.2)
    refine ⟨made, ?_, fun found hf => ?_⟩
    · rw [resolve_cons, get_set_self h, ← hrest]
      exact hmade
    · apply hfound
      cases path with
      | nil =>
        rw [nestedAt]
        rw [resolve_cons] at hf
        cases hget : obj.get part with
        | none =>
          rw [hget] at hf
          cases hf
        | some v =>
          rw [hget] at hf
          cases hf
          rfl
      | cons key path => rw [resolve_nestedAt h.1 (by simp), hf]

-- Paths that part from this one do not see the change.
theorem resolve_set_apart {l path : List String} (h : Opens l obj) (hpath : ¬l <+: path) (hl : ¬path <+: l) :
    (Json.obj (setNestedFieldRecursive l obj value)).resolve path = (Json.obj obj).resolve path := by
  induction l generalizing obj path with
  | nil => exact absurd List.nil_prefix hpath
  | cons part rest ih =>
    cases path with
    | nil => exact absurd List.nil_prefix hl
    | cons key path =>
      by_cases hkey : key = part
      · subst hkey
        have hdeeper : ¬rest <+: path := fun hle => hpath (List.cons_prefix_cons.mpr ⟨rfl, hle⟩)
        have hhigher : ¬path <+: rest := fun hle => hl (List.cons_prefix_cons.mpr ⟨rfl, hle⟩)
        cases rest with
        | nil => exact absurd List.nil_prefix hdeeper
        | cons next rest =>
          rw [resolve_cons, get_set_self h, Option.bind_some, ih h.2 hdeeper hhigher]
          apply resolve_nestedAt h.1
          rintro rfl
          exact hhigher List.nil_prefix
      · rw [resolve_cons, resolve_cons, get_set_of_ne hkey]

-- A value that is there already changes nothing.
theorem set_same {l : List String} (hl : l ≠ []) (hsorted : (Json.obj obj).Sorted)
    (h : (Json.obj obj).resolve l = some value) : setNestedFieldRecursive l obj value = obj := by
  induction l generalizing obj with
  | nil => exact absurd rfl hl
  | cons part rest ih =>
    rw [resolve_cons] at h
    obtain ⟨v, hget, hv⟩ := Option.bind_eq_some_iff.mp h
    have hfields := hsorted [] obj rfl
    cases rest with
    | nil =>
      obtain rfl := Option.some.inj hv
      exact Map.insert_same hfields hget
    | cons next rest =>
      obtain ⟨nested, rfl⟩ := isObject_of_resolve hv
      have hsame := ih (by simp) (hsorted.resolve (show (Json.obj obj).resolve [part] = some (.obj nested) by
        rw [resolve_cons, hget]
        rfl)) hv
      simp only [setNestedFieldRecursive, hget, Option.isSome_some, ite_true, hsame]
      exact Map.insert_same hfields hget

end SetNested

section Include

variable {doc result : Json.Map} {listed : List (List String)}

-- The result so far: a part of the document, which has the listed paths and no more.
structure Included (doc : Json.Map) (listed : List (List String)) (result : Json.Map) : Prop where
  within : ∀ path v, (Json.obj result).resolve path = some v → ∃ w, (Json.obj doc).resolve path = some w ∧
    (v = w ∨ v.isObject = true ∧ w.isObject = true)
  only : ∀ path v, (Json.obj result).resolve path = some v → v.isObject = false → ∃ l ∈ listed, l <+: path
  all : ∀ l ∈ listed, ∀ w, (Json.obj doc).resolve l = some w → (Json.obj result).resolve l = some w

theorem included_nil (doc : Json.Map) : Included doc [] [] where
  within path v h := by
    cases path with
    | nil =>
      cases h
      exact ⟨_, rfl, .inr ⟨rfl, rfl⟩⟩
    | cons part path => cases h
  only path v h hv := by
    cases path with
    | nil =>
      cases h
      cases hv
    | cons part path => cases h
  all l hl := by cases hl

-- A part of a document is open along the paths of the document.
theorem opens_of_within {l : List String} {w : Json}
    (hwithin : ∀ path v, (Json.obj result).resolve path = some v → ∃ w, (Json.obj doc).resolve path = some w ∧
      (v = w ∨ v.isObject = true ∧ w.isObject = true))
    (h : (Json.obj doc).resolve l = some w) : Opens l result := by
  induction l generalizing doc result with
  | nil => trivial
  | cons part rest ih =>
    cases rest with
    | nil => trivial
    | cons next rest =>
      rw [resolve_cons] at h
      obtain ⟨x, hget, hx⟩ := Option.bind_eq_some_iff.mp h
      obtain ⟨fields, rfl⟩ := isObject_of_resolve hx
      have hpart : (Json.obj doc).resolve [part] = some (.obj fields) := by
        rw [resolve_cons, hget]
        rfl
      have hobject : ∀ v, result.get part = some v → ∃ nested, v = .obj nested := by
        intro v hv
        obtain ⟨w, hw, heq⟩ := hwithin [part] v (by rw [resolve_cons, hv]; rfl)
        rw [hpart] at hw
        obtain rfl := Option.some.inj hw
        rcases heq with rfl | ⟨hv, -⟩
        · exact ⟨fields, rfl⟩
        · cases v with
          | obj nested => exact ⟨nested, rfl⟩
          | _ => cases hv
      refine ⟨hobject, ih (fun path v hv => ?_) hx⟩
      cases path with
      | nil =>
        cases hv
        exact ⟨_, rfl, .inr ⟨rfl, rfl⟩⟩
      | cons key path =>
        rw [resolve_nestedAt hobject (by simp)] at hv
        obtain ⟨w, hw, heq⟩ := hwithin _ v hv
        rw [resolve_cons, hget] at hw
        exact ⟨w, hw, heq⟩

-- What is at a path once the document's value at `l` is put there.
theorem Included.resolve_set (h : Included doc listed result) {l : List String} (hl : l ≠ []) {w : Json}
    (hw : (Json.obj doc).resolve l = some w) (path : List String) :
    l <+: path ∧ (Json.obj (setNestedFieldRecursive l result w)).resolve path = (Json.obj doc).resolve path ∨
    (∃ rest made found, rest ≠ [] ∧ path ++ rest = l ∧
      (Json.obj (setNestedFieldRecursive l result w)).resolve path = some (.obj made) ∧
      (Json.obj doc).resolve path = some (.obj found) ∧ (Json.obj found).resolve rest = some w ∧
      ∀ fields, (Json.obj result).resolve path = some (.obj fields) → made = setNestedFieldRecursive rest fields w) ∨
    ¬l <+: path ∧
      (Json.obj (setNestedFieldRecursive l result w)).resolve path = (Json.obj result).resolve path := by
  have hopens := opens_of_within h.within hw
  by_cases hdeeper : l <+: path
  · obtain ⟨rest, rfl⟩ := hdeeper
    refine .inl ⟨List.prefix_append _ _, ?_⟩
    rw [resolve_set_append hl hopens, resolve_append, hw]
    rfl
  by_cases hhigher : path <+: l
  · obtain ⟨rest, rfl⟩ := hhigher
    have hrest : rest ≠ [] := by
      rintro rfl
      exact hdeeper (by simp)
    obtain ⟨made, hmade, hfields⟩ := resolve_set_strict hrest hopens
    obtain ⟨part, parts, rfl⟩ := List.exists_cons_of_ne_nil hrest
    rw [resolve_append] at hw
    obtain ⟨v, hv, hvw⟩ := Option.bind_eq_some_iff.mp hw
    obtain ⟨found, rfl⟩ := isObject_of_resolve hvw
    exact .inr (.inl ⟨_, made, found, hrest, rfl, hmade, hv, hvw, hfields⟩)
  · exact .inr (.inr ⟨hdeeper, resolve_set_apart hopens hdeeper hhigher⟩)

theorem Included.step (h : Included doc listed result) (hsorted : (Json.obj doc).Sorted)
    {l : List String} (hl : l ≠ [])
    {w : Json} (hw : (Json.obj doc).resolve l = some w) :
    Included doc (l :: listed) (setNestedFieldRecursive l result w) where
  within path v hv := by
    rcases h.resolve_set hl hw path with ⟨-, hset⟩ | ⟨rest, made, found, -, -, hset, hfound, -, -⟩ | ⟨-, hset⟩
    · exact ⟨v, hset ▸ hv, .inl rfl⟩
    · rw [hset] at hv
      cases hv
      exact ⟨_, hfound, .inr ⟨rfl, rfl⟩⟩
    · exact h.within path v (hset ▸ hv)
  only path v hv hvalue := by
    rcases h.resolve_set hl hw path with ⟨hle, -⟩ | ⟨rest, made, found, -, -, hset, -, -, -⟩ | ⟨-, hset⟩
    · exact ⟨l, List.mem_cons_self, hle⟩
    · rw [hset] at hv
      cases hv
      cases hvalue
    · obtain ⟨l', hl', hle⟩ := h.only path v (hset ▸ hv) hvalue
      exact ⟨l', List.mem_cons_of_mem _ hl', hle⟩
  all l' hl' w' hw' := by
    rcases h.resolve_set hl hw l' with ⟨-, hset⟩ | ⟨rest, made, found, hrest, hpath, hset, hfound, hvalue, hmade⟩ |
        ⟨hnot, hset⟩
    · rw [hset, hw']
    · have hmem : l' ∈ listed := by
        rcases List.mem_cons.mp hl' with rfl | hmem
        · exact absurd (List.append_right_eq_self.mp hpath) hrest
        · exact hmem
      rw [hw'] at hfound
      cases hfound
      -- The whole object is there already, and with it what is put into it.
      have hsame := set_same hrest (hsorted.resolve hw') hvalue
      rw [hset, hmade found (h.all l' hmem _ hw'), hsame]
    · rcases List.mem_cons.mp hl' with rfl | hmem
      · exact absurd List.prefix_rfl hnot
      · rw [hset, h.all l' hmem w' hw']

theorem Included.skip (h : Included doc listed result) {l : List String}
    (hall : ∀ w, (Json.obj doc).resolve l = some w → (Json.obj result).resolve l = some w) :
    Included doc (l :: listed) result where
  within := h.within
  only path v hv hvalue := by
    obtain ⟨l', hl', hle⟩ := h.only path v hv hvalue
    exact ⟨l', List.mem_cons_of_mem _ hl', hle⟩
  all l' hl' w hw := by
    rcases List.mem_cons.mp hl' with rfl | hl'
    · exact hall w hw
    · exact h.all l' hl' w hw

theorem splitOn_ne_nil (field : String) : field.splitOn "." ≠ [] := by
  have hsplit := splitOn_char field '.'
  rw [show String.ofList ['.'] = "." from rfl] at hsplit
  rw [hsplit, Ne, List.map_eq_nil_iff]
  exact List.splitOn_ne_nil _ _

theorem splitOn_of_notMem {field : String} (h : '.' ∉ field.toList) : field.splitOn "." = [field] := by
  have hsplit := splitOn_char field '.'
  rw [show String.ofList ['.'] = "." from rfl] at hsplit
  rw [hsplit, List.splitOn_eq_singleton h]
  simp

theorem Included.includeField (h : Included doc listed result) (hsorted : (Json.obj doc).Sorted)
    (hid : "_id".splitOn "." ∈ listed) (field : String) :
    Included doc (field.splitOn "." :: listed) (includeField doc result field) := by
  have hset : ∀ value, (Json.obj doc).resolve (field.splitOn ".") = some value →
      Included doc (field.splitOn "." :: listed) (setNestedFieldRecursive (field.splitOn ".") result value) :=
    fun value => h.step hsorted (splitOn_ne_nil field)
  have hnone : (Json.obj doc).resolve (field.splitOn ".") = none → Included doc (field.splitOn "." :: listed) result := by
    intro hnone
    apply h.skip
    intro w hw
    rw [hnone] at hw
    cases hw
  unfold QueryBuilder.includeField
  split
  · next hfield =>
    rw [hfield]
    exact h.skip (h.all _ hid)
  · split
    · rw [getNestedFieldFromMap]
      split
      · next value hvalue => exact hset value hvalue
      · next hvalue => exact hnone hvalue
    · next hdot =>
      rw [splitOn_of_notMem hdot, resolve_cons] at hset hnone
      rw [splitOn_of_notMem hdot]
      split
      · next value hvalue =>
        apply hset
        rw [hvalue]
        rfl
      · next hvalue =>
        apply hnone
        rw [hvalue]
        rfl

theorem Included.foldl (h : Included doc listed result) (hsorted : (Json.obj doc).Sorted)
    (hid : "_id".splitOn "." ∈ listed) (fields : List String) :
    Included doc ((fields.map (·.splitOn ".")).reverse ++ listed) (fields.foldl (QueryBuilder.includeField doc) result) := by
  induction fields generalizing listed result with
  | nil => exact h
  | cons field fields ih =>
    have hrest := ih (h.includeField hsorted hid field) (List.mem_cons_of_mem _ hid)
    rw [List.map_cons, List.reverse_cons, List.append_assoc]
    exact hrest

theorem included_id (hsorted : (Json.obj doc).Sorted) : Included doc ["_id".splitOn "."]
    (match Json.Map.get doc "_id" with
      | some id => Json.Map.insert "_id" id []
      | none => []) := by
  have hid : "_id".splitOn "." = ["_id"] := splitOn_of_notMem (by decide)
  rw [hid]
  cases hget : Json.Map.get doc "_id" with
  | none =>
    apply (included_nil doc).skip
    intro w hw
    rw [resolve_cons, hget] at hw
    cases hw
  | some id =>
    apply (included_nil doc).step hsorted (l := ["_id"]) (by simp)
    rw [resolve_cons, hget]
    rfl

end Include

section Exclude

theorem resolve_remove {l : List String} (hl : l ≠ []) (obj : Json.Map) (path : List String) :
    ((Json.obj (removeNestedFieldRecursive l obj)).resolve path).isSome ↔
      ((Json.obj obj).resolve path).isSome ∧ ¬l <+: path := by
  induction l generalizing obj path with
  | nil => exact absurd rfl hl
  | cons part rest ih =>
    cases path with
    | nil => simp [resolve]
    | cons key path =>
      rw [resolve_cons, resolve_cons, List.cons_prefix_cons]
      cases rest with
      | nil =>
        simp only [removeNestedFieldRecursive]
        by_cases hkey : key = part
        · simp [hkey, Map.get_remove_self]
        · rw [Map.get_remove_of_ne hkey]
          simp [Ne.symm hkey]
      | cons next rest =>
        simp only [removeNestedFieldRecursive]
        split
        · next nested hget =>
          by_cases hkey : key = part
          · rw [hkey, Map.get_insert_self, hget]
            simpa using ih (by simp) nested path
          · rw [Map.get_insert_of_ne _ _ hkey]
            simp [Ne.symm hkey]
        · next hget =>
          -- Nothing is at the path: there is no object on the way.
          refine ⟨fun hsome => ⟨hsome, ?_⟩, And.left⟩
          rintro ⟨rfl, after, rfl⟩
          obtain ⟨v, hv⟩ := Option.isSome_iff_exists.mp hsome
          obtain ⟨w, hw, hwv⟩ := Option.bind_eq_some_iff.mp hv
          obtain ⟨nested, rfl⟩ := isObject_of_resolve hwv
          exact hget nested hw

theorem excludeField_eq (result : Json.Map) (field : String) :
    excludeField result field = removeNestedFieldRecursive (field.splitOn ".") result := by
  unfold excludeField
  split
  · rfl
  · next hdot =>
    rw [splitOn_of_notMem hdot]
    rfl

theorem resolve_foldl_exclude (fields : List String) (obj : Json.Map) (path : List String) :
    ((Json.obj (fields.foldl excludeField obj)).resolve path).isSome ↔
      ((Json.obj obj).resolve path).isSome ∧ ∀ field ∈ fields, ¬field.splitOn "." <+: path := by
  induction fields generalizing obj with
  | nil => simp
  | cons field fields ih =>
    rw [List.foldl_cons, ih, excludeField_eq, resolve_remove (splitOn_ne_nil field), List.forall_mem_cons, and_assoc]

end Exclude

theorem applyProjection_exact (doc : Json.Map) (hsorted : (Json.obj doc).Sorted) (fields : List String) :
    (∃ result, applyProjection (.including fields) (.obj doc) = .obj result ∧
      (∀ field ∈ fields, ∀ value, (Json.obj doc).resolve (field.splitOn ".") = some value →
        (Json.obj result).resolve (field.splitOn ".") = some value) ∧
      ∀ path value, (Json.obj result).resolve path = some value → value.isObject = false →
        (Json.obj doc).resolve path = some value ∧ ∃ field ∈ "_id" :: fields, field.splitOn "." <+: path) ∧
    ∃ result, applyProjection (.excluding fields) (.obj doc) = .obj result ∧
      ∀ path, ((Json.obj result).resolve path).isSome ↔
        ((Json.obj doc).resolve path).isSome ∧ ∀ field ∈ fields, ¬field.splitOn "." <+: path := by
  refine ⟨⟨_, rfl, ?_, ?_⟩, _, rfl, resolve_foldl_exclude fields doc⟩
  · intro field hfield value hvalue
    have hincluded := (included_id hsorted).foldl hsorted List.mem_cons_self fields
    exact hincluded.all _ (List.mem_append_left _ (by simpa using ⟨field, hfield, rfl⟩)) value hvalue
  · intro path value hvalue hleaf
    have hincluded := (included_id hsorted).foldl hsorted List.mem_cons_self fields
    constructor
    · obtain ⟨w, hw, rfl | ⟨hobject, -⟩⟩ := hincluded.within path value hvalue
      · exact hw
      · rw [hleaf] at hobject
        cases hobject
    · obtain ⟨l, hl, hle⟩ := hincluded.only path value hvalue hleaf
      rcases List.mem_append.mp hl with hl | hl
      · obtain ⟨field, hfield, rfl⟩ := List.mem_map.mp (List.mem_reverse.mp hl)
        exact ⟨field, List.mem_cons_of_mem _ hfield, hle⟩
      · obtain rfl := List.mem_singleton.mp hl
        exact ⟨"_id", List.mem_cons_self, hle⟩

-- A whole field, and one of its fields.
theorem applyProjection_exact_address :
    ∃ result, applyProjection (.including ["address", "address.city"])
        (.obj [("_id", .str "d1"), ("address", .obj [("city", .str "Oslo"), ("zip", .str "0150")]), ("name", .str "Ada")]) =
        .obj result ∧
      (Json.obj result).resolve ("address".splitOn ".") = some (.obj [("city", .str "Oslo"), ("zip", .str "0150")]) := by
  have haddress : (Json.obj [("city", .str "Oslo"), ("zip", .str "0150")]).Sorted := by
    apply sorted_obj (by decide)
    simp [sorted_of_str]
  have hsorted : (Json.obj [("_id", .str "d1"), ("address", .obj [("city", .str "Oslo"), ("zip", .str "0150")]),
      ("name", .str "Ada")]).Sorted := by
    apply sorted_obj (by decide)
    simp [haddress, sorted_of_str]
  obtain ⟨⟨result, hresult, hkept, -⟩, -⟩ := applyProjection_exact _ hsorted ["address", "address.city"]
  refine ⟨result, hresult, hkept "address" List.mem_cons_self _ ?_⟩
  rw [splitOn_of_notMem (by decide)]
  rfl

end QueryBuilder

end JasonDb
