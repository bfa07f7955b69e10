import JasonDb.Metadata
import Mathlib.Data.Rat.Floor

namespace JasonDb

-- A positive number rounded to a multiple of `2^unit`, ties to even.
def roundToFloat (q : Rat) (unit : Int) : Rat :=
  let scaled := q / 2 ^ unit
  let below := scaled.floor
  let rest := scaled - below
  let mantissa := if rest < 1 / 2 ∨ rest = 1 / 2 ∧ below % 2 = 0 then below else below + 1
  mantissa * 2 ^ unit

-- The nearest 64-bit float. `unit` is the exponent of its last bit.
def toF64 (q : Rat) : Rat :=
  let guess : Int := (Nat.log2 q.num.natAbs : Int) - Nat.log2 q.den - 52
  let unit := if |q| < 2 ^ (guess + 52) then guess - 1 else guess
  let float := roundToFloat |q| (max unit (-1074))
  if q < 0 then -float else float

def Decimal.value (d : Decimal) : Rat :=
  (if d.negative then -1 else 1) * d.digits * 10 ^ d.exponent

namespace Number

def asF64 : Number → Rat
  | .int value => toF64 value
  | .float value => toF64 value.value

-- `is_i64() || is_u64()`
def isInteger : Number → Bool
  | .int value => -2 ^ 63 ≤ value ∧ value < 2 ^ 64
  | .float _ => false

end Number

namespace Json

def typeName : Json → String
  | .str _ => "string"
  | .num _ => "number"
  | .bool _ => "boolean"
  | .obj _ => "object"
  | .arr _ => "array"
  | .null => "null"

end Json

def ValueType.debug : ValueType → String
  | .string => "String"
  | .number => "Number"
  | .integer => "Integer"
  | .boolean => "Boolean"
  | .object => "Object"
  | .array => "Array"
  | .null => "Null"

def ValueType.matches : ValueType → Json → Bool
  | .string, .str _ => true
  | .number, .num _ => true
  | .integer, .num n => n.isInteger
  | .boolean, .bool _ => true
  | .object, .obj _ => true
  | .array, .arr _ => true
  | .null, .null => true
  | _, _ => false

namespace Schema

def valueType : Schema → Option ValueType
  | mk valueType _ _ _ _ _ _ _ _ => valueType

def required : Schema → Option (List String)
  | mk _ required _ _ _ _ _ _ _ => required

def properties : Schema → Option (List (String × Schema))
  | mk _ _ properties _ _ _ _ _ _ => properties

def items : Schema → Option Schema
  | mk _ _ _ items _ _ _ _ _ => items

def minimum : Schema → Option Decimal
  | mk _ _ _ _ minimum _ _ _ _ => minimum

def maximum : Schema → Option Decimal
  | mk _ _ _ _ _ maximum _ _ _ => maximum

def minLength : Schema → Option Nat
  | mk _ _ _ _ _ _ minLength _ _ => minLength

def maxLength : Schema → Option Nat
  | mk _ _ _ _ _ _ _ maxLength _ => maxLength

def enumValues : Schema → Option (List Json)
  | mk _ _ _ _ _ _ _ _ enumValues => enumValues

-- `Schema::new`
def new : Schema := mk none none none none none none none none none

def invalid (text : String) : Except Error Unit := .error (.schemaValidation text)

def validateType (value : Json) (expected : ValueType) (path : String) : Except Error Unit :=
  if expected.matches value then .ok ()
  else
    let kind := expected.debug
    let got := value.typeName
    invalid s!"Type mismatch at '{path}': expected {kind}, got {got}"

def validateEnum (value : Json) (allowed : List Json) (path : String) : Except Error Unit :=
  if allowed.any (Json.eq value) then .ok ()
  else
    let values := Json.debugItems allowed
    let got := value.render
    invalid s!"Value at '{path}' must be one of [{values}], got: {got}"

def validateRequired (fields : Json.Map) (path : String) : List String → Except Error Unit
  | [] => .ok ()
  | field :: rest =>
    if (fields.get field).isSome then validateRequired fields path rest
    else invalid s!"Missing required field '{field}' at '{path}'"

-- The bounds on the length of an array or a string, which `kind` names.
def validateLength (s : Schema) (kind : String) (length : Nat) (path : String) :
    Except Error Unit := do
  match s.minLength with
  | some min =>
    if length < min then invalid s!"{kind} at '{path}' length {length} is less than minimum {min}"
  | none => .ok ()
  match s.maxLength with
  | some max =>
    if length > max then invalid s!"{kind} at '{path}' length {length} exceeds maximum {max}"
  | none => .ok ()

def validateNumber (s : Schema) (number : Number) (path : String) : Except Error Unit := do
  let text := number.display
  match s.minimum with
  | some min =>
    let bound := min.display
    if number.asF64 < Number.asF64 (.float min) then
      invalid s!"Number at '{path}' ({text}) is less than minimum {bound}"
  | none => .ok ()
  match s.maximum with
  | some max =>
    let bound := max.display
    if number.asF64 > Number.asF64 (.float max) then
      invalid s!"Number at '{path}' ({text}) exceeds maximum {bound}"
  | none => .ok ()
  let exact := number.render
  if s.valueType = some .integer ∧ !number.isInteger then
    invalid s!"Value at '{path}' must be an integer, got: {exact}"

def fieldPath (path key : String) : String := if path.isEmpty then key else s!"{path}.{key}"

mutual

def validateWithPath (s : Schema) (value : Json) (path : String) : Except Error Unit := do
  match s.valueType with
  | some expected => validateType value expected path
  | none => .ok ()
  match s.enumValues with
  | some allowed => validateEnum value allowed path
  | none => .ok ()
  match value with
  | .obj fields =>
    validateRequired fields path (s.required.getD [])
    validateProperties (s.properties.getD []) path fields
  | .arr items =>
    s.validateLength "Array" items.length path
    match s.items with
    | some schema => validateItems schema path 0 items
    | none => .ok ()
  | .str text => s.validateLength "String" text.utf8ByteSize path
  | .num number => s.validateNumber number path
  | _ => .ok ()

-- Fields without a schema of their own are let through.
def validateProperties (properties : List (String × Schema)) (path : String) :
    List (String × Json) → Except Error Unit
  | [] => .ok ()
  | (key, value) :: rest => do
    match properties.lookup key with
    | some schema => validateWithPath schema value (fieldPath path key)
    | none => .ok ()
    validateProperties properties path rest

def validateItems (schema : Schema) (path : String) : Nat → List Json → Except Error Unit
  | _, [] => .ok ()
  | index, item :: rest => do
    validateWithPath schema item s!"{path}[{index}]"
    validateItems schema path (index + 1) rest

end

def validate (s : Schema) (value : Json) : Except Error Unit := s.validateWithPath value ""

end Schema

-- The length that the bounds of a schema are about.
def Json.extent : Json → Option Nat
  | .arr items => some items.length
  | .str text => some text.utf8ByteSize
  | _ => none

-- A check for `C`, whose errors have `E`.
structure Checks {ε : Type} (r : Except ε Unit) (C : Prop) (E : ε → Prop) : Prop where
  ok : r = .ok () ↔ C
  error : ∀ e, r = .error e → E e

namespace Checks

variable {ε : Type} {r r' : Except ε Unit} {C C' : Prop} {E E' : ε → Prop}

theorem pass (h : C) : Checks (.ok () : Except ε Unit) C E := ⟨by simp [h], by simp⟩

theorem fail {e : ε} (h : ¬C) (he : E e) : Checks (.error e) C E := ⟨by simp [h], by simpa using he⟩

theorem not_of_error (h : Checks r C E) {e : ε} (he : r = .error e) : ¬C := by
  intro hC
  rw [h.ok.mpr hC] at he
  cases he

theorem mono (h : Checks r C E) (hC : C ↔ C') (hE : ∀ e, ¬C → E e → E' e) : Checks r C' E' :=
  ⟨h.ok.trans hC, fun e he => hE e (h.not_of_error he) (h.error e he)⟩

theorem bind (h : Checks r C E) (h' : C → Checks r' C' E) : Checks (r >>= fun _ => r') (C ∧ C') E := by
  cases r with
  | error e =>
    have hC : ¬C := h.not_of_error rfl
    exact .fail (fun hboth => hC hboth.1) (h.error e rfl)
  | ok u =>
    have hC : C := h.ok.mp rfl
    exact (h' hC).mono ⟨fun hC' => ⟨hC, hC'⟩, And.right⟩ fun _ _ he => he

end Checks

namespace Schema

-- What a schema says of a value, apart from what it says of its parts.
structure Admits (s : Schema) (value : Json) : Prop where
  type : ∀ expected, s.valueType = some expected → expected.matches value
  enum : ∀ allowed, s.enumValues = some allowed → ∃ w ∈ allowed, value.eq w
  required : ∀ fields : Json.Map, value = .obj fields → ∀ field ∈ s.required.getD [], (fields.get field).isSome
  length : ∀ n, value.extent = some n →
    (∀ min, s.minLength = some min → min ≤ n) ∧ ∀ max, s.maxLength = some max → n ≤ max
  bounds : ∀ n, value = .num n → (∀ min, s.minimum = some min → Number.asF64 (.float min) ≤ n.asF64) ∧
    ∀ max, s.maximum = some max → n.asF64 ≤ Number.asF64 (.float max)

-- The schemas that apply somewhere in a value, with the part and its path.
inductive Governs : Schema → Json → String → Schema → Json → String → Prop
  | here {s : Schema} {value : Json} {path : String} : Governs s value path s value path
  | property {s sub s' : Schema} {fields : Json.Map} {key path path' : String} {value value' : Json}
    (hmem : (key, value) ∈ fields) (hsub : (s.properties.getD []).lookup key = some sub)
    (h : Governs sub value (fieldPath path key) s' value' path') :
    Governs s (.obj fields) path s' value' path'
  | item {s sub s' : Schema} {items : List Json} {i : Nat} {path path' : String} {item value' : Json}
    (hitem : items[i]? = some item) (hsub : s.items = some sub)
    (h : Governs sub item s!"{path}[{i}]" s' value' path') : Governs s (.arr items) path s' value' path'

def Names (path : String) (e : Error) : Prop :=
  ∃ before after, e = .schemaValidation (before ++ " at '" ++ path ++ "'" ++ after)

theorem names (path : String) {head tail : String} (before after : String) (hhead : head = before ++ " at '")
    (htail : tail = "'" ++ after) : Names path (.schemaValidation (head ++ path ++ tail)) :=
  ⟨before, after, by simp only [hhead, htail, String.append_assoc]⟩

theorem Names.append {path text : String} (h : Names path (.schemaValidation text)) (more : String) :
    Names path (.schemaValidation (text ++ more)) := by
  obtain ⟨before, after, ⟨⟩⟩ := h
  exact ⟨before, after ++ more, by rw [String.append_assoc]⟩

section Alone

variable (s : Schema) (value : Json) (path : String)

theorem checks_type (expected : ValueType) :
    Checks (validateType value expected path) (expected.matches value) (Names path) := by
  unfold validateType
  split
  case isTrue h => exact .pass h
  case isFalse h =>
    have htext := names path "Type mismatch" ": expected " rfl rfl
    exact .fail h (((htext.append _).append _).append _)

theorem checks_enum (allowed : List Json) :
    Checks (validateEnum value allowed path) (∃ w ∈ allowed, value.eq w) (Names path) := by
  unfold validateEnum
  split
  case isTrue h => exact .pass (by simpa using h)
  case isFalse h =>
    have htext := names path "Value" " must be one of [" rfl rfl
    exact .fail (by simpa using h) (((htext.append _).append _).append _)

theorem checks_required (fields : Json.Map) (required : List String) :
    Checks (validateRequired fields path required) (∀ field ∈ required, (Json.Map.get fields field).isSome)
      (Names path) := by
  induction required with
  | nil => exact .pass (by simp)
  | cons field rest ih =>
    unfold validateRequired
    split
    case isTrue h => exact ih.mono (by simp [h]) fun _ _ he => he
    case isFalse h =>
      refine .fail (by simp [h]) (names path ("Missing required field '" ++ field ++ "'") "" ?_ rfl)
      have hquote : "' at '" = "'" ++ " at '" := rfl
      exact (congrArg (("Missing required field '" ++ field) ++ ·) hquote).trans String.append_assoc.symm

-- A bound that there may be.
theorem checks_bound {α : Type} {check : α → Except Error Unit} {C : α → Prop} {E : Error → Prop}
    (bound : Option α) (h : ∀ a, Checks (check a) (C a) E) :
    Checks (bound.elim (.ok ()) check) (∀ a, bound = some a → C a) E := by
  cases bound with
  | none => exact .pass (by simp)
  | some a => exact (h a).mono (by simp) fun _ _ he => he

theorem checks_length (kind : String) (n : Nat) : Checks (s.validateLength kind n path)
    ((∀ min, s.minLength = some min → min ≤ n) ∧ ∀ max, s.maxLength = some max → n ≤ max) (Names path) := by
  have hsteps : s.validateLength kind n path =
      (s.minLength.elim (.ok ()) fun min =>
        if n < min then invalid s!"{kind} at '{path}' length {n} is less than minimum {min}" else .ok ()) >>= fun _ =>
      s.maxLength.elim (.ok ()) fun max =>
        if n > max then invalid s!"{kind} at '{path}' length {n} exceeds maximum {max}" else .ok () := by
    unfold validateLength
    cases s.minLength with
    | none => cases s.maxLength <;> rfl
    | some min => by_cases hmin : n < min <;> cases s.maxLength <;> simp [hmin, invalid] <;> rfl
  have htext := names path kind " length " rfl rfl
  rw [hsteps]
  refine (checks_bound _ fun min => ?_).bind fun _ => checks_bound _ fun max => ?_
  · split
    case isTrue h => exact .fail (Nat.not_le_of_lt h) (((htext.append _).append _).append _)
    case isFalse h => exact .pass (Nat.le_of_not_lt h)
  · split
    case isTrue h => exact .fail (Nat.not_le_of_lt h) (((htext.append _).append _).append _)
    case isFalse h => exact .pass (Nat.le_of_not_lt h)

-- The type has been checked before, so that the last check of a number finds nothing.
theorem checks_number (n : Number) (htype : ∀ expected, s.valueType = some expected → expected.matches (.num n)) :
    Checks (s.validateNumber n path)
      ((∀ min, s.minimum = some min → Number.asF64 (.float min) ≤ n.asF64) ∧
        ∀ max, s.maximum = some max → n.asF64 ≤ Number.asF64 (.float max)) (Names path) := by
  have hinteger : ¬(s.valueType = some .integer ∧ !n.isInteger) := by
    rintro ⟨hs, hn⟩
    have hmatches : n.isInteger = true := htype _ hs
    rw [hmatches] at hn
    cases hn
  have hsteps : s.validateNumber n path =
      (s.minimum.elim (.ok ()) fun min => if n.asF64 < Number.asF64 (.float min) then
        invalid s!"Number at '{path}' ({n.display}) is less than minimum {min.display}" else .ok ()) >>= fun _ =>
      s.maximum.elim (.ok ()) fun max => if n.asF64 > Number.asF64 (.float max) then
        invalid s!"Number at '{path}' ({n.display}) exceeds maximum {max.display}" else .ok () := by
    unfold validateNumber
    cases s.minimum with
    | none =>
      cases s.maximum with
      | none => simp only [hinteger, if_false, Option.elim_none]; rfl
      | some max =>
        by_cases hmax : n.asF64 > Number.asF64 (.float max) <;>
          simp only [hinteger, hmax, if_true, if_false, Option.elim_none, Option.elim_some] <;> rfl
    | some min =>
      by_cases hmin : n.asF64 < Number.asF64 (.float min)
      · simp only [hmin, if_true, Option.elim_some]; rfl
      · cases s.maximum with
        | none => simp only [hinteger, hmin, if_false, Option.elim_none, Option.elim_some]; rfl
        | some max =>
          by_cases hmax : n.asF64 > Number.asF64 (.float max) <;>
            simp only [hinteger, hmin, hmax, if_true, if_false, Option.elim_some] <;> rfl
  have htext := names path "Number" " (" rfl rfl
  rw [hsteps]
  refine (checks_bound _ fun min => ?_).bind fun _ => checks_bound _ fun max => ?_
  · split
    case isTrue h => exact .fail (not_le_of_gt h) (((htext.append _).append _).append _)
    case isFalse h => exact .pass (le_of_not_gt h)
  · split
    case isTrue h => exact .fail (not_le_of_gt h) (((htext.append _).append _).append _)
    case isFalse h => exact .pass (le_of_not_gt h)


end Alone

-- A check of the values that `G` says, each by its schema.
def Judges (r : Except Error Unit) (G : Schema → Json → String → Prop) : Prop :=
  Checks r (∀ s value path, G s value path → s.Admits value)
    fun e => ∃ s value path, G s value path ∧ ¬s.Admits value ∧ Names path e

section Judges

variable {r r' : Except Error Unit} {G G' H : Schema → Json → String → Prop}

theorem Judges.congr (h : Judges r G) (hG : ∀ s value path, G s value path ↔ H s value path) :
    Judges r H := by
  obtain rfl : G = H := by
    funext s value path
    exact propext (hG s value path)
  exact h

theorem judges_nothing (h : ∀ s value path, ¬G s value path) : Judges (.ok ()) G :=
  .pass fun s value path hG => absurd hG (h s value path)

theorem judges_one {s : Schema} {value : Json} {path : String} (h : Checks r (s.Admits value) (Names path)) :
    Judges r fun s' value' path' => s' = s ∧ value' = value ∧ path' = path := by
  refine h.mono ⟨?_, fun hall => hall s value path ⟨rfl, rfl, rfl⟩⟩ fun e hne he =>
    ⟨s, value, path, ⟨rfl, rfl, rfl⟩, hne, he⟩
  rintro hadmits _ _ _ ⟨rfl, rfl, rfl⟩
  exact hadmits

theorem Judges.bind (h : Judges r G) (h' : Judges r' G') :
    Judges (r >>= fun _ => r') fun s value path => G s value path ∨ G' s value path := by
  have hboth := (h.mono Iff.rfl fun e _ he => Or.inl he).bind fun _ => h'.mono Iff.rfl fun e _ he => Or.inr he
  refine hboth.mono ⟨?_, fun hall => ⟨fun s value path hG => hall s value path (.inl hG),
    fun s value path hG => hall s value path (.inr hG)⟩⟩ ?_
  · rintro ⟨hall, hall'⟩ s value path (hG | hG)
    · exact hall s value path hG
    · exact hall' s value path hG
  · rintro e - (⟨s, value, path, hG, hrest⟩ | ⟨s, value, path, hG, hrest⟩)
    · exact ⟨s, value, path, .inl hG, hrest⟩
    · exact ⟨s, value, path, .inr hG, hrest⟩

end Judges

-- What is checked of a value once its type and the listed values are.
def validateRest (s : Schema) (path : String) : Json → Except Error Unit
  | .obj fields => validateRequired fields path (s.required.getD []) >>= fun _ =>
    validateProperties (s.properties.getD []) path fields
  | .arr items => s.validateLength "Array" items.length path >>= fun _ =>
    s.items.elim (.ok ()) fun schema => validateItems schema path 0 items
  | .str text => s.validateLength "String" text.utf8ByteSize path
  | .num number => s.validateNumber number path
  | _ => .ok ()

theorem validateWithPath_eq (s : Schema) (value : Json) (path : String) : s.validateWithPath value path =
    (s.valueType.elim (.ok ()) fun expected => validateType value expected path) >>= fun _ =>
    (s.enumValues.elim (.ok ()) fun allowed => validateEnum value allowed path) >>= fun _ =>
    s.validateRest path value := by
  cases value <;> simp only [validateWithPath, validateRest] <;> cases s.valueType <;> cases s.enumValues <;>
    first | rfl | (cases s.items <;> rfl)

-- The parts of a value that have a schema.
def GovernsField (s : Schema) (path : String) (fields : List (String × Json)) (s' : Schema) (value' : Json)
    (path' : String) : Prop :=
  ∃ key value sub, (key, value) ∈ fields ∧ (s.properties.getD []).lookup key = some sub ∧
    Governs sub value (fieldPath path key) s' value' path'

def GovernsItem (sub : Schema) (path : String) (first : Nat) (items : List Json) (s' : Schema) (value' : Json)
    (path' : String) : Prop :=
  ∃ i item, items[i]? = some item ∧ Governs sub item s!"{path}[{first + i}]" s' value' path'

theorem judges_properties (s : Schema) (path : String) {fields : List (String × Json)}
    (ih : ∀ field ∈ fields, ∀ (s : Schema) (path : String),
      Judges (s.validateWithPath field.2 path) (Governs s field.2 path)) :
    Judges (validateProperties (s.properties.getD []) path fields) (s.GovernsField path fields) := by
  induction fields with
  | nil => exact judges_nothing (by simp [GovernsField])
  | cons field rest ihrest =>
    obtain ⟨key, value⟩ := field
    have hrest := ihrest fun field hfield => ih field (List.mem_cons_of_mem _ hfield)
    rw [validateProperties]
    cases hlookup : (s.properties.getD []).lookup key with
    | none =>
      refine Judges.congr hrest fun s' value' path' => ?_
      simp only [GovernsField, List.mem_cons]
      constructor
      · rintro ⟨key', value'', sub, hmem, hsub, h⟩
        exact ⟨key', value'', sub, .inr hmem, hsub, h⟩
      · rintro ⟨key', value'', sub, heq | hmem, hsub, h⟩
        · cases heq
          rw [hlookup] at hsub
          cases hsub
        · exact ⟨key', value'', sub, hmem, hsub, h⟩
    | some sub =>
      refine ((ih (key, value) (by simp) sub (fieldPath path key)).bind hrest).congr fun s' value' path' => ?_
      simp only [GovernsField, List.mem_cons]
      constructor
      · rintro (h | ⟨key', value'', sub', hmem, hsub, h⟩)
        · exact ⟨key, value, sub, .inl rfl, hlookup, h⟩
        · exact ⟨key', value'', sub', .inr hmem, hsub, h⟩
      · rintro ⟨key', value'', sub', heq | hmem, hsub, h⟩
        · cases heq
          cases hlookup.symm.trans hsub
          exact .inl h
        · exact .inr ⟨key', value'', sub', hmem, hsub, h⟩

theorem judges_items {sub : Schema} {path : String} {items : List Json} (first : Nat)
    (ih : ∀ item ∈ items, ∀ (s : Schema) (path : String),
      Judges (s.validateWithPath item path) (Governs s item path)) :
    Judges (validateItems sub path first items) (sub.GovernsItem path first items) := by
  induction items generalizing first with
  | nil => exact judges_nothing (by simp [GovernsItem])
  | cons item rest ihrest =>
    have hrest := ihrest (first + 1) fun item hitem => ih item (List.mem_cons_of_mem _ hitem)
    rw [validateItems]
    refine ((ih item (by simp) sub _).bind hrest).congr fun s' value' path' => ?_
    simp only [GovernsItem]
    constructor
    · rintro (h | ⟨i, item', hitem, h⟩)
      · exact ⟨0, item, rfl, h⟩
      · exact ⟨i + 1, item', hitem, by rwa [Nat.add_right_comm first, Nat.add_assoc] at h⟩
    · rintro ⟨i, item', hitem, h⟩
      cases i with
      | zero =>
        cases hitem
        exact .inl h
      | succ i => exact .inr ⟨i, item', hitem, by rwa [Nat.add_right_comm first, Nat.add_assoc]⟩

theorem judges_own {s : Schema} {value : Json} {path : String} {own parts : Except Error Unit} {C : Prop}
    {G : Schema → Json → String → Prop} (hrest : s.validateRest path value = own >>= fun _ => parts)
    (hown : (∀ expected, s.valueType = some expected → expected.matches value) → Checks own C (Names path))
    (hadmits : ((∀ expected, s.valueType = some expected → expected.matches value) ∧
      (∀ allowed, s.enumValues = some allowed → ∃ w ∈ allowed, value.eq w) ∧ C) ↔ s.Admits value)
    (hparts : Judges parts G) (hgoverns : ∀ s' value' path', Governs s value path s' value' path' ↔
      (s' = s ∧ value' = value ∧ path' = path) ∨ G s' value' path') :
    Judges (s.validateWithPath value path) (Governs s value path) := by
  have hchecks := (checks_bound s.valueType fun expected => checks_type value path expected).bind fun htype =>
    (checks_bound s.enumValues fun allowed => checks_enum value path allowed).bind fun _ => hown htype
  have hjudges := (judges_one (hchecks.mono hadmits fun _ _ he => he)).bind hparts
  rw [validateWithPath_eq, hrest]
  simp only [bind_assoc] at hjudges
  exact hjudges.congr fun s' value' path' => (hgoverns s' value' path').symm

section Governs

variable {s s' : Schema} {value' : Json} {path path' : String}

theorem governs_leaf {value : Json} (hobj : ∀ fields, value ≠ .obj fields)
    (harr : ∀ items, value ≠ .arr items) :
    Governs s value path s' value' path' ↔ (s' = s ∧ value' = value ∧ path' = path) ∨ False := by
  constructor
  · intro h
    cases h with
    | here => exact .inl ⟨rfl, rfl, rfl⟩
    | property => exact absurd rfl (hobj _)
    | item => exact absurd rfl (harr _)
  · rintro (⟨rfl, rfl, rfl⟩ | h)
    · exact .here
    · exact h.elim

theorem governs_obj {fields : List (String × Json)} : Governs s (.obj fields) path s' value' path' ↔
    (s' = s ∧ value' = .obj fields ∧ path' = path) ∨ s.GovernsField path fields s' value' path' := by
  constructor
  · intro h
    cases h with
    | here => exact .inl ⟨rfl, rfl, rfl⟩
    | property hmem hsub h => exact .inr ⟨_, _, _, hmem, hsub, h⟩
  · rintro (⟨rfl, rfl, rfl⟩ | ⟨key, value, sub, hmem, hsub, h⟩)
    · exact .here
    · exact .property hmem hsub h

theorem governs_arr {items : List Json} : Governs s (.arr items) path s' value' path' ↔
    (s' = s ∧ value' = .arr items ∧ path' = path) ∨
      ∃ sub, s.items = some sub ∧ sub.GovernsItem path 0 items s' value' path' := by
  constructor
  · intro h
    cases h with
    | here => exact .inl ⟨rfl, rfl, rfl⟩
    | @item _ _ _ _ i _ _ _ _ hitem hsub h =>
      exact .inr ⟨_, hsub, i, _, hitem, by rwa [Nat.zero_add]⟩
  · rintro (⟨rfl, rfl, rfl⟩ | ⟨sub, hsub, i, item, hitem, h⟩)
    · exact .here
    · rw [Nat.zero_add] at h
      exact .item hitem hsub h

end Governs

theorem bind_ok (r : Except Error Unit) : (r >>= fun _ => .ok ()) = r := by
  cases r <;> rfl

theorem judges_validate (s : Schema) (value : Json) (path : String) :
    Judges (s.validateWithPath value path) (Governs s value path) := by
  have hnothing : Judges (.ok ()) fun _ _ _ => False := judges_nothing (by simp)
  induction value using Json.nested generalizing s path with
  | null =>
    refine judges_own (bind_ok _).symm (fun _ => .pass trivial) ⟨?_, ?_⟩ hnothing fun _ _ _ =>
      governs_leaf (by simp) (by simp)
    · rintro ⟨htype, henum, -⟩
      exact ⟨htype, henum, by simp, by simp [Json.extent], by simp⟩
    · rintro ⟨htype, henum, -, -, -⟩
      exact ⟨htype, henum, trivial⟩
  | bool value =>
    refine judges_own (bind_ok _).symm (fun _ => .pass trivial) ⟨?_, ?_⟩ hnothing fun _ _ _ =>
      governs_leaf (by simp) (by simp)
    · rintro ⟨htype, henum, -⟩
      exact ⟨htype, henum, by simp, by simp [Json.extent], by simp⟩
    · rintro ⟨htype, henum, -, -, -⟩
      exact ⟨htype, henum, trivial⟩
  | num number =>
    refine judges_own (bind_ok _).symm (fun htype => s.checks_number path number htype) ⟨?_, ?_⟩ hnothing
      fun _ _ _ => governs_leaf (by simp) (by simp)
    · rintro ⟨htype, henum, hbounds⟩
      exact ⟨htype, henum, by simp, by simp [Json.extent], by rintro _ ⟨⟩; exact hbounds⟩
    · rintro ⟨htype, henum, -, -, hbounds⟩
      exact ⟨htype, henum, hbounds _ rfl⟩
  | str text =>
    refine judges_own (bind_ok _).symm (fun _ => s.checks_length path "String" _) ⟨?_, ?_⟩ hnothing
      fun _ _ _ => governs_leaf (by simp) (by simp)
    · rintro ⟨htype, henum, hlength⟩
      exact ⟨htype, henum, by simp, by rintro _ ⟨⟩; exact hlength, by simp⟩
    · rintro ⟨htype, henum, -, hlength, -⟩
      exact ⟨htype, henum, hlength _ rfl⟩
  | arr items ih =>
    have hparts : Judges (s.items.elim (.ok ()) fun schema => validateItems schema path 0 items)
        fun s' value' path' => ∃ sub, s.items = some sub ∧ sub.GovernsItem path 0 items s' value' path' := by
      cases s.items with
      | none => exact judges_nothing (by simp)
      | some sub => exact (judges_items _ fun item hitem s path => ih item hitem s path).congr (by simp)
    refine judges_own rfl (fun _ => s.checks_length path "Array" _) ⟨?_, ?_⟩ hparts fun _ _ _ => governs_arr
    · rintro ⟨htype, henum, hlength⟩
      exact ⟨htype, henum, by simp, by rintro _ ⟨⟩; exact hlength, by simp⟩
    · rintro ⟨htype, henum, -, hlength, -⟩
      exact ⟨htype, henum, hlength _ rfl⟩
  | obj fields ih =>
    have hparts := judges_properties s path fun field hfield s path => ih field hfield s path
    refine judges_own rfl (fun _ => checks_required path fields _) ⟨?_, ?_⟩ hparts fun _ _ _ => governs_obj
    · rintro ⟨htype, henum, hrequired⟩
      exact ⟨htype, henum, by rintro _ ⟨⟩; exact hrequired, by simp [Json.extent], by simp⟩
    · rintro ⟨htype, henum, hrequired, -, -⟩
      exact ⟨htype, henum, hrequired _ rfl⟩

-- A document passes if every part of it is as the schema for that part says. If it does not pass,
-- the error names a part that is not.
theorem validate_exact (s : Schema) (value : Json) :
    (s.validate value = .ok () ↔ ∀ s' value' path, Governs s value "" s' value' path → s'.Admits value') ∧
      ∀ e, s.validate value = .error e → ∃ s' value' path, Governs s value "" s' value' path ∧
        ¬s'.Admits value' ∧ Names path e := by
  have h := judges_validate s value ""
  exact ⟨h.ok, h.error⟩

end Schema

end JasonDb
