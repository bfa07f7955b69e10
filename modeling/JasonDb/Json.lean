import JasonDb.Lib.HashMap

namespace JasonDb

-- A finite 64-bit float, by the shortest decimal that is read as it: `digits * 10^exponent` with a
-- sign, also for zero. The last digit is not zero, unless the number is.
structure Decimal where
  negative : Bool
  digits : Nat
  exponent : Int
  normal : digits % 10 ≠ 0 ∨ digits = 0 ∧ exponent = 0
deriving DecidableEq

-- `serde_json::Number`: an integer of 64 bits, or a float.
inductive Number where
  | int (value : Int)
  | float (value : Decimal)
deriving DecidableEq

namespace Decimal

-- The text of a float, in scientific notation when it is very large or very small.
def render (d : Decimal) : String :=
  let sign := if d.negative then "-" else ""
  let digits := Nat.toDigits 10 d.digits
  let point : Int := digits.length + d.exponent
  if d.digits = 0 then sign ++ "0.0"
  else if 0 ≤ d.exponent ∧ point ≤ 16 then
    sign ++ String.ofList (digits ++ List.replicate d.exponent.toNat '0') ++ ".0"
  else if 0 < point ∧ point ≤ 16 then
    sign ++ String.ofList (digits.take point.toNat) ++ "." ++ String.ofList (digits.drop point.toNat)
  else if -5 < point ∧ point ≤ 0 then
    sign ++ "0." ++ String.ofList (List.replicate (-point).toNat '0' ++ digits)
  else
    sign ++ String.ofList (digits.take 1) ++
      (if digits.length = 1 then "" else "." ++ String.ofList (digits.drop 1)) ++ "e" ++
      toString (point - 1)

-- The `Display` text of a float, without a point where it can be left out.
def display (d : Decimal) : String :=
  let sign := if d.negative then "-" else ""
  let digits := Nat.toDigits 10 d.digits
  let point : Int := digits.length + d.exponent
  if 0 ≤ d.exponent then sign ++ String.ofList (digits ++ List.replicate d.exponent.toNat '0')
  else if 0 < point then
    sign ++ String.ofList (digits.take point.toNat) ++ "." ++ String.ofList (digits.drop point.toNat)
  else sign ++ "0." ++ String.ofList (List.replicate (-point).toNat '0' ++ digits)

end Decimal

namespace Number

-- `==`: the two zeros are equal floats.
def eq : Number → Number → Bool
  | .int a, .int b => a = b
  | .float a, .float b => a = b ∨ a.digits = 0 ∧ b.digits = 0
  | _, _ => false

def render : Number → String
  | .int value => toString value
  | .float value => value.render

def display : Number → String
  | .int value => toString value
  | .float value => value.display

end Number

-- `serde_json::Value`. The fields of an object are listed by key.
inductive Json where
  | null
  | bool (value : Bool)
  | num (number : Number)
  | str (value : String)
  | arr (items : List Json)
  | obj (fields : List (String × Json))

namespace Json

mutual

protected def decEq : (a b : Json) → Decidable (a = b)
  | .null, .null => .isTrue rfl
  | .bool a, .bool b => decidable_of_iff (a = b) (by simp)
  | .num a, .num b => decidable_of_iff (a = b) (by simp)
  | .str a, .str b => decidable_of_iff (a = b) (by simp)
  | .arr a, .arr b => match Json.decEqItems a b with
    | .isTrue h => .isTrue (by rw [h])
    | .isFalse h => .isFalse (by simpa using h)
  | .obj a, .obj b => match Json.decEqFields a b with
    | .isTrue h => .isTrue (by rw [h])
    | .isFalse h => .isFalse (by simpa using h)
  | .null, .bool _ | .null, .num _ | .null, .str _ | .null, .arr _ | .null, .obj _
  | .bool _, .null | .bool _, .num _ | .bool _, .str _ | .bool _, .arr _ | .bool _, .obj _
  | .num _, .null | .num _, .bool _ | .num _, .str _ | .num _, .arr _ | .num _, .obj _
  | .str _, .null | .str _, .bool _ | .str _, .num _ | .str _, .arr _ | .str _, .obj _
  | .arr _, .null | .arr _, .bool _ | .arr _, .num _ | .arr _, .str _ | .arr _, .obj _
  | .obj _, .null | .obj _, .bool _ | .obj _, .num _ | .obj _, .str _ | .obj _, .arr _ =>
    .isFalse (by simp)

protected def decEqItems : (a b : List Json) → Decidable (a = b)
  | [], [] => .isTrue rfl
  | a :: as, b :: bs => match Json.decEq a b, Json.decEqItems as bs with
    | .isTrue h, .isTrue h' => .isTrue (by rw [h, h'])
    | .isFalse h, _ => .isFalse (by simp [h])
    | _, .isFalse h => .isFalse (by simp [h])
  | [], _ :: _ => .isFalse (by simp)
  | _ :: _, [] => .isFalse (by simp)

protected def decEqFields : (a b : List (String × Json)) → Decidable (a = b)
  | [], [] => .isTrue rfl
  | (k, a) :: as, (k', b) :: bs => match instDecidableEqString k k', Json.decEq a b, Json.decEqFields as bs with
    | .isTrue hk, .isTrue h, .isTrue h' => .isTrue (by rw [hk, h, h'])
    | .isFalse hk, _, _ => .isFalse (by simp [hk])
    | _, .isFalse h, _ => .isFalse (by simp [h])
    | _, _, .isFalse h => .isFalse (by simp [h])
  | [], _ :: _ => .isFalse (by simp)
  | _ :: _, [] => .isFalse (by simp)

end

instance : DecidableEq Json := Json.decEq

mutual

-- `==` of two values.
def eq : Json → Json → Bool
  | .null, .null => true
  | .bool a, .bool b => a = b
  | .num a, .num b => a.eq b
  | .str a, .str b => a = b
  | .arr a, .arr b => eqItems a b
  | .obj a, .obj b => eqFields a b
  | _, _ => false

def eqItems : List Json → List Json → Bool
  | [], [] => true
  | a :: as, b :: bs => eq a b && eqItems as bs
  | _, _ => false

def eqFields : List (String × Json) → List (String × Json) → Bool
  | [], [] => true
  | (k, a) :: as, (k', b) :: bs => k = k' && eq a b && eqFields as bs
  | _, _ => false

end

-- `serde_json::Map`: a sorted map from field names to values.
abbrev Map := List (String × Json)

namespace Map

def get (fields : Map) (key : String) : Option Json := fields.lookup key

def insert (key : String) (value : Json) : Map → Map
  | [] => [(key, value)]
  | (k, v) :: rest =>
    if key < k then (key, value) :: (k, v) :: rest
    else if key = k then (key, value) :: rest
    else (k, v) :: insert key value rest

theorem get_insert_self (key : String) (value : Json) (fields : Map) :
    (insert key value fields).get key = some value := by
  induction fields with
  | nil => simp [insert, get]
  | cons entry rest ih =>
    obtain ⟨k, v⟩ := entry
    unfold insert
    split
    · simp [get]
    · split
      · simp [get]
      case isFalse hne =>
        have hbeq : (key == k) = false := by simpa using hne
        rw [get, List.lookup_cons, hbeq]
        exact ih

theorem get_insert_of_ne {key key' : String} (value : Json) (fields : Map) (h : key' ≠ key) :
    (insert key value fields).get key' = fields.get key' := by
  have hbeq : (key' == key) = false := by simpa using h
  induction fields with
  | nil => simp [insert, get, List.lookup_cons, hbeq]
  | cons entry rest ih =>
    obtain ⟨k, v⟩ := entry
    unfold insert
    split
    · simp [get, List.lookup_cons, hbeq]
    · split
      case isTrue heq =>
        subst heq
        simp [get, List.lookup_cons, hbeq]
      case isFalse =>
        simp only [get, List.lookup_cons] at ih ⊢
        rw [ih]

end Map

-- The place of a type among the types.
def typeOrder : Json → Nat
  | .null => 0
  | .bool _ => 1
  | .num _ => 2
  | .str _ => 3
  | .arr _ => 4
  | .obj _ => 5

def asObject : Json → Option Map
  | .obj fields => some fields
  | _ => none

-- The value at a path of field names, as long as the path stays within objects.
def resolve : List String → Json → Option Json
  | [], value => some value
  | part :: rest, value => (value.asObject.bind (·.get part)).bind (resolve rest)

-- The value of a field with dots in its name, `null` where it leaves the objects.
def valueAt (value : Json) (field : String) : Json := (value.resolve (field.splitOn ".")).getD .null

def asStr : Json → Option String
  | .str value => some value
  | _ => none

def isObject : Json → Bool
  | .obj _ => true
  | _ => false

def escapeChar (c : Char) : String :=
  if c = '"' then "\\\""
  else if c = '\\' then "\\\\"
  else if c.toNat = 8 then "\\b"
  else if c.toNat = 9 then "\\t"
  else if c.toNat = 10 then "\\n"
  else if c.toNat = 12 then "\\f"
  else if c.toNat = 13 then "\\r"
  else if c.toNat < 32 then
    "\\u00" ++ String.ofList (if c.toNat < 16 then '0' :: Nat.toDigits 16 c.toNat else Nat.toDigits 16 c.toNat)
  else String.ofList [c]

def renderString (value : String) : String :=
  "\"" ++ String.join (value.toList.map escapeChar) ++ "\""

mutual

-- `serde_json::to_string`: compact text, without blanks.
def render : Json → String
  | .null => "null"
  | .bool true => "true"
  | .bool false => "false"
  | .num number => number.render
  | .str value => renderString value
  | .arr items => "[" ++ renderItems items ++ "]"
  | .obj fields => "\x7b" ++ renderFields fields ++ "\x7d"

def renderItems : List Json → String
  | [] => ""
  | [item] => render item
  | item :: rest => render item ++ "," ++ renderItems rest

def renderFields : List (String × Json) → String
  | [] => ""
  | [(key, value)] => renderString key ++ ":" ++ render value
  | (key, value) :: rest => renderString key ++ ":" ++ render value ++ "," ++ renderFields rest

end

def debugChar (c : Char) : String :=
  if c = '"' then "\\\""
  else if c = '\\' then "\\\\"
  else if c.toNat = 0 then "\\0"
  else if c.toNat = 9 then "\\t"
  else if c.toNat = 10 then "\\n"
  else if c.toNat = 13 then "\\r"
  else if c.toNat < 32 ∨ c.toNat = 127 then
    "\\u\x7b" ++ String.ofList (Nat.toDigits 16 c.toNat) ++ "\x7d"
  else String.ofList [c]

def debugString (value : String) : String :=
  "\"" ++ String.join (value.toList.map debugChar) ++ "\""

mutual

-- The `Debug` text of a value.
def debug : Json → String
  | .null => "Null"
  | .bool true => "Bool(true)"
  | .bool false => "Bool(false)"
  | .num number => "Number(" ++ number.render ++ ")"
  | .str value => "String(" ++ debugString value ++ ")"
  | .arr items => "Array [" ++ debugItems items ++ "]"
  | .obj fields => "Object \x7b" ++ debugFields fields ++ "\x7d"

def debugItems : List Json → String
  | [] => ""
  | [item] => debug item
  | item :: rest => debug item ++ ", " ++ debugItems rest

def debugFields : List (String × Json) → String
  | [] => ""
  | [(key, value)] => debugString key ++ ": " ++ debug value
  | (key, value) :: rest => debugString key ++ ": " ++ debug value ++ ", " ++ debugFields rest

end

-- The number of bytes of the compact text.
def byteLen (value : Json) : Nat := value.render.utf8ByteSize

-- Induction on a value, from the members of an array and of an object.
theorem nested {P : Json → Prop} (null : P .null) (bool : ∀ value, P (.bool value))
    (num : ∀ number, P (.num number)) (str : ∀ value, P (.str value))
    (arr : ∀ items, (∀ item ∈ items, P item) → P (.arr items))
    (obj : ∀ fields, (∀ field ∈ fields, P field.2) → P (.obj fields)) (value : Json) : P value := by
  refine @Json.rec P (fun items => ∀ item ∈ items, P item) (fun fields => ∀ field ∈ fields, P field.2)
    (fun field => P field.2) null bool num str arr obj ?_ ?_ ?_ ?_ (fun _ _ h => h) value
  · intro item hitem
    cases hitem
  · intro item rest hitem hrest
    simpa using And.intro hitem hrest
  · intro field hfield
    cases hfield
  · intro field rest hfield hrest
    simpa using And.intro hfield hrest

end Json

end JasonDb
