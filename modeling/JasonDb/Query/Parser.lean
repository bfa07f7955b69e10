import JasonDb.Query.Lexer
import JasonDb.Schema

namespace JasonDb

namespace Query

inductive Node where
  | binaryOp (op : String) (left right : Node)
  | unaryOp (op : String) (child : Node)
  | compareOp (field op : String) (value : Json)
  | existsOp (field : String) (not : Bool)
  | hasOp (field op : String) (values : List Json)

def getField (doc : Json.Map) (field : String) : Json := (Json.obj doc).valueAt field

def compareEqual : Json → Json → Bool
  | .num a, .num b => a.asF64 = b.asF64
  | a, b => a.eq b

def compareGreater : Json → Json → Bool
  | .num a, .num b => a.asF64 > b.asF64
  | .str a, .str b => a > b
  | _, _ => false

def compareLess : Json → Json → Bool
  | .num a, .num b => a.asF64 < b.asF64
  | .str a, .str b => a < b
  | _, _ => false

def Node.eval (doc : Json.Map) : Node → Bool
  | binaryOp "and" left right => left.eval doc && right.eval doc
  | binaryOp "or" left right => left.eval doc || right.eval doc
  | binaryOp _ _ _ => false
  | unaryOp "not" child => !child.eval doc
  | unaryOp _ _ => false
  | compareOp field op value =>
    let fieldValue := getField doc field
    match op with
    | ">" => compareGreater fieldValue value
    | ">=" => compareGreater fieldValue value || compareEqual fieldValue value
    | "<" => compareLess fieldValue value
    | "<=" => compareLess fieldValue value || compareEqual fieldValue value
    | "is" => compareEqual fieldValue value
    | "is_not" => !compareEqual fieldValue value
    | _ => false
  | existsOp field not => (getField doc field ≠ .null) != not
  | hasOp field op values => match getField doc field with
    | .arr items => match op with
      | "has" => match values.head? with
        | some value => items.any (compareEqual · value)
        | none => false
      | "has_any" => values.any fun value => items.any (compareEqual · value)
      | "has_all" => values.all fun value => items.any (compareEqual · value)
      | _ => false
    | _ => false

-- What parsing gives: none when the fuel is used up, else a result or the text of an error.
abbrev Parsed := ExceptT String Option

def outOfFuel {α : Type} : Parsed α := ExceptT.mk none

-- The parser is at the head of the tokens that are left. The last of them, the end of the text, is
-- never passed.
def current : List Token → Token
  | [] => ⟨.eof, "", 0⟩
  | token :: _ => token

def isAtEnd (tokens : List Token) : Bool := (current tokens).tokenType = .eof

def check (tokenType : TokenType) (tokens : List Token) : Bool :=
  if isAtEnd tokens then false else (current tokens).tokenType = tokenType

def advance (tokens : List Token) : Token × List Token :=
  (current tokens, if isAtEnd tokens then tokens else tokens.tail)

def matchToken (tokenType : TokenType) (tokens : List Token) : Option (Token × List Token) :=
  if check tokenType tokens then some (advance tokens) else none

def fail {α : Type} (expected : String) (tokens : List Token) : Parsed α :=
  let pos := (current tokens).pos
  throw s!"expected {expected} at position {pos}"

variable (tools : QueryTools)

def parseValue (tokens : List Token) : Parsed (Json × List Token) :=
  match matchToken .number tokens with
  | some (token, tokens) => match tools.parseF64 token.value with
    | some (some value) => return (.num (.float value), tokens)
    | some none =>
      let text := token.value
      throw s!"invalid number (NaN or Infinity not supported): {text}"
    | none =>
      let text := token.value
      throw s!"invalid number: {text}"
  | none => match matchToken .string tokens with
  | some (token, tokens) => return (.str token.value, tokens)
  | none => match matchToken .ident tokens with
  | some (token, tokens) => return (.str token.value, tokens)
  | none => match matchToken .true tokens with
  | some (_, tokens) => return (.bool true, tokens)
  | none => match matchToken .false tokens with
  | some (_, tokens) => return (.bool false, tokens)
  | none => match matchToken .null tokens with
  | some (_, tokens) => return (.null, tokens)
  | none => fail "value" tokens

-- The values of a list, up to its bracket.
def parseValues : Nat → List Token → Parsed (List Json × List Token)
  | 0, _ => outOfFuel
  | fuel + 1, tokens =>
    if check .rBracket tokens then return ([], tokens)
    else do
      let (value, tokens) ← parseValue tools tokens
      match matchToken .comma tokens with
      | some (_, tokens) => do
        let (values, tokens) ← parseValues fuel tokens
        return (value :: values, tokens)
      | none => return ([value], tokens)

def parseHasList (fuel : Nat) (field op : String) (tokens : List Token) : Parsed (Node × List Token) :=
  match matchToken .lBracket tokens with
  | none => fail "'[' after 'has any/all'" tokens
  | some (_, tokens) => do
    let (values, tokens) ← parseValues tools fuel tokens
    match matchToken .rBracket tokens with
    | none => fail "']'" tokens
    | some (_, tokens) => return (.hasOp field op values, tokens)

def parseHas (fuel : Nat) (field : String) (tokens : List Token) : Parsed (Node × List Token) :=
  match matchToken .any tokens with
  | some (_, tokens) => parseHasList tools fuel field "has_any" tokens
  | none => match matchToken .all tokens with
  | some (_, tokens) => parseHasList tools fuel field "has_all" tokens
  | none => do
    let (value, tokens) ← parseValue tools tokens
    return (.hasOp field "has" [value], tokens)

-- The names after the first one of a path.
def fieldPath : Nat → String → List Token → Parsed (String × List Token)
  | 0, _, _ => outOfFuel
  | fuel + 1, field, tokens => match matchToken .dot tokens with
    | none => return (field, tokens)
    | some (_, tokens) => match matchToken .ident tokens with
      | none => fail "field name after '.'" tokens
      | some (token, tokens) => fieldPath fuel (field ++ "." ++ token.value) tokens

-- The comparison operator, none when there is none.
def compareOperator (tokens : List Token) : Option (String × List Token) :=
  match matchToken .gt tokens with
  | some (_, tokens) => some (">", tokens)
  | none => match matchToken .gte tokens with
  | some (_, tokens) => some (">=", tokens)
  | none => match matchToken .lt tokens with
  | some (_, tokens) => some ("<", tokens)
  | none => match matchToken .lte tokens with
  | some (_, tokens) => some ("<=", tokens)
  | none => match matchToken .is tokens with
  | some (_, tokens) => match matchToken .not tokens with
    | some (_, tokens) => some ("is_not", tokens)
    | none => some ("is", tokens)
  | none => none

-- What follows a path in `comparison`.
def fieldTest (fuel : Nat) (field : String) (tokens : List Token) : Parsed (Node × List Token) :=
  match matchToken .exists tokens with
  | some (_, tokens) => return (.existsOp field false, tokens)
  | none => match matchToken .not tokens with
  | some (_, tokens) => match matchToken .exists tokens with
    | none => fail "'exists' after 'not'" tokens
    | some (_, tokens) => return (.existsOp field true, tokens)
  | none => match matchToken .has tokens with
  | some (_, tokens) => parseHas tools fuel field tokens
  | none => match compareOperator tokens with
  | some (op, tokens) => do
    let (value, tokens) ← parseValue tools tokens
    return (.compareOp field op value, tokens)
  | none =>
    if isAtEnd tokens || check .and tokens || check .or tokens || check .rParen tokens then
      return (.compareOp field "is" (.bool true), tokens)
    else fail "comparison operator" tokens

mutual

def orExpr : Nat → List Token → Parsed (Node × List Token)
  | 0, _ => outOfFuel
  | fuel + 1, tokens => do
    let (left, tokens) ← andExpr fuel tokens
    orLoop fuel left tokens

def orLoop : Nat → Node → List Token → Parsed (Node × List Token)
  | 0, _, _ => outOfFuel
  | fuel + 1, left, tokens => match matchToken .or tokens with
    | some (_, tokens) => do
      let (right, tokens) ← andExpr fuel tokens
      orLoop fuel (.binaryOp "or" left right) tokens
    | none => return (left, tokens)

def andExpr : Nat → List Token → Parsed (Node × List Token)
  | 0, _ => outOfFuel
  | fuel + 1, tokens => do
    let (left, tokens) ← comparison fuel tokens
    andLoop fuel left tokens

def andLoop : Nat → Node → List Token → Parsed (Node × List Token)
  | 0, _, _ => outOfFuel
  | fuel + 1, left, tokens => match matchToken .and tokens with
    | some (_, tokens) => do
      let (right, tokens) ← comparison fuel tokens
      andLoop fuel (.binaryOp "and" left right) tokens
    | none => return (left, tokens)

def comparison : Nat → List Token → Parsed (Node × List Token)
  | 0, _ => outOfFuel
  | fuel + 1, tokens => match matchToken .lParen tokens with
    | some (_, tokens) => do
      let (node, tokens) ← orExpr fuel tokens
      match matchToken .rParen tokens with
      | none => fail "')'" tokens
      | some (_, tokens) => return (node, tokens)
    | none => match matchToken .not tokens with
    | some (_, tokens) => do
      let (child, tokens) ← comparison fuel tokens
      return (.unaryOp "not" child, tokens)
    | none => match matchToken .ident tokens with
    | some (token, tokens) => do
      let (field, tokens) ← fieldPath fuel token.value tokens
      fieldTest tools fuel field tokens
    | none =>
      let pos := (current tokens).pos
      let got := (current tokens).tokenType.debug
      throw s!"expected field name at position {pos}, got {got}"

end

def parse (tokens : List Token) : Parsed Node :=
  if tokens = [] ∨ tokens.length = 1 ∧ isAtEnd tokens then throw "empty query"
  else do
    let (node, _) ← orExpr tools (4 * tokens.length + 3) tokens
    return node

def parseQuery (query : String) : Parsed Node := do
  let tokens ← ExceptT.mk (tokenize tools query)
  parse tools tokens

end Query

end JasonDb
