import JasonDb.Json

namespace JasonDb

-- `char::is_whitespace`
def isWhitespace (c : Char) : Bool :=
  let n := c.toNat
  9 ≤ n ∧ n ≤ 13 ∨ n = 0x20 ∨ n = 0x85 ∨ n = 0xA0 ∨ n = 0x1680 ∨ 0x2000 ≤ n ∧ n ≤ 0x200A ∨
    n = 0x2028 ∨ n = 0x2029 ∨ n = 0x202F ∨ n = 0x205F ∨ n = 0x3000

-- What the query language takes from the standard library: the letters, the digits and the lower
-- case of Unicode, and the 64-bit float that a text is read as: none for a text that is no number,
-- and for a number that is too large the infinity, which is no `Decimal`.
structure QueryTools where
  isAlphabetic : Char → Bool
  isNumeric : Char → Bool
  toLowercase : String → String
  parseF64 : String → Option (Option Decimal)
  alphabetic_ascii : ∀ c, c.toNat < 128 → isAlphabetic c = c.isAlpha
  numeric_ascii : ∀ c, c.toNat < 128 → isNumeric c = c.isDigit
  blank_neither : ∀ c, isWhitespace c → isAlphabetic c = false ∧ isNumeric c = false
  lowercase_ascii : ∀ text : List Char, (∀ c ∈ text, c.toNat < 128) →
    toLowercase (String.ofList text) = String.ofList (text.map Char.toLower)

namespace Query

inductive TokenType where
  | eof
  | illegal
  | ident
  | string
  | number
  | true
  | false
  | null
  | gt
  | gte
  | lt
  | lte
  | is
  | isNot
  | and
  | or
  | not
  | exists
  | has
  | any
  | all
  | lParen
  | rParen
  | lBracket
  | rBracket
  | comma
  | dot
deriving DecidableEq

def TokenType.debug : TokenType → String
  | .eof => "Eof"
  | .illegal => "Illegal"
  | .ident => "Ident"
  | .string => "String"
  | .number => "Number"
  | .true => "True"
  | .false => "False"
  | .null => "Null"
  | .gt => "Gt"
  | .gte => "Gte"
  | .lt => "Lt"
  | .lte => "Lte"
  | .is => "Is"
  | .isNot => "IsNot"
  | .and => "And"
  | .or => "Or"
  | .not => "Not"
  | .exists => "Exists"
  | .has => "Has"
  | .any => "Any"
  | .all => "All"
  | .lParen => "LParen"
  | .rParen => "RParen"
  | .lBracket => "LBracket"
  | .rBracket => "RBracket"
  | .comma => "Comma"
  | .dot => "Dot"

structure Token where
  tokenType : TokenType
  value : String
  pos : Nat
deriving DecidableEq

-- `'\0'`, which the lexer also reads behind the end of the text.
def nul : Char := '\x00'

def isQuote (c : Char) : Bool := c = '"' ∨ c = '\''

-- A string goes on up to its quote, or up to `'\0'`.
def inString (quote c : Char) : Bool := c ≠ quote ∧ c ≠ nul

-- The tokens of one character that begin no longer one.
def symbol : Char → Option TokenType
  | '(' => some .lParen
  | ')' => some .rParen
  | '[' => some .lBracket
  | ']' => some .rBracket
  | ',' => some .comma
  | '.' => some .dot
  | _ => none

-- `rest` is what has not been passed: it begins with the character `ch` of the source, and `pos`
-- counts the characters read.
structure Lexer where
  rest : List Char
  pos : Nat

namespace Lexer

def new (input : List Char) : Lexer := ⟨input, 1⟩

def ch (lexer : Lexer) : Char := lexer.rest.headD nul

def peekChar (lexer : Lexer) : Char := lexer.rest.tail.headD nul

def readChar (lexer : Lexer) : Lexer := ⟨lexer.rest.tail, lexer.pos + 1⟩

-- Characters are read as long as they pass a test, which `'\0'` never does.
def readWhile (p : Char → Bool) (lexer : Lexer) : List Char × Lexer :=
  let text := lexer.rest.takeWhile p
  (text, ⟨lexer.rest.dropWhile p, lexer.pos + text.length⟩)

def skipWhitespace (lexer : Lexer) : Lexer := (lexer.readWhile isWhitespace).2

def readString (lexer : Lexer) : String × Lexer :=
  let quote := lexer.ch
  let (text, lexer) := lexer.readChar.readWhile (inString quote)
  (String.ofList text, lexer.readChar)

end Lexer

variable (tools : QueryTools)

def lookupKeyword (ident : String) : TokenType :=
  match tools.toLowercase ident with
  | "and" => .and
  | "or" => .or
  | "not" => .not
  | "is" => .is
  | "exists" => .exists
  | "has" => .has
  | "any" => .any
  | "all" => .all
  | "true" => .true
  | "false" => .false
  | "null" => .null
  | _ => .ident

def isLetter (c : Char) : Bool := tools.isAlphabetic c

def isDigit (c : Char) : Bool := tools.isNumeric c

def isWordChar (c : Char) : Bool := isLetter tools c ∨ isDigit tools c ∨ c = '_'

namespace Lexer

def readIdentifier (lexer : Lexer) : String × Lexer :=
  let (text, lexer) := lexer.readWhile (isWordChar tools)
  (String.ofList text, lexer)

def readNumber (lexer : Lexer) : String × Lexer :=
  let (text, lexer) := lexer.readWhile (isDigit tools)
  if lexer.ch = '.' ∧ isDigit tools lexer.peekChar then
    let (fraction, lexer) := lexer.readChar.readWhile (isDigit tools)
    (String.ofList (text ++ '.' :: fraction), lexer)
  else (String.ofList text, lexer)

def nextToken (lexer : Lexer) : Token × Lexer :=
  let lexer := lexer.skipWhitespace
  let tokenPos := lexer.pos - 1
  if lexer.ch = nul then (⟨.eof, "", tokenPos⟩, lexer)
  else match symbol lexer.ch with
  | some tokenType => (⟨tokenType, String.ofList [lexer.ch], tokenPos⟩, lexer.readChar)
  | none =>
    if lexer.ch = '>' then
      if lexer.peekChar = '=' then (⟨.gte, ">=", tokenPos⟩, lexer.readChar.readChar)
      else (⟨.gt, ">", tokenPos⟩, lexer.readChar)
    else if lexer.ch = '<' then
      if lexer.peekChar = '=' then (⟨.lte, "<=", tokenPos⟩, lexer.readChar.readChar)
      else (⟨.lt, "<", tokenPos⟩, lexer.readChar)
    else if isQuote lexer.ch then
      let (value, lexer) := lexer.readString
      (⟨.string, value, tokenPos⟩, lexer)
    else if isLetter tools lexer.ch then
      let (value, lexer) := lexer.readIdentifier tools
      (⟨lookupKeyword tools value, value, tokenPos⟩, lexer)
    else if isDigit tools lexer.ch then
      let (value, lexer) := lexer.readNumber tools
      (⟨.number, value, tokenPos⟩, lexer)
    else (⟨.illegal, String.ofList [lexer.ch], tokenPos⟩, lexer.readChar)

-- The loop of `tokenize`, none when the fuel is used up.
def tokens : Nat → Lexer → Option (Except String (List Token))
  | 0, _ => none
  | fuel + 1, lexer =>
    let (token, lexer) := lexer.nextToken tools
    if token.tokenType = .illegal then
      let pos := token.pos
      let value := token.value
      some (.error s!"illegal token at position {pos}: {value}")
    else if token.tokenType = .eof then some (.ok [token])
    else (tokens fuel lexer).map fun result => result.map (token :: ·)

end Lexer

def tokenize (query : String) : Option (Except String (List Token)) :=
  (Lexer.new query.toList).tokens tools (query.length + 1)

end Query

end JasonDb
