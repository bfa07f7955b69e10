import JasonDb.Query.Accepts

namespace JasonDb.Query

variable (tools : QueryTools)

-- A letter, then letters, digits or underscores, and no keyword.
structure Ident where
  first : Char
  later : List Char
  letter : isLetter tools first
  chars : ∀ c ∈ later, isWordChar tools c
  plain : lookupKeyword tools (String.ofList (first :: later)) = .ident

-- Digits of ASCII and perhaps a fraction, which are read as a finite float.
structure Numeral where
  digit : Char
  digits : List Char
  fraction : Option (Char × List Char)
  value : Decimal
  ascii : ∀ c ∈ digit :: digits ++ (fraction.elim [] fun f => f.1 :: f.2), c.isDigit
  parsed : tools.parseF64
    (String.ofList (digit :: digits ++ fraction.elim [] fun f => '.' :: f.1 :: f.2)) = some (some value)

-- A string without `'\0'` and without one of the two quotes.
structure Quotable where
  value : List Char
  plain : nul ∉ value
  open_quote : '"' ∉ value ∨ '\'' ∉ value

structure Path where
  first : Ident tools
  later : List (Ident tools)

inductive Literal where
  | bool (value : Bool)
  | null
  | number (numeral : Numeral tools)
  | string (quotable : Quotable)

inductive Comparator where
  | gt
  | gte
  | lt
  | lte
  | is
  | isNot

-- The queries that can be written down.
inductive Ast where
  | or (left right : Ast)
  | and (left right : Ast)
  | not (child : Ast)
  | compare (path : Path tools) (op : Comparator) (value : Literal tools)
  | existence (path : Path tools) (negated : Bool)
  | has (path : Path tools) (value : Literal tools)
  | hasAny (path : Path tools) (values : List (Literal tools))
  | hasAll (path : Path tools) (values : List (Literal tools))

variable {tools}

section Trees

def Ident.text (ident : Ident tools) : List Char := ident.first :: ident.later

def Numeral.text (numeral : Numeral tools) : List Char :=
  numeral.digit :: numeral.digits ++ numeral.fraction.elim [] fun f => '.' :: f.1 :: f.2

def Path.field (path : Path tools) : String :=
  path.later.foldl (fun field ident => field ++ "." ++ String.ofList ident.text) (String.ofList path.first.text)

def Literal.json : Literal tools → Json
  | .bool value => .bool value
  | .null => .null
  | .number numeral => .num (.float numeral.value)
  | .string quotable => .str (String.ofList quotable.value)

def Comparator.op : Comparator → String
  | .gt => ">"
  | .gte => ">="
  | .lt => "<"
  | .lte => "<="
  | .is => "is"
  | .isNot => "is_not"

-- The tree that a query is.
def Ast.node : Ast tools → Node
  | or left right => .binaryOp "or" left.node right.node
  | and left right => .binaryOp "and" left.node right.node
  | not child => .unaryOp "not" child.node
  | compare path op value => .compareOp path.field op.op value.json
  | existence path negated => .existsOp path.field negated
  | has path value => .hasOp path.field "has" [value.json]
  | hasAny path values => .hasOp path.field "has_any" (values.map Literal.json)
  | hasAll path values => .hasOp path.field "has_all" (values.map Literal.json)

end Trees

section Texts

def Path.text (path : Path tools) : List Char :=
  path.first.text ++ path.later.flatMap fun ident => '.' :: ident.text

def Quotable.quote (quotable : Quotable) : Char := if '"' ∈ quotable.value then '\'' else '"'

def Literal.text : Literal tools → List Char
  | .bool true => "true".toList
  | .bool false => "false".toList
  | .null => "null".toList
  | .number numeral => numeral.text
  | .string quotable => quotable.quote :: (quotable.value ++ [quotable.quote])

def Comparator.text : Comparator → List Char
  | .gt => ">".toList
  | .gte => ">=".toList
  | .lt => "<".toList
  | .lte => "<=".toList
  | .is => "is".toList
  | .isNot => "is not".toList

def listText : List (Literal tools) → List Char
  | [] => []
  | [value] => value.text
  | value :: values => value.text ++ ", ".toList ++ listText values

-- How strongly a query holds together.
def Nonterminal.rank : Nonterminal → Nat
  | .or => 0
  | .and => 1
  | .cmp => 2

def Ast.nonterminal : Ast tools → Nonterminal
  | or _ _ => .or
  | and _ _ => .and
  | _ => .cmp

-- A query where a part of the grammar is asked for, with the parentheses that this requires and
-- with those that are chosen besides.
def Ast.text (chosen : Ast tools → Bool) (place : Nonterminal) (ast : Ast tools) : List Char :=
  let inner := match ast with
    | or left right => left.text chosen .or ++ " or ".toList ++ right.text chosen .and
    | and left right => left.text chosen .and ++ " and ".toList ++ right.text chosen .cmp
    | not child => "not ".toList ++ child.text chosen .cmp
    | compare path op value => path.text ++ ' ' :: (op.text ++ ' ' :: value.text)
    | existence path false => path.text ++ " exists".toList
    | existence path true => path.text ++ " not exists".toList
    | has path value => path.text ++ " has ".toList ++ value.text
    | hasAny path values => path.text ++ " has any [".toList ++ listText values ++ [']']
    | hasAll path values => path.text ++ " has all [".toList ++ listText values ++ [']']
  if chosen ast ∨ ast.nonterminal.rank < place.rank then '(' :: (inner ++ [')']) else inner

-- Every part in parentheses.
def Ast.fullText (ast : Ast tools) : String := String.ofList (ast.text (fun _ => true) .or)

-- The parentheses that are required alone.
def Ast.plainText (ast : Ast tools) : String := String.ofList (ast.text (fun _ => false) .or)

end Texts

section Chunks

variable {text text' : List Char} {P Q R : List Token → Prop}

-- What may follow a word or a number without going on with it.
def Boundary (rest : List Char) : Prop := ∀ c ∈ rest.head?, c ∈ [' ', ')', ',', ']']

theorem Boundary.ascii (tools : QueryTools) {rest : List Char} (h : Boundary rest) {c : Char}
    (hc : c ∈ rest.head?) :
    c ≠ '.' ∧ c ≠ '=' ∧ isDigit tools c = false ∧ isWordChar tools c = false := by
  have hmem := h c hc
  have hfacts : [' ', ')', ',', ']'].all fun c => c.toNat < 128 ∧ c.isAlpha = false ∧ c.isDigit = false ∧
      c ≠ '.' ∧ c ≠ '=' ∧ c ≠ '_' := by decide
  simp only [List.all_eq_true, decide_eq_true_eq] at hfacts
  obtain ⟨hascii, halpha, hdigit, hdot, heq, hunderscore⟩ := hfacts c hmem
  have hnumeric : isDigit tools c = false := by rw [isDigit, tools.numeric_ascii c hascii, hdigit]
  have hletter : isLetter tools c = false := by rw [isLetter, tools.alphabetic_ascii c hascii, halpha]
  exact ⟨hdot, heq, hnumeric, by simp [isWordChar, hnumeric, hletter, hunderscore]⟩

-- Where something is left behind it, a text gives tokens of a kind.
structure Chunk (tools : QueryTools) (text : List Char) (P : List Token → Prop) : Prop where
  plain : nul ∉ text
  lexes : ∀ pos rest tokens, Boundary rest → Lexes tools (pos + text.length) rest tokens →
    ∃ taken, P taken ∧ Lexes tools pos (text ++ rest) (taken ++ tokens)

-- One token, and a token of a kind in front of others.
def Single (P : Token → Prop) (tokens : List Token) : Prop := ∃ token, tokens = [token] ∧ P token

def Leading (tokenType : TokenType) (P : List Token → Prop) (tokens : List Token) : Prop :=
  ∃ token behind, tokens = token :: behind ∧ token.tokenType = tokenType ∧ P behind

theorem Chunk.mono (h : Chunk tools text P) (hPQ : ∀ tokens, P tokens → Q tokens) : Chunk tools text Q := by
  refine ⟨h.plain, fun pos rest tokens hrest hlexes => ?_⟩
  obtain ⟨taken, htaken, hresult⟩ := h.lexes pos rest tokens hrest hlexes
  exact ⟨taken, hPQ taken htaken, hresult⟩

theorem Chunk.append (h : Chunk tools text P) (h' : Chunk tools text' Q) (hne : text' ≠ [])
    (hstart : Boundary text') (hR : ∀ tokens tokens', P tokens → Q tokens' → R (tokens ++ tokens')) :
    Chunk tools (text ++ text') R := by
  refine ⟨by simp [h.plain, h'.plain], fun pos rest tokens hrest hlexes => ?_⟩
  rw [List.length_append, ← Nat.add_assoc] at hlexes
  obtain ⟨taken', htaken', hlexes'⟩ := h'.lexes _ rest tokens hrest hlexes
  have hstart' : Boundary (text' ++ rest) := by
    intro c hc
    rw [List.head?_append_of_ne_nil _ hne] at hc
    exact hstart c hc
  obtain ⟨taken, htaken, hlexes''⟩ := h.lexes pos _ _ hstart' hlexes'
  refine ⟨taken ++ taken', hR taken taken' htaken htaken', ?_⟩
  rwa [List.append_assoc, List.append_assoc]

theorem Chunk.blank (h : Chunk tools text P) : Chunk tools (' ' :: text) P := by
  refine ⟨by simpa [nul] using h.plain, fun pos rest tokens hrest hlexes => ?_⟩
  rw [List.length_cons, Nat.add_comm text.length 1, ← Nat.add_assoc] at hlexes
  obtain ⟨taken, htaken, hlexes'⟩ := h.lexes _ rest tokens hrest hlexes
  exact ⟨taken, htaken, .blank (by decide) hlexes'⟩

-- A bracket, a parenthesis or a comma, whatever follows it.
theorem Chunk.symbol {c : Char} {tokenType : TokenType} (hc : symbol c = some tokenType)
    (h : Chunk tools text P) : Chunk tools (c :: text) (Leading tokenType P) := by
  have hnul : c ≠ nul := by
    rintro rfl
    simp [Query.symbol, nul] at hc
  refine ⟨by simpa [hnul.symm] using h.plain, fun pos rest tokens hrest hlexes => ?_⟩
  rw [List.length_cons, Nat.add_comm text.length 1, ← Nat.add_assoc] at hlexes
  obtain ⟨taken, htaken, hlexes'⟩ := h.lexes _ rest tokens hrest hlexes
  exact ⟨⟨tokenType, String.ofList [c], pos⟩ :: taken, ⟨_, taken, rfl, rfl, htaken⟩, .symbol hc hlexes'⟩

theorem Chunk.nil (h : P []) : Chunk tools [] P :=
  ⟨by simp, fun _ _ _ _ hlexes => ⟨[], h, hlexes⟩⟩

-- A word, whose kind is that of the keyword it is.
theorem Chunk.word {c : Char} {chars : List Char} (hc : isLetter tools c)
    (hchars : ∀ x ∈ chars, isWordChar tools x)
    (hP : ∀ pos, P [⟨lookupKeyword tools (String.ofList (c :: chars)), String.ofList (c :: chars), pos⟩]) :
    Chunk tools (c :: chars) P := by
  have hword : isWordChar tools c := by simp [isWordChar, hc]
  refine ⟨?_, fun pos rest tokens hrest hlexes => ?_⟩
  · intro hmem
    rcases List.mem_cons.mp hmem with rfl | hmem
    · exact (plain_wordChar hword).1 rfl
    · exact (plain_wordChar (hchars nul hmem)).1 rfl
  · refine ⟨_, hP pos, ?_⟩
    rw [List.length_cons, ← Nat.add_assoc] at hlexes
    exact .word hc hchars (fun x hx => (hrest.ascii tools hx).2.2.2) hlexes

-- The words of the grammar, as they are written.
def keywords : List (List Char × TokenType) :=
  [("and".toList, .and), ("or".toList, .or), ("not".toList, .not), ("is".toList, .is),
    ("exists".toList, .exists), ("has".toList, .has), ("any".toList, .any), ("all".toList, .all),
    ("true".toList, .true), ("false".toList, .false), ("null".toList, .null)]

theorem keywords_ascii : ∀ entry ∈ keywords, ∀ c ∈ entry.1, c.toNat < 128 ∧ c.isAlpha := by
  have hall : keywords.all fun entry => entry.1.all fun c => c.toNat < 128 ∧ c.isAlpha := by decide
  simpa only [List.all_eq_true, decide_eq_true_eq] using hall

theorem lookupKeyword_keywords (tools : QueryTools) :
    ∀ entry ∈ keywords, lookupKeyword tools (String.ofList entry.1) = entry.2 := by
  intro entry hentry
  have hlower := tools.lowercase_ascii entry.1 fun c hc => (keywords_ascii entry hentry c hc).1
  unfold lookupKeyword
  rw [hlower]
  clear hlower
  revert entry
  decide

theorem Chunk.keyword {chars : List Char} {tokenType : TokenType} (h : (chars, tokenType) ∈ keywords) :
    Chunk tools chars (Single (·.tokenType = tokenType)) := by
  have hletters : ∀ x ∈ chars, isLetter tools x := by
    intro x hx
    obtain ⟨hascii, halpha⟩ := keywords_ascii _ h x hx
    rw [isLetter, tools.alphabetic_ascii x hascii, halpha]
  have hkind := lookupKeyword_keywords tools _ h
  cases chars with
  | nil => exact absurd h (by cases tokenType <;> decide)
  | cons c chars =>
    refine .word (hletters c (by simp)) (fun x hx => ?_) fun _ => ⟨_, rfl, hkind⟩
    simp [isWordChar, hletters x (by simp [hx])]

theorem Ident.chunk (ident : Ident tools) : Chunk tools ident.text (Single (·.tokenType = .ident)) :=
  .word ident.letter ident.chars fun _ => ⟨_, rfl, ident.plain⟩

end Chunks

section Parts

theorem head_names (later : List (Ident tools)) {rest : List Char} (hrest : Boundary rest) :
    ∀ x ∈ ((later.flatMap fun ident => '.' :: ident.text) ++ rest).head?, isWordChar tools x = false := by
  intro x hx
  cases later with
  | nil => exact (hrest.ascii tools hx).2.2.2
  | cons ident later =>
    obtain rfl : '.' = x := by simpa using hx
    by_contra hword
    exact absurd (not_special_wordChar (by simpa using hword)) (by decide)

-- The names of a path behind the first one.
theorem lexes_names (later : List (Ident tools)) {pos : Nat} {rest : List Char} {tokens front : List Token}
    {field : String} (hrest : Boundary rest) (hfront : PathOf front field)
    (hlexes : Lexes tools (pos + (later.flatMap fun ident => '.' :: ident.text).length) rest tokens) :
    ∃ taken, PathOf (front ++ taken)
        (later.foldl (fun field ident => field ++ "." ++ String.ofList ident.text) field) ∧
      Lexes tools pos ((later.flatMap fun ident => '.' :: ident.text) ++ rest) (taken ++ tokens) := by
  induction later generalizing pos front field with
  | nil => exact ⟨[], by rwa [List.append_nil], hlexes⟩
  | cons ident later ih =>
    simp only [List.flatMap_cons, List.length_append, List.length_cons] at hlexes
    have hpos : pos + (ident.text.length + 1 + (later.flatMap fun ident => '.' :: ident.text).length) =
        pos + 1 + ident.later.length + 1 + (later.flatMap fun ident => '.' :: ident.text).length := by
      simp only [Ident.text, List.length_cons]
      omega
    rw [hpos] at hlexes
    let dot : Token := ⟨.dot, String.ofList ['.'], pos⟩
    let name : Token := ⟨lookupKeyword tools (String.ofList ident.text), String.ofList ident.text, pos + 1⟩
    have hnames : PathOf (front ++ [dot, name]) (field ++ "." ++ String.ofList ident.text) :=
      .dot hfront rfl ident.plain
    obtain ⟨taken, htaken, hlater⟩ := ih hnames hlexes
    refine ⟨dot :: name :: taken, by simpa using htaken, ?_⟩
    have hword := Lexes.word ident.letter ident.chars (head_names later hrest) hlater
    have htext : ((ident :: later).flatMap fun ident => '.' :: ident.text) ++ rest = '.' :: ident.first ::
        (ident.later ++ ((later.flatMap fun ident => '.' :: ident.text) ++ rest)) := by
      simp [Ident.text]
    rw [htext]
    exact .symbol rfl hword

theorem Path.chunk (path : Path tools) : Chunk tools path.text (PathOf · path.field) := by
  have hplain : ∀ ident : Ident tools, nul ∉ ident.text := fun ident => ident.chunk.plain
  have hdot : ¬nul = '.' := by decide
  refine ⟨by simp [Path.text, hplain, hdot], fun pos rest tokens hrest hlexes => ?_⟩
  let first : Token := ⟨lookupKeyword tools (String.ofList path.first.text), String.ofList path.first.text, pos⟩
  have hpos : pos + path.text.length = pos + path.first.later.length + 1 +
      (path.later.flatMap fun ident => '.' :: ident.text).length := by
    simp only [Path.text, Ident.text, List.length_append, List.length_cons]
    omega
  rw [hpos] at hlexes
  have hfirst : PathOf [first] first.value := .name path.first.plain
  obtain ⟨taken, htaken, hlater⟩ := lexes_names path.later hrest hfirst hlexes
  refine ⟨first :: taken, htaken, ?_⟩
  have hword := Lexes.word path.first.letter path.first.chars (head_names path.later hrest) hlater
  have htext : path.text ++ rest = path.first.first :: (path.first.later ++
      ((path.later.flatMap fun ident => '.' :: ident.text) ++ rest)) := by
    simp [Path.text, Ident.text]
  rw [htext]
  exact hword

theorem ascii_digit (tools : QueryTools) {c : Char} (h : c.isDigit) :
    isDigit tools c ∧ isLetter tools c = false := by
  have hval := toNat_of_isDigit h
  have halpha : c.isAlpha = false := by
    by_contra halpha
    have := toNat_of_isAlpha (Bool.not_eq_false _ ▸ halpha)
    omega
  constructor
  · rw [isDigit, tools.numeric_ascii c (by omega), h]
  · rw [isLetter, tools.alphabetic_ascii c (by omega), halpha]

theorem Numeral.chunk (numeral : Numeral tools) :
    Chunk tools numeral.text (Single (ValueOf tools · (.num (.float numeral.value)))) := by
  obtain ⟨digit, digits, fraction, value, hascii, hparsed⟩ := numeral
  have hdigit := ascii_digit tools (hascii digit (by simp))
  have hdigits : ∀ x ∈ digits, isDigit tools x := fun x hx => (ascii_digit tools (hascii x (by simp [hx]))).1
  cases fraction with
  | none =>
    have htext : Numeral.text ⟨digit, digits, none, value, hascii, hparsed⟩ = digit :: digits := by
      simp [Numeral.text]
    have hvalue : tools.parseF64 (String.ofList (digit :: digits)) = some (some value) := by
      rw [← htext]
      exact hparsed
    rw [htext]
    refine ⟨?_, fun pos rest tokens hrest hlexes => ?_⟩
    · intro hmem
      rcases List.mem_cons.mp hmem with rfl | hmem
      · exact (plain_digit hdigit.1).1 rfl
      · exact (plain_digit (hdigits nul hmem)).1 rfl
    · rw [List.length_cons, ← Nat.add_assoc] at hlexes
      refine ⟨[⟨.number, String.ofList (digit :: digits), pos⟩], ⟨_, rfl, .number rfl hvalue⟩, ?_⟩
      refine .integer hdigit.1 hdigit.2 hdigits (fun x hx => (hrest.ascii tools hx).2.2.1) (fun x rest' heq => ?_) hlexes
      exact absurd rfl (hrest.ascii tools (c := '.') (by rw [heq]; rfl)).1
  | some fraction =>
    obtain ⟨d, fraction⟩ := fraction
    have hd := (ascii_digit tools (hascii d (by simp))).1
    have hfraction : ∀ x ∈ fraction, isDigit tools x := fun x hx => (ascii_digit tools (hascii x (by simp [hx]))).1
    have htext : Numeral.text ⟨digit, digits, some (d, fraction), value, hascii, hparsed⟩ =
        digit :: (digits ++ '.' :: d :: fraction) := by
      simp [Numeral.text]
    have hvalue : tools.parseF64 (String.ofList (digit :: (digits ++ '.' :: d :: fraction))) =
        some (some value) := by
      rw [← htext]
      exact hparsed
    rw [htext]
    refine ⟨?_, fun pos rest tokens hrest hlexes => ?_⟩
    · intro hmem
      have hplain : ∀ x, isDigit tools x → nul ≠ x := fun x hx => (plain_digit hx).1.symm
      have hdot : nul ≠ '.' := by decide
      simp only [List.mem_cons, List.mem_append, hplain _ hdigit.1, hdot, hplain _ hd, false_or] at hmem
      rcases hmem with hmem | hmem
      · exact hplain _ (hdigits nul hmem) rfl
      · exact hplain _ (hfraction nul hmem) rfl
    · have hpos : pos + (digit :: (digits ++ '.' :: d :: fraction)).length =
          pos + digits.length + fraction.length + 3 := by
        simp only [List.length_cons, List.length_append]
        omega
      rw [hpos] at hlexes
      refine ⟨[⟨.number, String.ofList (digit :: (digits ++ '.' :: d :: fraction)), pos⟩],
        ⟨_, rfl, .number rfl hvalue⟩, ?_⟩
      have hdecimal := Lexes.decimal hdigit.1 hdigit.2 hdigits hd hfraction
        (fun x hx => (hrest.ascii tools hx).2.2.1) hlexes
      simpa using hdecimal

theorem Quotable.chunk (quotable : Quotable) :
    Chunk tools (quotable.quote :: (quotable.value ++ [quotable.quote]))
      (Single (ValueOf tools · (.str (String.ofList quotable.value)))) := by
  have hquote : isQuote quotable.quote ∧ quotable.quote ∉ quotable.value := by
    unfold Quotable.quote
    split_ifs with h
    · exact ⟨rfl, quotable.open_quote.resolve_left (not_not_intro h)⟩
    · exact ⟨rfl, h⟩
  have hnul : quotable.quote ≠ nul := by
    rintro heq
    rw [heq] at hquote
    exact absurd hquote.1 (by decide)
  refine ⟨by simp [quotable.plain, hnul.symm], fun pos rest tokens _ hlexes => ?_⟩
  have hpos : pos + (quotable.quote :: (quotable.value ++ [quotable.quote])).length =
      pos + quotable.value.length + 2 := by
    simp only [List.length_cons, List.length_append, List.length_nil]
    omega
  rw [hpos] at hlexes
  refine ⟨[⟨.string, String.ofList quotable.value, pos⟩], ⟨_, rfl, .string rfl⟩, ?_⟩
  have hstring := Lexes.string hquote.1 hquote.2 hlexes
  simpa using hstring

theorem Chunk.value {word : List Char} {tokenType : TokenType} {value : Json}
    (hword : (word, tokenType) ∈ keywords)
    (h : ∀ token, token.tokenType = tokenType → ValueOf tools token value) :
    Chunk tools word (Single (ValueOf tools · value)) := by
  refine (Chunk.keyword hword).mono ?_
  rintro _ ⟨token, rfl, htoken⟩
  exact ⟨token, rfl, h token htoken⟩

theorem Literal.chunk (value : Literal tools) :
    Chunk tools value.text (Single (ValueOf tools · value.json)) := by
  cases value with
  | bool value =>
    cases value with
    | true =>
      have hword : ("true".toList, TokenType.true) ∈ keywords := by decide
      exact .value hword fun token => .true
    | false =>
      have hword : ("false".toList, TokenType.false) ∈ keywords := by decide
      exact .value hword fun token => .false
  | null =>
    have hword : ("null".toList, TokenType.null) ∈ keywords := by decide
    exact .value hword fun token => .null
  | number numeral => exact numeral.chunk
  | string quotable => exact quotable.chunk

theorem Chunk.order {c : Char} {one both : TokenType} (hc : orderSign c = some (one, both)) :
    Chunk tools [c] (Single (·.tokenType = one)) := by
  refine ⟨?_, fun pos rest tokens hrest hlexes => ?_⟩
  · rcases orderSign_cases hc with ⟨rfl, -⟩ | ⟨rfl, -⟩ <;> decide
  · have hne : rest.head? ≠ some '=' := by
      intro heq
      have := hrest '=' heq
      exact absurd this (by decide)
    exact ⟨[⟨one, String.ofList [c], pos⟩], ⟨_, rfl, rfl⟩, .order hc hne hlexes⟩

theorem Chunk.orderEq {c : Char} {one both : TokenType} (hc : orderSign c = some (one, both)) :
    Chunk tools [c, '='] (Single (·.tokenType = both)) := by
  refine ⟨?_, fun pos rest tokens _ hlexes => ?_⟩
  · rcases orderSign_cases hc with ⟨rfl, -⟩ | ⟨rfl, -⟩ <;> decide
  · exact ⟨[⟨both, String.ofList [c, '='], pos⟩], ⟨_, rfl, rfl⟩, .orderEq hc hlexes⟩

-- A blank between two texts.
theorem Chunk.then {P Q R : List Token → Prop} {text behind : List Char} (h : Chunk tools text P)
    (h' : Chunk tools behind Q) (hR : ∀ tokens tokens', P tokens → Q tokens' → R (tokens ++ tokens')) :
    Chunk tools (text ++ ' ' :: behind) R :=
  h.append h'.blank (by simp) (by simp [Boundary]) hR

theorem Chunk.wordThen {P : List Token → Prop} {word behind : List Char} {tokenType : TokenType}
    (hword : (word, tokenType) ∈ keywords) (h : Chunk tools behind P) :
    Chunk tools (word ++ ' ' :: behind) (Leading tokenType P) := by
  refine (Chunk.keyword hword).then h ?_
  rintro _ tokens' ⟨token, rfl, htoken⟩ htokens'
  exact ⟨token, tokens', rfl, htoken, htokens'⟩

theorem Comparator.chunk (op : Comparator) : Chunk tools op.text (OperatorOf · op.op) := by
  have hsingle : ∀ {text : List Char} {tokenType : TokenType} {op : String},
      Chunk tools text (Single (·.tokenType = tokenType)) →
      (∀ token : Token, token.tokenType = tokenType → OperatorOf [token] op) →
      Chunk tools text (OperatorOf · op) := by
    intro text tokenType op h hop
    refine h.mono ?_
    rintro _ ⟨token, rfl, htoken⟩
    exact hop token htoken
  have hgt : orderSign '>' = some (.gt, .gte) := rfl
  have hlt : orderSign '<' = some (.lt, .lte) := rfl
  have his : ("is".toList, TokenType.is) ∈ keywords := by decide
  have hnot : ("not".toList, TokenType.not) ∈ keywords := by decide
  cases op with
  | gt => exact hsingle (.order hgt) fun token => .gt
  | gte => exact hsingle (.orderEq hgt) fun token => .gte
  | lt => exact hsingle (.order hlt) fun token => .lt
  | lte => exact hsingle (.orderEq hlt) fun token => .lte
  | is => exact hsingle (.keyword his) fun token => .is
  | isNot =>
    refine (Chunk.wordThen his (.keyword hnot)).mono ?_
    rintro _ ⟨token, _, rfl, htoken, not, rfl, hnot⟩
    exact .isNot htoken hnot

theorem list_chunk (values : List (Literal tools)) :
    Chunk tools (listText values) (ListOf tools · (values.map Literal.json)) := by
  have hcomma : symbol ',' = some .comma := rfl
  induction values with
  | nil => exact .nil .nil
  | cons value values ih =>
    cases values with
    | nil =>
      refine value.chunk.mono ?_
      rintro _ ⟨token, rfl, htoken⟩
      exact .last htoken
    | cons next values =>
      have htext : listText (value :: next :: values) = value.text ++ ',' :: ' ' :: listText (next :: values) := by
        simp [listText]
      rw [htext]
      refine value.chunk.append (ih.blank.symbol hcomma) (by simp) (by simp [Boundary]) ?_
      rintro _ _ ⟨token, rfl, htoken⟩ ⟨comma, list, rfl, hcomma, hlist⟩
      exact .cons htoken hcomma hlist

-- A text between two symbols.
theorem Chunk.enclosed {P : List Token → Prop} {c d : Char} {left right : TokenType} {text : List Char}
    (hc : Query.symbol c = some left) (hd : Query.symbol d = some right) (hbound : Boundary [d])
    (h : Chunk tools text P) : Chunk tools (c :: (text ++ [d])) fun tokens => ∃ first inner last,
      tokens = first :: (inner ++ [last]) ∧ first.tokenType = left ∧ P inner ∧ last.tokenType = right := by
  have hlast : Chunk tools [d] (Leading right (· = [])) := .symbol hd (.nil rfl)
  have hbehind : Chunk tools (text ++ [d]) fun tokens =>
      ∃ inner last, tokens = inner ++ [last] ∧ P inner ∧ last.tokenType = right := by
    refine h.append hlast (by simp) hbound ?_
    rintro inner _ hinner ⟨last, _, rfl, hlast, rfl⟩
    exact ⟨inner, last, rfl, hinner, hlast⟩
  refine (hbehind.symbol hc).mono ?_
  rintro _ ⟨first, _, rfl, hfirst, inner, last, rfl, hinner, hlast⟩
  exact ⟨first, inner, last, rfl, hfirst, hinner, hlast⟩

theorem brackets_chunk (values : List (Literal tools)) : Chunk tools ('[' :: (listText values ++ [']']))
    fun tokens => ∃ lBracket list rBracket, tokens = lBracket :: (list ++ [rBracket]) ∧
      lBracket.tokenType = .lBracket ∧ ListOf tools list (values.map Literal.json) ∧
      rBracket.tokenType = .rBracket :=
  (list_chunk values).enclosed rfl rfl (by simp [Boundary])

end Parts

section Queries

theorem Derives.weaken {a place : Nonterminal} {tokens : List Token} {node : Node}
    (h : Derives tools a false tokens node) (hrank : place.rank ≤ a.rank) :
    Derives tools place false tokens node := by
  cases a <;> cases place <;> first | exact h | exact .orOne h | exact .andOne h | exact .orOne (.andOne h) | skip
  all_goals exact absurd hrank (by decide)

theorem parens_chunk {inner : List Char} {node : Node}
    (h : Chunk tools inner (Derives tools .or false · node)) :
    Chunk tools ('(' :: (inner ++ [')'])) (Derives tools .cmp false · node) := by
  have hleft : symbol '(' = some .lParen := rfl
  have hright : symbol ')' = some .rParen := rfl
  refine (h.enclosed hleft hright (by simp [Boundary])).mono ?_
  rintro _ ⟨lParen, taken, rParen, rfl, hleft, hderives, hright⟩
  exact .parens hleft hderives hright

-- The parentheses that a place requires.
theorem place_chunk {inner : List Char} {node : Node} {a place : Nonterminal} {chosen : Bool}
    (h : Chunk tools inner (Derives tools a false · node)) :
    Chunk tools (if chosen ∨ a.rank < place.rank then '(' :: (inner ++ [')']) else inner)
      (Derives tools place false · node) := by
  split
  case isTrue =>
    have hinner : Chunk tools inner (Derives tools .or false · node) :=
      h.mono fun tokens hderives => hderives.weaken (by simp [Nonterminal.rank])
    have hcmp : place.rank ≤ Nonterminal.cmp.rank := by cases place <;> decide
    exact (parens_chunk hinner).mono fun tokens hderives => hderives.weaken hcmp
  case isFalse hno =>
    exact h.mono fun tokens hderives => hderives.weaken (by omega)

-- By induction on the query.
theorem Ast.chunk (chosen : Ast tools → Bool) (ast : Ast tools) (place : Nonterminal) :
    Chunk tools (ast.text chosen place) (Derives tools place false · ast.node) := by
  have hor : ("or".toList, TokenType.or) ∈ keywords := by decide
  have hand : ("and".toList, TokenType.and) ∈ keywords := by decide
  have hnot : ("not".toList, TokenType.not) ∈ keywords := by decide
  have hexists : ("exists".toList, TokenType.exists) ∈ keywords := by decide
  have hhas : ("has".toList, TokenType.has) ∈ keywords := by decide
  have hany : ("any".toList, TokenType.any) ∈ keywords := by decide
  have hall : ("all".toList, TokenType.all) ∈ keywords := by decide
  induction ast generalizing place with
  | or left right ihleft ihright =>
    have htext : left.text chosen .or ++ " or ".toList ++ right.text chosen .and =
        left.text chosen .or ++ ' ' :: ("or".toList ++ ' ' :: right.text chosen .and) := by simp
    refine place_chunk (a := .or) ?_
    simp only [htext]
    refine (ihleft .or).then (.wordThen hor (ihright .and)) ?_
    rintro tokens _ hleft ⟨token, tokens', rfl, htoken, hright⟩
    exact .orMore hleft htoken hright
  | and left right ihleft ihright =>
    have htext : left.text chosen .and ++ " and ".toList ++ right.text chosen .cmp =
        left.text chosen .and ++ ' ' :: ("and".toList ++ ' ' :: right.text chosen .cmp) := by simp
    refine place_chunk (a := .and) ?_
    simp only [htext]
    refine (ihleft .and).then (.wordThen hand (ihright .cmp)) ?_
    rintro tokens _ hleft ⟨token, tokens', rfl, htoken, hright⟩
    exact .andMore hleft htoken hright
  | not child ih =>
    have htext : "not ".toList ++ child.text chosen .cmp = "not".toList ++ ' ' :: child.text chosen .cmp := by simp
    refine place_chunk (a := .cmp) ?_
    simp only [htext]
    refine (Chunk.wordThen hnot (ih .cmp)).mono ?_
    rintro _ ⟨token, tokens, rfl, htoken, hchild⟩
    exact .not htoken hchild
  | compare path op value =>
    refine place_chunk (a := .cmp) (path.chunk.then (op.chunk.then (R := fun tokens => ∃ operator token,
      tokens = operator ++ [token] ∧ OperatorOf operator op.op ∧ ValueOf tools token value.json) value.chunk ?_) ?_)
    · rintro operator _ hop ⟨token, rfl, hvalue⟩
      exact ⟨operator, token, rfl, hop, hvalue⟩
    · rintro names _ hpath ⟨operator, token, rfl, hop, hvalue⟩
      exact .compare hpath hop hvalue
  | existence path negated =>
    cases negated with
    | false =>
      refine place_chunk (a := .cmp) ?_
      have htext : path.text ++ " exists".toList = path.text ++ ' ' :: "exists".toList := by simp
      simp only [htext]
      refine path.chunk.then (.keyword hexists) ?_
      rintro names _ hpath ⟨token, rfl, htoken⟩
      exact .existing hpath htoken
    | true =>
      refine place_chunk (a := .cmp) ?_
      have htext : path.text ++ " not exists".toList =
          path.text ++ ' ' :: ("not".toList ++ ' ' :: "exists".toList) := by simp
      simp only [htext]
      refine path.chunk.then (.wordThen hnot (.keyword hexists)) ?_
      rintro names _ hpath ⟨not, _, rfl, hnot, token, rfl, htoken⟩
      exact .notExisting hpath hnot htoken
  | has path value =>
    have htext : path.text ++ " has ".toList ++ value.text = path.text ++ ' ' :: ("has".toList ++ ' ' :: value.text) := by
      simp
    refine place_chunk (a := .cmp) ?_
    simp only [htext]
    refine path.chunk.then (.wordThen hhas value.chunk) ?_
    rintro names _ hpath ⟨has, _, rfl, hhas, token, rfl, hvalue⟩
    exact .has hpath hhas hvalue
  | hasAny path values =>
    have htext : path.text ++ " has any [".toList ++ listText values ++ [']'] =
        path.text ++ ' ' :: ("has".toList ++ ' ' :: ("any".toList ++ ' ' :: '[' :: (listText values ++ [']']))) := by
      simp
    refine place_chunk (a := .cmp) ?_
    simp only [htext]
    refine path.chunk.then (.wordThen hhas (.wordThen hany (brackets_chunk values))) ?_
    rintro names _ hpath ⟨has, _, rfl, hhas, any, _, rfl, hany, lBracket, list, rBracket, rfl, hleft, hlist, hright⟩
    exact .hasAny hpath hhas hany hleft hlist hright
  | hasAll path values =>
    have htext : path.text ++ " has all [".toList ++ listText values ++ [']'] =
        path.text ++ ' ' :: ("has".toList ++ ' ' :: ("all".toList ++ ' ' :: '[' :: (listText values ++ [']']))) := by
      simp
    refine place_chunk (a := .cmp) ?_
    simp only [htext]
    refine path.chunk.then (.wordThen hhas (.wordThen hall (brackets_chunk values))) ?_
    rintro names _ hpath ⟨has, _, rfl, hhas, all, _, rfl, hall, lBracket, list, rBracket, rfl, hleft, hlist, hright⟩
    exact .hasAll hpath hhas hall hleft hlist hright

-- A text that is read as the tree it was printed from.
theorem Ast.parse_text (chosen : Ast tools → Bool) (ast : Ast tools) :
    parseQuery tools (String.ofList (ast.text chosen .or)) = pure ast.node := by
  have hchunk := ast.chunk chosen .or
  obtain ⟨taken, hderives, hlexes⟩ := hchunk.lexes 0 [] [] (by simp [Boundary]) (.done _)
  rw [List.append_nil, List.append_nil] at hlexes
  refine (parseQuery_eq_pure_iff _).mpr ⟨taken, [], ?_, false, hderives, by simp [Ends, current]⟩
  rw [String.toList_ofList, List.append_nil, lexes_closed hlexes hchunk.plain]
  exact hlexes

-- Both texts of a query are read as a tree that has its value in every document.
theorem Ast.eval_printed (ast : Ast tools) :
    (∃ node, parseQuery tools ast.fullText = pure node ∧ ∀ doc, node.eval doc = ast.node.eval doc) ∧
      ∃ node, parseQuery tools ast.plainText = pure node ∧ ∀ doc, node.eval doc = ast.node.eval doc :=
  ⟨⟨ast.node, ast.parse_text _, fun _ => rfl⟩, ⟨ast.node, ast.parse_text _, fun _ => rfl⟩⟩

section Members

def age : Path asciiTools := ⟨⟨'a', "ge".toList, by decide, List.all_eq_true.mp (by decide), by decide⟩, []⟩

def lastName : Path asciiTools := ⟨⟨'n', "ame".toList, by decide, List.all_eq_true.mp (by decide), by decide⟩,
  [⟨'l', "ast_1".toList, by decide, List.all_eq_true.mp (by decide), by decide⟩]⟩

def roles : Path asciiTools := ⟨⟨'r', "oles".toList, by decide, List.all_eq_true.mp (by decide), by decide⟩, []⟩

def thirty : Numeral asciiTools :=
  ⟨'3', ['0'], none, ⟨false, 3, 1, by decide⟩, List.all_eq_true.mp (by decide), rfl⟩

def members : Ast asciiTools :=
  .and (.and (.compare age .gte (.number thirty))
      (.not (.or (.compare lastName .is (.string ⟨"O'Neil".toList, by decide, by decide⟩)) (.existence roles true))))
    (.hasAny roles [.string ⟨"admin".toList, by decide, by decide⟩, .bool true, .null])

theorem eval_printed_members :
    members.fullText = "(((age >= 30) and (not ((name.last_1 is \"O'Neil\") or (roles not exists)))) and " ++
      "(roles has any [\"admin\", true, null]))" ∧
    members.plainText = "age >= 30 and not (name.last_1 is \"O'Neil\" or roles not exists) and " ++
      "roles has any [\"admin\", true, null]" ∧
    (∃ node, parseQuery asciiTools members.fullText = pure node ∧ ∀ doc, node.eval doc = members.node.eval doc) ∧
      ∃ node, parseQuery asciiTools members.plainText = pure node ∧ ∀ doc, node.eval doc = members.node.eval doc :=
  ⟨by decide +kernel, by decide +kernel, Ast.eval_printed members⟩

end Members

end Queries

end JasonDb.Query
