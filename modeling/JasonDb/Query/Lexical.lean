import JasonDb.Query.Parser
import Mathlib.Data.List.TakeWhile

namespace JasonDb.Query

variable (tools : QueryTools)

-- `<` and `>`, which an equals sign may follow: the token without it and the one with it.
def orderSign : Char → Option (TokenType × TokenType)
  | '>' => some (.gt, .gte)
  | '<' => some (.lt, .lte)
  | _ => none

-- The lexical grammar: the tokens of a whole text that begins at `pos`. Words and numbers are as
-- long as they can be, and a string ends with the quote it began with.
inductive Lexes : Nat → List Char → List Token → Prop where
  | done (pos : Nat) : Lexes pos [] []
  | blank {pos : Nat} {c : Char} {rest : List Char} {tokens : List Token} (hc : isWhitespace c)
      (h : Lexes (pos + 1) rest tokens) : Lexes pos (c :: rest) tokens
  | symbol {pos : Nat} {c : Char} {rest : List Char} {tokens : List Token} {tokenType : TokenType}
      (hc : symbol c = some tokenType) (h : Lexes (pos + 1) rest tokens) :
      Lexes pos (c :: rest) (⟨tokenType, String.ofList [c], pos⟩ :: tokens)
  | order {pos : Nat} {c : Char} {rest : List Char} {tokens : List Token} {one both : TokenType}
      (hc : orderSign c = some (one, both)) (hrest : rest.head? ≠ some '=')
      (h : Lexes (pos + 1) rest tokens) :
      Lexes pos (c :: rest) (⟨one, String.ofList [c], pos⟩ :: tokens)
  | orderEq {pos : Nat} {c : Char} {rest : List Char} {tokens : List Token} {one both : TokenType}
      (hc : orderSign c = some (one, both)) (h : Lexes (pos + 2) rest tokens) :
      Lexes pos (c :: '=' :: rest) (⟨both, String.ofList [c, '='], pos⟩ :: tokens)
  | string {pos : Nat} {quote : Char} {body rest : List Char} {tokens : List Token}
      (hc : isQuote quote) (hbody : quote ∉ body)
      (h : Lexes (pos + body.length + 2) rest tokens) :
      Lexes pos (quote :: (body ++ quote :: rest)) (⟨.string, String.ofList body, pos⟩ :: tokens)
  | word {pos : Nat} {c : Char} {chars rest : List Char} {tokens : List Token}
      (hc : isLetter tools c) (hchars : ∀ x ∈ chars, isWordChar tools x)
      (hrest : ∀ x ∈ rest.head?, isWordChar tools x = false)
      (h : Lexes (pos + chars.length + 1) rest tokens) :
      Lexes pos (c :: (chars ++ rest))
        (⟨lookupKeyword tools (String.ofList (c :: chars)), String.ofList (c :: chars), pos⟩ :: tokens)
  | integer {pos : Nat} {c : Char} {digits rest : List Char} {tokens : List Token}
      (hc : isDigit tools c) (hletter : isLetter tools c = false)
      (hdigits : ∀ x ∈ digits, isDigit tools x) (hrest : ∀ x ∈ rest.head?, isDigit tools x = false)
      (hfraction : ∀ x rest', rest = '.' :: x :: rest' → isDigit tools x = false)
      (h : Lexes (pos + digits.length + 1) rest tokens) :
      Lexes pos (c :: (digits ++ rest)) (⟨.number, String.ofList (c :: digits), pos⟩ :: tokens)
  | decimal {pos : Nat} {c d : Char} {digits fraction rest : List Char} {tokens : List Token}
      (hc : isDigit tools c) (hletter : isLetter tools c = false)
      (hdigits : ∀ x ∈ digits, isDigit tools x) (hd : isDigit tools d)
      (hfraction : ∀ x ∈ fraction, isDigit tools x)
      (hrest : ∀ x ∈ rest.head?, isDigit tools x = false)
      (h : Lexes (pos + digits.length + fraction.length + 3) rest tokens) :
      Lexes pos (c :: (digits ++ '.' :: d :: (fraction ++ rest)))
        (⟨.number, String.ofList (c :: (digits ++ '.' :: d :: fraction)), pos⟩ :: tokens)

mutual

-- The text as the lexer takes it: `'\0'` ends it, and inside a string ends the string instead.
-- A string that is not closed is closed at the end.
def closed : List Char → List Char
  | [] => []
  | c :: rest =>
    if c = nul then []
    else if isQuote c then c :: closedString c rest
    else c :: closed rest

def closedString (quote : Char) : List Char → List Char
  | [] => [quote]
  | c :: rest => if c = quote ∨ c = nul then quote :: closed rest else c :: closedString quote rest

end

section Classes

inductive CharClass where
  | nul
  | blank
  | symbol (tokenType : TokenType)
  | order (one both : TokenType)
  | quote
  | letter
  | digit
  | other

-- The branch of the lexer that a character takes.
def classify (c : Char) : CharClass :=
  if isWhitespace c then .blank
  else if c = nul then .nul
  else match symbol c with
  | some tokenType => .symbol tokenType
  | none => match orderSign c with
    | some (one, both) => .order one both
    | none =>
      if isQuote c then .quote
      else if isLetter tools c then .letter
      else if isDigit tools c then .digit
      else .other

variable {tools} {c : Char}

theorem symbol_cases {tokenType : TokenType} (h : symbol c = some tokenType) :
    c ∈ ['(', ')', '[', ']', ',', '.'] ∧ tokenType ≠ .eof ∧ tokenType ≠ .illegal := by
  unfold symbol at h
  split at h <;> simp_all <;> subst h <;> decide

theorem orderSign_cases {one both : TokenType} (h : orderSign c = some (one, both)) :
    c = '>' ∧ one = .gt ∧ both = .gte ∨ c = '<' ∧ one = .lt ∧ both = .lte := by
  unfold orderSign at h
  split at h <;> simp_all

theorem isQuote_cases (h : isQuote c) : c = '"' ∨ c = '\'' := by
  simpa [isQuote] using h

-- The characters that have a branch of their own.
def special : List Char := ['(', ')', '[', ']', ',', '.', '>', '<', '"', '\'', nul]

theorem special_plain : ∀ c ∈ special, c.toNat < 128 ∧ c.isAlpha = false ∧ c.isDigit = false ∧
    isWhitespace c = false := by
  have hall : special.all fun c => c.toNat < 128 ∧ c.isAlpha = false ∧ c.isDigit = false ∧
      isWhitespace c = false := by decide
  simpa only [List.all_eq_true, decide_eq_true_eq] using hall

theorem not_special_letter (h : isLetter tools c) : c ∉ special := by
  intro hmem
  obtain ⟨hascii, halpha, -, -⟩ := special_plain c hmem
  rw [isLetter, tools.alphabetic_ascii c hascii, halpha] at h
  exact absurd h (by decide)

theorem not_special_digit (h : isDigit tools c) : c ∉ special := by
  intro hmem
  obtain ⟨hascii, -, hdigit, -⟩ := special_plain c hmem
  rw [isDigit, tools.numeric_ascii c hascii, hdigit] at h
  exact absurd h (by decide)

theorem dot_not_digit (tools : QueryTools) : isDigit tools '.' = false := by
  have : ¬isDigit tools '.' := fun h => not_special_digit h (by decide)
  simpa using this

theorem branches_of_not_special (h : c ∉ special) :
    c ≠ nul ∧ symbol c = none ∧ orderSign c = none ∧ isQuote c = false := by
  have hne : ∀ x ∈ special, c ≠ x := fun x hx heq => h (heq ▸ hx)
  refine ⟨hne nul (by decide), ?_, ?_, ?_⟩
  · cases hc : symbol c with
    | none => rfl
    | some tokenType =>
      have hmem := (symbol_cases hc).1
      exact absurd (by simp only [special, List.mem_cons] at hmem ⊢; tauto) h
  · cases hc : orderSign c with
    | none => rfl
    | some signs =>
      rcases orderSign_cases hc with ⟨rfl, -⟩ | ⟨rfl, -⟩ <;> exact absurd (by decide) h
  · cases hc : isQuote c with
    | false => rfl
    | true => rcases isQuote_cases hc with rfl | rfl <;> exact absurd (by decide) h

theorem classify_blank (h : isWhitespace c) : classify tools c = .blank := by
  simp [classify, h]

theorem classify_symbol {tokenType : TokenType} (h : symbol c = some tokenType) :
    classify tools c = .symbol tokenType := by
  have hmem : c ∈ special := by
    have := (symbol_cases h).1
    simp only [special, List.mem_cons] at this ⊢
    tauto
  have hne : c ≠ nul := by
    rintro rfl
    simp [symbol, nul] at h
  simp [classify, (special_plain c hmem).2.2.2, hne, h]

theorem classify_order {one both : TokenType} (h : orderSign c = some (one, both)) :
    classify tools c = .order one both := by
  rcases orderSign_cases h with ⟨rfl, rfl, rfl⟩ | ⟨rfl, rfl, rfl⟩ <;> rfl

theorem classify_quote (h : isQuote c) : classify tools c = .quote := by
  rcases isQuote_cases h with rfl | rfl <;> rfl

theorem not_quote (h : classify tools c ≠ .quote) : isQuote c = false := by
  by_contra hquote
  exact h (classify_quote (by simpa using hquote))

theorem classify_letter (h : isLetter tools c) : classify tools c = .letter := by
  obtain ⟨hnul, hsymbol, horder, hquote⟩ := branches_of_not_special (not_special_letter h)
  have hblank : isWhitespace c = false := by
    by_contra hblank
    have := (tools.blank_neither c (by simpa using hblank)).1
    rw [isLetter, this] at h
    exact absurd h (by decide)
  simp [classify, hblank, hnul, hsymbol, horder, hquote, h]

theorem classify_digit (h : isDigit tools c) (hletter : isLetter tools c = false) :
    classify tools c = .digit := by
  obtain ⟨hnul, hsymbol, horder, hquote⟩ := branches_of_not_special (not_special_digit h)
  have hblank : isWhitespace c = false := by
    by_contra hblank
    have := (tools.blank_neither c (by simpa using hblank)).2
    rw [isDigit, this] at h
    exact absurd h (by decide)
  simp [classify, hblank, hnul, hsymbol, horder, hquote, h, hletter]

end Classes

section Inversion

variable {tools} {pos : Nat} {c : Char} {text rest : List Char} {tokens : List Token}

theorem lexes_nil_iff : Lexes tools pos [] tokens ↔ tokens = [] := by
  constructor
  · intro h
    cases h
    rfl
  · rintro rfl
    exact .done pos

-- What the first token of a text is, by the branch that its first character takes.
theorem Lexes.first (h : Lexes tools pos text tokens) (htext : text = c :: rest) :
    match classify tools c with
    | .blank => Lexes tools (pos + 1) rest tokens
    | .symbol tokenType => ∃ tokens', tokens = ⟨tokenType, String.ofList [c], pos⟩ :: tokens' ∧
        Lexes tools (pos + 1) rest tokens'
    | .order one both => (∃ tokens', tokens = ⟨one, String.ofList [c], pos⟩ :: tokens' ∧
        rest.head? ≠ some '=' ∧ Lexes tools (pos + 1) rest tokens') ∨
        ∃ tokens' rest', tokens = ⟨both, String.ofList [c, '='], pos⟩ :: tokens' ∧
          rest = '=' :: rest' ∧ Lexes tools (pos + 2) rest' tokens'
    | .quote => ∃ tokens' body rest', tokens = ⟨.string, String.ofList body, pos⟩ :: tokens' ∧
        rest = body ++ c :: rest' ∧ c ∉ body ∧ Lexes tools (pos + body.length + 2) rest' tokens'
    | .letter => ∃ tokens' chars rest',
        tokens = ⟨lookupKeyword tools (String.ofList (c :: chars)), String.ofList (c :: chars), pos⟩ :: tokens' ∧
        rest = chars ++ rest' ∧ (∀ x ∈ chars, isWordChar tools x) ∧
        (∀ x ∈ rest'.head?, isWordChar tools x = false) ∧
        Lexes tools (pos + chars.length + 1) rest' tokens'
    | .digit => ∃ tokens' digits rest', (∀ x ∈ digits, isDigit tools x) ∧ rest = digits ++ rest' ∧
        (∀ x ∈ rest'.head?, isDigit tools x = false) ∧
        ((tokens = ⟨.number, String.ofList (c :: digits), pos⟩ :: tokens' ∧
            (∀ x rest'', rest' = '.' :: x :: rest'' → isDigit tools x = false) ∧
            Lexes tools (pos + digits.length + 1) rest' tokens') ∨
          ∃ d fraction rest'',
            tokens = ⟨.number, String.ofList (c :: (digits ++ '.' :: d :: fraction)), pos⟩ :: tokens' ∧
            rest' = '.' :: d :: (fraction ++ rest'') ∧ isDigit tools d ∧
            (∀ x ∈ fraction, isDigit tools x) ∧ (∀ x ∈ rest''.head?, isDigit tools x = false) ∧
            Lexes tools (pos + digits.length + fraction.length + 3) rest'' tokens')
    | .nul => False
    | .other => False := by
  cases h with
  | done => cases htext
  | blank hc h =>
    cases htext
    rw [classify_blank hc]
    exact h
  | symbol hc h =>
    cases htext
    rw [classify_symbol hc]
    exact ⟨_, rfl, h⟩
  | order hc hrest h =>
    cases htext
    rw [classify_order hc]
    exact .inl ⟨_, rfl, hrest, h⟩
  | orderEq hc h =>
    cases htext
    rw [classify_order hc]
    exact .inr ⟨_, _, rfl, rfl, h⟩
  | string hc hbody h =>
    cases htext
    rw [classify_quote hc]
    exact ⟨_, _, _, rfl, rfl, hbody, h⟩
  | word hc hchars hrest h =>
    cases htext
    rw [classify_letter hc]
    exact ⟨_, _, _, rfl, rfl, hchars, hrest, h⟩
  | integer hc hletter hdigits hrest hfraction h =>
    cases htext
    rw [classify_digit hc hletter]
    exact ⟨_, _, _, hdigits, rfl, hrest, .inl ⟨rfl, hfraction, h⟩⟩
  | decimal hc hletter hdigits hd hfraction hrest h =>
    cases htext
    rw [classify_digit hc hletter]
    refine ⟨_, _, _, hdigits, rfl, ?_, .inr ⟨_, _, _, rfl, rfl, hd, hfraction, hrest, h⟩⟩
    simpa using dot_not_digit tools

end Inversion

section Spans

variable {α : Type} {p : α → Bool} {inside rest : List α}

theorem takeWhile_span (hinside : ∀ x ∈ inside, p x) (hrest : ∀ x ∈ rest.head?, p x = false) :
    (inside ++ rest).takeWhile p = inside := by
  rw [List.takeWhile_append_of_pos hinside]
  cases rest with
  | nil => simp
  | cons x rest => simp [hrest x rfl]

theorem dropWhile_span (hinside : ∀ x ∈ inside, p x) (hrest : ∀ x ∈ rest.head?, p x = false) :
    (inside ++ rest).dropWhile p = rest := by
  rw [List.dropWhile_append_of_pos hinside]
  cases rest with
  | nil => rfl
  | cons x rest => simp [hrest x rfl]

theorem span_unique {inside' rest' : List α} (hinside : ∀ x ∈ inside, p x)
    (hrest : ∀ x ∈ rest.head?, p x = false) (hinside' : ∀ x ∈ inside', p x)
    (hrest' : ∀ x ∈ rest'.head?, p x = false) (h : inside ++ rest = inside' ++ rest') :
    inside = inside' ∧ rest = rest' := by
  constructor
  · rw [← takeWhile_span hinside hrest, h, takeWhile_span hinside' hrest']
  · rw [← dropWhile_span hinside hrest, h, dropWhile_span hinside' hrest']

theorem mem_takeWhile {l : List α} {x : α} (h : x ∈ l.takeWhile p) : p x :=
  List.mem_takeWhile_imp h

theorem head_dropWhile {l : List α} {x : α} (h : x ∈ (l.dropWhile p).head?) : p x = false := by
  have := List.head?_dropWhile_not p l
  rw [Option.mem_def] at h
  rw [h] at this
  simpa using this

end Spans

section Closed

variable {tools} {c : Char} {text rest : List Char}

theorem closed_cons (hnul : c ≠ nul) (hquote : isQuote c = false) :
    closed (c :: rest) = c :: closed rest := by
  simp [closed, hnul, hquote]

theorem closed_append {plain : List Char} (h : ∀ x ∈ plain, x ≠ nul ∧ isQuote x = false) :
    closed (plain ++ rest) = plain ++ closed rest := by
  induction plain with
  | nil => rfl
  | cons x plain ih =>
    obtain ⟨hnul, hquote⟩ := h x (by simp)
    rw [List.cons_append, closed_cons hnul hquote, ih fun y hy => h y (by simp [hy]), List.cons_append]

theorem head_closed {x : Char} (h : x ∈ (closed text).head?) : x ∈ text.head? := by
  cases text with
  | nil => simp [closed] at h
  | cons c rest =>
    rw [closed] at h
    split_ifs at h
    · simp at h
    · simpa using h
    · simpa using h

theorem closed_quote (hquote : isQuote c) :
    closed (c :: rest) =
      c :: (rest.takeWhile (inString c) ++
        c :: closed (rest.dropWhile (inString c)).tail) := by
  have hnul : c ≠ nul := by
    rintro rfl
    exact absurd hquote (by decide)
  rw [closed, if_neg hnul, if_pos hquote]
  congr 1
  induction rest with
  | nil => simp [closedString, closed]
  | cons x rest ih =>
    by_cases hx : x = c ∨ x = nul
    · have : inString c x = false := by
        simp only [inString, decide_eq_false_iff_not]
        tauto
      simp only [closedString, if_pos hx, List.takeWhile_cons, List.dropWhile_cons, this]
      simp
    · have : inString c x = true := by
        simp only [inString, decide_eq_true_eq]
        tauto
      simp only [closedString, if_neg hx, List.takeWhile_cons, List.dropWhile_cons, this]
      simpa using ih

theorem not_special_wordChar (h : isWordChar tools c) : c ∉ special := by
  simp only [isWordChar, decide_eq_true_eq] at h
  rcases h with h | h | rfl
  · exact not_special_letter h
  · exact not_special_digit h
  · decide

theorem plain_wordChar (h : isWordChar tools c) : c ≠ nul ∧ isQuote c = false := by
  have hspecial : c ∉ special := not_special_wordChar h
  exact ⟨(branches_of_not_special hspecial).1, (branches_of_not_special hspecial).2.2.2⟩

theorem plain_digit (h : isDigit tools c) : c ≠ nul ∧ isQuote c = false := by
  have hword : isWordChar tools c := by simp [isWordChar, h]
  exact plain_wordChar hword

end Closed

section Steps

variable {tools} {pos : Nat} {c : Char} {rest : List Char}

theorem nextToken_nil : ((⟨[], pos + 1⟩ : Lexer).nextToken tools).1 = ⟨.eof, "", pos⟩ := by
  simp [Lexer.nextToken, Lexer.skipWhitespace, Lexer.readWhile, Lexer.ch]

theorem nextToken_blank (h : isWhitespace c) :
    (⟨c :: rest, pos + 1⟩ : Lexer).nextToken tools = (⟨rest, pos + 1 + 1⟩ : Lexer).nextToken tools := by
  have hskip : (⟨c :: rest, pos + 1⟩ : Lexer).skipWhitespace =
      (⟨rest, pos + 1 + 1⟩ : Lexer).skipWhitespace := by
    simp [Lexer.skipWhitespace, Lexer.readWhile, h]
    omega
  unfold Lexer.nextToken
  rw [hskip]

theorem skipWhitespace_eq (h : isWhitespace c = false) :
    (⟨c :: rest, pos⟩ : Lexer).skipWhitespace = ⟨c :: rest, pos⟩ := by
  simp [Lexer.skipWhitespace, Lexer.readWhile, h]

theorem nextToken_nul : ((⟨nul :: rest, pos + 1⟩ : Lexer).nextToken tools).1 = ⟨.eof, "", pos⟩ := by
  unfold Lexer.nextToken
  rw [skipWhitespace_eq (by decide)]
  simp [Lexer.ch]

-- The facts that a branch of the lexer stands for.
theorem classify_spec (tools : QueryTools) (c : Char) :
    match classify tools c with
    | .blank => isWhitespace c
    | .nul => c = nul
    | .symbol tokenType => isWhitespace c = false ∧ c ≠ nul ∧ symbol c = some tokenType
    | .order one both => isWhitespace c = false ∧ c ≠ nul ∧ symbol c = none ∧
        orderSign c = some (one, both)
    | .quote => isWhitespace c = false ∧ c ≠ nul ∧ symbol c = none ∧ orderSign c = none ∧ isQuote c
    | .letter => isWhitespace c = false ∧ c ≠ nul ∧ symbol c = none ∧ orderSign c = none ∧
        isQuote c = false ∧ isLetter tools c
    | .digit => isWhitespace c = false ∧ c ≠ nul ∧ symbol c = none ∧ orderSign c = none ∧
        isQuote c = false ∧ isLetter tools c = false ∧ isDigit tools c
    | .other => isWhitespace c = false ∧ c ≠ nul ∧ symbol c = none ∧ orderSign c = none ∧
        isQuote c = false ∧ isLetter tools c = false ∧ isDigit tools c = false := by
  unfold classify
  by_cases hblank : isWhitespace c
  · simp [hblank]
  by_cases hnul : c = nul
  · subst hnul
    have : isWhitespace nul = false := by decide
    simp [this]
  cases hsymbol : symbol c with
  | some tokenType => simp [hblank, hnul]
  | none =>
    cases horder : orderSign c with
    | some signs => simp [hblank, hnul]
    | none =>
      cases hquote : isQuote c with
      | true => simp [hblank, hnul]
      | false =>
        cases hletter : isLetter tools c with
        | true => simp [hblank, hnul]
        | false => cases hdigit : isDigit tools c <;> simp [hblank, hnul]

theorem orderSign_none (h : orderSign c = none) : c ≠ '>' ∧ c ≠ '<' := by
  constructor <;> rintro rfl <;> exact absurd h (by decide)

theorem nextToken_symbol {tokenType : TokenType} (hblank : isWhitespace c = false) (hnul : c ≠ nul)
    (hsymbol : symbol c = some tokenType) : (⟨c :: rest, pos + 1⟩ : Lexer).nextToken tools =
      (⟨tokenType, String.ofList [c], pos⟩, ⟨rest, pos + 1 + 1⟩) := by
  simp [Lexer.nextToken, skipWhitespace_eq hblank, Lexer.ch, hnul, hsymbol, Lexer.readChar]

theorem nextToken_order {one both : TokenType} (horder : orderSign c = some (one, both)) :
    (⟨c :: rest, pos + 1⟩ : Lexer).nextToken tools =
      if rest.head? = some '=' then (⟨both, String.ofList [c, '='], pos⟩, ⟨rest.tail, pos + 2 + 1⟩)
      else (⟨one, String.ofList [c], pos⟩, ⟨rest, pos + 1 + 1⟩) := by
  have hpeek : rest.head?.getD '\x00' = '=' ↔ rest.head? = some '=' := by
    cases rest with
    | nil => simp
    | cons x rest => simp
  rcases orderSign_cases horder with ⟨rfl, rfl, rfl⟩ | ⟨rfl, rfl, rfl⟩ <;>
  · unfold Lexer.nextToken
    rw [skipWhitespace_eq (by decide)]
    by_cases h : rest.head? = some '='
    · simp [Lexer.ch, Lexer.peekChar, Lexer.readChar, nul, symbol, h]
    · simp [Lexer.ch, Lexer.peekChar, Lexer.readChar, nul, symbol, hpeek, h]

theorem nextToken_quote (hquote : isQuote c) : (⟨c :: rest, pos + 1⟩ : Lexer).nextToken tools =
    (⟨.string, String.ofList (rest.takeWhile (inString c)), pos⟩,
      ⟨(rest.dropWhile (inString c)).tail,
        pos + (rest.takeWhile (inString c)).length + 2 + 1⟩) := by
  rcases isQuote_cases hquote with rfl | rfl <;>
  · unfold Lexer.nextToken
    rw [skipWhitespace_eq (by decide)]
    have hpos : ∀ length, pos + 1 + 1 + length + 1 = pos + length + 2 + 1 := by omega
    simp [Lexer.ch, Lexer.readString, Lexer.readChar, Lexer.readWhile, nul, symbol, isQuote, hpos]

theorem nextToken_letter (hblank : isWhitespace c = false) (hnul : c ≠ nul) (hsymbol : symbol c = none)
    (horder : orderSign c = none) (hquote : isQuote c = false) (hletter : isLetter tools c) :
    let chars := rest.takeWhile (isWordChar tools)
    (⟨c :: rest, pos + 1⟩ : Lexer).nextToken tools =
      (⟨lookupKeyword tools (String.ofList (c :: chars)), String.ofList (c :: chars), pos⟩,
        ⟨rest.dropWhile (isWordChar tools), pos + chars.length + 1 + 1⟩) := by
  have hword : isWordChar tools c = true := by simp [isWordChar, hletter]
  obtain ⟨hgt, hlt⟩ := orderSign_none horder
  simp only [Lexer.nextToken, skipWhitespace_eq hblank, Lexer.ch, List.headD_cons, hnul, hsymbol, hgt,
    hlt, hquote, hletter, Lexer.readIdentifier, Lexer.readWhile, List.takeWhile_cons, hword,
    List.dropWhile_cons, if_false, if_true, Nat.add_sub_cancel, List.length_cons, Bool.false_eq_true]
  congr 2
  omega

theorem readNumber_integer {digits after : List Char} (hc : isDigit tools c)
    (hdigits : ∀ x ∈ digits, isDigit tools x) (hafter : ∀ x ∈ after.head?, isDigit tools x = false)
    (hfraction : ∀ x after', after = '.' :: x :: after' → isDigit tools x = false) :
    (⟨c :: (digits ++ after), pos + 1⟩ : Lexer).readNumber tools =
      (String.ofList (c :: digits), ⟨after, pos + digits.length + 1 + 1⟩) := by
  have hnul : isDigit tools nul = false := by
    have : ¬isDigit tools nul := fun h => not_special_digit h (by decide)
    simpa using this
  have hno : ¬(after.headD nul = '.' ∧ isDigit tools (after.tail.headD nul)) := by
    rintro ⟨hdot, hdigit⟩
    rcases after with _ | ⟨x, _ | ⟨y, after'⟩⟩
    · exact absurd hdot (by decide)
    · rw [List.tail_cons, List.headD_nil, hnul] at hdigit
      exact absurd hdigit (by decide)
    · rw [List.headD_cons] at hdot
      subst hdot
      rw [List.tail_cons, List.headD_cons, hfraction y after' rfl] at hdigit
      exact absurd hdigit (by decide)
  simp only [Lexer.readNumber, Lexer.readWhile, List.takeWhile_cons, List.dropWhile_cons, hc, if_true,
    takeWhile_span hdigits hafter, dropWhile_span hdigits hafter, Lexer.ch, Lexer.peekChar]
  rw [if_neg hno, List.length_cons]
  congr 2
  omega

theorem readNumber_decimal {d : Char} {digits fraction after : List Char} (hc : isDigit tools c)
    (hdigits : ∀ x ∈ digits, isDigit tools x) (hd : isDigit tools d)
    (hfraction : ∀ x ∈ fraction, isDigit tools x)
    (hafter : ∀ x ∈ after.head?, isDigit tools x = false) :
    (⟨c :: (digits ++ '.' :: d :: (fraction ++ after)), pos + 1⟩ : Lexer).readNumber tools =
      (String.ofList (c :: (digits ++ '.' :: d :: fraction)),
        ⟨after, pos + digits.length + fraction.length + 3 + 1⟩) := by
  have hdot : ∀ x ∈ ('.' :: d :: (fraction ++ after)).head?, isDigit tools x = false := by
    simpa using dot_not_digit tools
  have hall : ∀ x ∈ d :: fraction, isDigit tools x := by
    intro x hx
    rcases List.mem_cons.mp hx with rfl | hx
    · exact hd
    · exact hfraction x hx
  have hspan : d :: (fraction ++ after) = (d :: fraction) ++ after := rfl
  simp only [Lexer.readNumber, Lexer.readWhile, List.takeWhile_cons, List.dropWhile_cons, hc, if_true,
    takeWhile_span hdigits hdot, dropWhile_span hdigits hdot, Lexer.ch, Lexer.peekChar, Lexer.readChar,
    List.headD_cons, List.tail_cons, hd, and_self]
  simp only [takeWhile_span hfraction hafter, dropWhile_span hfraction hafter, List.cons_append,
    List.length_cons]
  congr 2
  omega

theorem nextToken_digit {text : List Char} {after : Lexer} (hblank : isWhitespace c = false)
    (hnul : c ≠ nul) (hsymbol : symbol c = none) (horder : orderSign c = none)
    (hquote : isQuote c = false) (hletter : isLetter tools c = false) (hdigit : isDigit tools c)
    (hread : (⟨c :: rest, pos + 1⟩ : Lexer).readNumber tools = (String.ofList text, after)) :
    (⟨c :: rest, pos + 1⟩ : Lexer).nextToken tools = (⟨.number, String.ofList text, pos⟩, after) := by
  obtain ⟨hgt, hlt⟩ := orderSign_none horder
  simp [Lexer.nextToken, skipWhitespace_eq hblank, Lexer.ch, hnul, hsymbol, hgt, hlt, hquote, hletter,
    hdigit, hread]

theorem nextToken_other (hblank : isWhitespace c = false) (hnul : c ≠ nul) (hsymbol : symbol c = none)
    (horder : orderSign c = none) (hquote : isQuote c = false) (hletter : isLetter tools c = false)
    (hdigit : isDigit tools c = false) :
    ((⟨c :: rest, pos + 1⟩ : Lexer).nextToken tools).1 = ⟨.illegal, String.ofList [c], pos⟩ := by
  obtain ⟨hgt, hlt⟩ := orderSign_none horder
  simp [Lexer.nextToken, skipWhitespace_eq hblank, Lexer.ch, hnul, hsymbol, hgt, hlt, hquote, hletter,
    hdigit]

theorem lookupKeyword_ne (word : String) :
    lookupKeyword tools word ≠ .eof ∧ lookupKeyword tools word ≠ .illegal := by
  unfold lookupKeyword
  split <;> decide

end Steps

section Tokens

variable {tools} {fuel pos : Nat} {text : List Char} {eof : Token}

-- The lexer returns, with the tokens of the text as it takes it, or with an error when it has none.
structure Reads (tools : QueryTools) (fuel pos : Nat) (text : List Char) (eof : Token) : Prop where
  eof_type : eof.tokenType = .eof
  returns : ((⟨text, pos + 1⟩ : Lexer).tokens tools fuel).isSome
  ok_iff : ∀ result, (⟨text, pos + 1⟩ : Lexer).tokens tools fuel = some (.ok result) ↔
    ∃ tokens, result = tokens ++ [eof] ∧ Lexes tools pos (closed text) tokens

theorem reads_eof (htoken : ((⟨text, pos + 1⟩ : Lexer).nextToken tools).1 = ⟨.eof, "", pos⟩)
    (hclosed : closed text = []) : Reads tools (fuel + 1) pos text ⟨.eof, "", pos⟩ := by
  have htokens : (⟨text, pos + 1⟩ : Lexer).tokens tools (fuel + 1) = some (.ok [⟨.eof, "", pos⟩]) := by
    simp [Lexer.tokens, htoken]
  refine ⟨rfl, by rw [htokens]; rfl, fun result => ?_⟩
  rw [htokens, hclosed]
  constructor
  · intro h
    exact ⟨[], (Except.ok.inj (Option.some.inj h)).symm, .done pos⟩
  · rintro ⟨tokens, rfl, hlexes⟩
    rw [lexes_nil_iff.mp hlexes, List.nil_append]

theorem reads_illegal {value : String}
    (htoken : ((⟨text, pos + 1⟩ : Lexer).nextToken tools).1 = ⟨.illegal, value, pos⟩)
    (hclosed : ∀ tokens, ¬Lexes tools pos (closed text) tokens) :
    Reads tools (fuel + 1) pos text ⟨.eof, "", pos⟩ := by
  have htokens : ∃ e, (⟨text, pos + 1⟩ : Lexer).tokens tools (fuel + 1) = some (.error e) := by
    simp [Lexer.tokens, htoken]
  obtain ⟨e, htokens⟩ := htokens
  refine ⟨rfl, by rw [htokens]; rfl, fun result => ?_⟩
  rw [htokens]
  constructor
  · intro h
    exact absurd (Option.some.inj h) (by simp)
  · rintro ⟨tokens, -, hlexes⟩
    exact absurd hlexes (hclosed tokens)

theorem reads_token {after : List Char} {token : Token} {pos' : Nat}
    (hnext : (⟨text, pos + 1⟩ : Lexer).nextToken tools = (token, ⟨after, pos' + 1⟩))
    (htype : token.tokenType ≠ .eof ∧ token.tokenType ≠ .illegal)
    (hlexes : ∀ tokens, Lexes tools pos (closed text) tokens ↔
      ∃ tokens', tokens = token :: tokens' ∧ Lexes tools pos' (closed after) tokens')
    (ih : Reads tools fuel pos' after eof) : Reads tools (fuel + 1) pos text eof := by
  have htokens : (⟨text, pos + 1⟩ : Lexer).tokens tools (fuel + 1) =
      ((⟨after, pos' + 1⟩ : Lexer).tokens tools fuel).map fun result => result.map (token :: ·) := by
    simp [Lexer.tokens, hnext, htype]
  refine ⟨ih.eof_type, by rw [htokens, Option.isSome_map]; exact ih.returns, fun result => ?_⟩
  obtain ⟨r, hr⟩ := Option.isSome_iff_exists.mp ih.returns
  have hok := ih.ok_iff
  rw [htokens, hr, Option.map_some]
  rw [hr] at hok
  constructor
  · intro h
    cases r with
    | error e => exact absurd (Option.some.inj h) (by simp [Except.map])
    | ok found =>
      obtain ⟨tokens', rfl, htokens'⟩ := (hok found).mp rfl
      refine ⟨token :: tokens', (Except.ok.inj (Option.some.inj h)).symm, ?_⟩
      exact (hlexes _).mpr ⟨tokens', rfl, htokens'⟩
  · rintro ⟨tokens, rfl, htokens⟩
    obtain ⟨tokens', rfl, htokens'⟩ := (hlexes tokens).mp htokens
    rw [Option.some.inj ((hok (tokens' ++ [eof])).mpr ⟨tokens', rfl, htokens'⟩)]
    rfl

-- A blank is passed over, which takes none of the fuel.
theorem reads_blank {c : Char} {rest : List Char} (hblank : isWhitespace c)
    (ih : Reads tools (fuel + 1) (pos + 1) rest eof) : Reads tools (fuel + 1) pos (c :: rest) eof := by
  have htokens : (⟨c :: rest, pos + 1⟩ : Lexer).tokens tools (fuel + 1) =
      (⟨rest, pos + 1 + 1⟩ : Lexer).tokens tools (fuel + 1) := by
    simp only [Lexer.tokens, nextToken_blank hblank]
  have hclass : classify tools c = .blank := classify_blank hblank
  have hquote : isQuote c = false := not_quote (by rw [hclass]; nofun)
  have hnul : c ≠ nul := by
    rintro rfl
    exact absurd hblank (by decide)
  refine ⟨ih.eof_type, htokens ▸ ih.returns, fun result => ?_⟩
  rw [htokens, ih.ok_iff, closed_cons hnul hquote]
  constructor
  · rintro ⟨tokens, rfl, hlexes⟩
    exact ⟨tokens, rfl, .blank hblank hlexes⟩
  · rintro ⟨tokens, rfl, hlexes⟩
    have := hlexes.first rfl
    rw [classify_blank hblank] at this
    exact ⟨tokens, rfl, this⟩

end Tokens

section Branches

variable {tools} {pos : Nat} {c : Char} {rest : List Char} {tokens : List Token}

theorem lexes_symbol {tokenType : TokenType} (hsymbol : symbol c = some tokenType) :
    Lexes tools pos (c :: rest) tokens ↔
      ∃ tokens', tokens = ⟨tokenType, String.ofList [c], pos⟩ :: tokens' ∧
        Lexes tools (pos + 1) rest tokens' := by
  constructor
  · intro h
    have := h.first rfl
    rw [classify_symbol hsymbol] at this
    exact this
  · rintro ⟨tokens', rfl, h⟩
    exact .symbol hsymbol h

theorem lexes_order {one both : TokenType} (horder : orderSign c = some (one, both))
    (hrest : rest.head? ≠ some '=') : Lexes tools pos (c :: rest) tokens ↔
      ∃ tokens', tokens = ⟨one, String.ofList [c], pos⟩ :: tokens' ∧
        Lexes tools (pos + 1) rest tokens' := by
  constructor
  · intro h
    have := h.first rfl
    rw [classify_order horder] at this
    rcases this with ⟨tokens', heq, -, h⟩ | ⟨tokens', rest', -, rfl, -⟩
    · exact ⟨tokens', heq, h⟩
    · exact absurd rfl hrest
  · rintro ⟨tokens', rfl, h⟩
    exact .order horder hrest h

theorem lexes_orderEq {one both : TokenType} (horder : orderSign c = some (one, both)) :
    Lexes tools pos (c :: '=' :: rest) tokens ↔
      ∃ tokens', tokens = ⟨both, String.ofList [c, '='], pos⟩ :: tokens' ∧
        Lexes tools (pos + 2) rest tokens' := by
  constructor
  · intro h
    have := h.first rfl
    rw [classify_order horder] at this
    rcases this with ⟨tokens', -, hne, -⟩ | ⟨tokens', rest', heq, hrest, h⟩
    · exact absurd rfl hne
    · exact ⟨tokens', heq, (List.cons.inj hrest).2 ▸ h⟩
  · rintro ⟨tokens', rfl, h⟩
    exact .orderEq horder h

theorem lexes_string {body : List Char} (hquote : isQuote c) (hbody : c ∉ body) :
    Lexes tools pos (c :: (body ++ c :: rest)) tokens ↔
      ∃ tokens', tokens = ⟨.string, String.ofList body, pos⟩ :: tokens' ∧
        Lexes tools (pos + body.length + 2) rest tokens' := by
  constructor
  · intro h
    have := h.first rfl
    rw [classify_quote hquote] at this
    obtain ⟨tokens', body', rest', heq, hrest, hbody', h⟩ := this
    have hsame : body = body' ∧ rest = rest' := by
      have hinside : ∀ l : List Char, c ∉ l → ∀ x ∈ l, decide (x ≠ c) = true := by
        intro l hl x hx
        have hne : x ≠ c := ne_of_mem_of_not_mem hx hl
        simpa using hne
      have := span_unique (hinside body hbody) (by simp) (hinside body' hbody') (by simp) hrest
      exact ⟨this.1, (List.cons.inj this.2).2⟩
    obtain ⟨rfl, rfl⟩ := hsame
    exact ⟨tokens', heq, h⟩
  · rintro ⟨tokens', rfl, h⟩
    exact .string hquote hbody h

theorem lexes_word {chars : List Char} (hletter : isLetter tools c)
    (hchars : ∀ x ∈ chars, isWordChar tools x) (hrest : ∀ x ∈ rest.head?, isWordChar tools x = false) :
    Lexes tools pos (c :: (chars ++ rest)) tokens ↔
      ∃ tokens', tokens = ⟨lookupKeyword tools (String.ofList (c :: chars)), String.ofList (c :: chars), pos⟩ ::
        tokens' ∧ Lexes tools (pos + chars.length + 1) rest tokens' := by
  constructor
  · intro h
    have := h.first rfl
    rw [classify_letter hletter] at this
    obtain ⟨tokens', chars', rest', heq, htext, hchars', hrest', h⟩ := this
    obtain ⟨rfl, rfl⟩ := span_unique hchars hrest hchars' hrest' htext
    exact ⟨tokens', heq, h⟩
  · rintro ⟨tokens', rfl, h⟩
    exact .word hletter hchars hrest h

theorem lexes_integer {digits : List Char} (hdigit : isDigit tools c) (hletter : isLetter tools c = false)
    (hdigits : ∀ x ∈ digits, isDigit tools x) (hrest : ∀ x ∈ rest.head?, isDigit tools x = false)
    (hfraction : ∀ x rest', rest = '.' :: x :: rest' → isDigit tools x = false) :
    Lexes tools pos (c :: (digits ++ rest)) tokens ↔
      ∃ tokens', tokens = ⟨.number, String.ofList (c :: digits), pos⟩ :: tokens' ∧
        Lexes tools (pos + digits.length + 1) rest tokens' := by
  constructor
  · intro h
    have := h.first rfl
    rw [classify_digit hdigit hletter] at this
    obtain ⟨tokens', digits', rest', hdigits', htext, hrest', h⟩ := this
    obtain ⟨rfl, rfl⟩ := span_unique hdigits hrest hdigits' hrest' htext
    rcases h with ⟨heq, -, h⟩ | ⟨d, fraction, rest'', -, rfl, hd, -⟩
    · exact ⟨tokens', heq, h⟩
    · rw [hfraction d _ rfl] at hd
      exact absurd hd (by decide)
  · rintro ⟨tokens', rfl, h⟩
    exact .integer hdigit hletter hdigits hrest hfraction h

theorem lexes_decimal {d : Char} {digits fraction : List Char} (hdigit : isDigit tools c)
    (hletter : isLetter tools c = false) (hdigits : ∀ x ∈ digits, isDigit tools x)
    (hd : isDigit tools d) (hfraction : ∀ x ∈ fraction, isDigit tools x)
    (hrest : ∀ x ∈ rest.head?, isDigit tools x = false) :
    Lexes tools pos (c :: (digits ++ '.' :: d :: (fraction ++ rest))) tokens ↔
      ∃ tokens', tokens = ⟨.number, String.ofList (c :: (digits ++ '.' :: d :: fraction)), pos⟩ :: tokens' ∧
        Lexes tools (pos + digits.length + fraction.length + 3) rest tokens' := by
  have hdot : ∀ x ∈ ('.' :: d :: (fraction ++ rest)).head?, isDigit tools x = false := by
    simpa using dot_not_digit tools
  constructor
  · intro h
    have := h.first rfl
    rw [classify_digit hdigit hletter] at this
    obtain ⟨tokens', digits', rest', hdigits', htext, hrest', h⟩ := this
    obtain ⟨rfl, rfl⟩ := span_unique hdigits hdot hdigits' hrest' htext
    rcases h with ⟨-, hno, -⟩ | ⟨d', fraction', rest'', heq, htext, -, hfraction', hrest'', h⟩
    · rw [hno d _ rfl] at hd
      exact absurd hd (by decide)
    · obtain ⟨rfl, htail⟩ := List.cons.inj (List.cons.inj htext).2
      obtain ⟨rfl, rfl⟩ := span_unique hfraction hrest hfraction' hrest'' htail
      exact ⟨tokens', heq, h⟩
  · rintro ⟨tokens', rfl, h⟩
    exact .decimal hdigit hletter hdigits hd hfraction hrest h

end Branches

section Tokenize

variable {tools}

-- Behind the digits of a number there may be a fraction.
theorem fraction_cases (tools : QueryTools) (after : List Char) :
    (∃ d fraction after', after = '.' :: d :: (fraction ++ after') ∧ isDigit tools d ∧
      (∀ x ∈ fraction, isDigit tools x) ∧ ∀ x ∈ after'.head?, isDigit tools x = false) ∨
    ∀ x after', after = '.' :: x :: after' → isDigit tools x = false := by
  by_cases hfraction : ∃ d after', after = '.' :: d :: after' ∧ isDigit tools d
  · obtain ⟨d, after', rfl, hd⟩ := hfraction
    refine .inl ⟨d, after'.takeWhile (isDigit tools), after'.dropWhile (isDigit tools), ?_, hd, ?_, ?_⟩
    · rw [List.takeWhile_append_dropWhile]
    · exact fun x hx => mem_takeWhile hx
    · exact fun x hx => head_dropWhile hx
  · refine .inr fun x after' heq => ?_
    by_contra hx
    exact hfraction ⟨x, after', heq, by simpa using hx⟩

theorem no_fraction_closed {after : List Char}
    (hno : ∀ x after', after = '.' :: x :: after' → isDigit tools x = false) :
    ∀ x after', closed after = '.' :: x :: after' → isDigit tools x = false := by
  intro x after' hclosed
  have hdot : '.' ∈ after.head? := head_closed (by rw [hclosed]; rfl)
  obtain ⟨rest, rfl⟩ : ∃ rest, after = '.' :: rest := by
    cases after with
    | nil => cases hdot
    | cons c rest => exact ⟨rest, by rw [Option.some.inj hdot]⟩
  rw [closed_cons (by decide) (by decide)] at hclosed
  have hx : x ∈ rest.head? := head_closed (by rw [(List.cons.inj hclosed).2]; rfl)
  cases rest with
  | nil => cases hx
  | cons y rest' =>
    rw [← Option.some.inj hx]
    exact hno y rest' rfl

-- By induction on the length of the text: a token is passed over, and the rest is read with less fuel.
theorem exists_reads (tools : QueryTools) (fuel pos : Nat) (text : List Char) (hfuel : text.length < fuel) :
    ∃ eof, Reads tools fuel pos text eof := by
  induction hlen : text.length using Nat.strong_induction_on generalizing fuel pos text with
  | _ n ih =>
  subst hlen
  obtain ⟨fuel, rfl⟩ := Nat.exists_eq_succ_of_ne_zero (Nat.ne_of_gt (Nat.zero_lt_of_lt hfuel))
  rcases text with _ | ⟨c, rest⟩
  · exact ⟨_, reads_eof nextToken_nil (by rw [closed])⟩
  have hspec := classify_spec tools c
  have hlater : ∀ (after : List Char) (pos' : Nat), after.length ≤ rest.length →
      ∃ eof, Reads tools fuel pos' after eof := by
    intro after pos' hafter
    rw [List.length_cons] at hfuel
    exact ih after.length (by rw [List.length_cons]; omega) fuel pos' after (by omega) rfl
  cases hclass : classify tools c with
  | blank =>
    rw [hclass] at hspec
    rw [List.length_cons] at hfuel
    obtain ⟨eof, hreads⟩ := ih rest.length (by simp) (fuel + 1) (pos + 1) rest (by omega) rfl
    exact ⟨eof, reads_blank hspec hreads⟩
  | nul =>
    rw [hclass] at hspec
    subst hspec
    exact ⟨_, reads_eof nextToken_nul (by simp [closed])⟩
  | symbol tokenType =>
    rw [hclass] at hspec
    obtain ⟨hblank, hnul, hsymbol⟩ := hspec
    obtain ⟨eof, hreads⟩ := hlater rest (pos + 1) le_rfl
    have hquote : isQuote c = false := not_quote (by rw [hclass]; nofun)
    refine ⟨eof, reads_token (nextToken_symbol hblank hnul hsymbol) (symbol_cases hsymbol).2
      (fun tokens => ?_) hreads⟩
    rw [closed_cons hnul hquote]
    exact lexes_symbol hsymbol
  | order one both =>
    rw [hclass] at hspec
    obtain ⟨hblank, hnul, hsymbol, horder⟩ := hspec
    have htypes : (one ≠ .eof ∧ one ≠ .illegal) ∧ both ≠ .eof ∧ both ≠ .illegal := by
      rcases orderSign_cases horder with ⟨-, rfl, rfl⟩ | ⟨-, rfl, rfl⟩ <;> decide
    have hquote : isQuote c = false := by
      rcases orderSign_cases horder with ⟨rfl, -⟩ | ⟨rfl, -⟩ <;> decide
    have hnext := @nextToken_order tools pos c rest one both horder
    by_cases heq : rest.head? = some '='
    · obtain ⟨rest', rfl⟩ : ∃ rest', rest = '=' :: rest' := by
        cases rest with
        | nil => cases heq
        | cons x rest' => exact ⟨rest', by rw [Option.some.inj heq]⟩
      rw [if_pos heq] at hnext
      obtain ⟨eof, hreads⟩ := hlater rest' (pos + 2) (by simp)
      refine ⟨eof, reads_token hnext htypes.2 (fun tokens => ?_) hreads⟩
      rw [closed_cons hnul hquote, closed_cons (by decide) (by decide)]
      exact lexes_orderEq horder
    · rw [if_neg heq] at hnext
      obtain ⟨eof, hreads⟩ := hlater rest (pos + 1) le_rfl
      refine ⟨eof, reads_token hnext htypes.1 (fun tokens => ?_) hreads⟩
      rw [closed_cons hnul hquote]
      exact lexes_order horder fun hclosed => heq (head_closed hclosed)
  | quote =>
    rw [hclass] at hspec
    obtain ⟨-, -, -, -, hquote⟩ := hspec
    obtain ⟨eof, hreads⟩ := hlater (rest.dropWhile (inString c)).tail
      (pos + (rest.takeWhile (inString c)).length + 2)
      (by rw [List.length_tail]; exact (Nat.sub_le _ _).trans (List.dropWhile_suffix _).length_le)
    refine ⟨eof, reads_token (nextToken_quote hquote) ⟨nofun, nofun⟩ (fun tokens => ?_) hreads⟩
    rw [closed_quote hquote]
    refine lexes_string hquote fun hmem => ?_
    have := mem_takeWhile hmem
    simp [inString] at this
  | letter =>
    rw [hclass] at hspec
    obtain ⟨hblank, hnul, hsymbol, horder, hquote, hletter⟩ := hspec
    have hnext := @nextToken_letter tools pos c rest hblank hnul hsymbol horder hquote hletter
    have hchars : ∀ x ∈ rest.takeWhile (isWordChar tools), isWordChar tools x := fun x hx =>
      mem_takeWhile hx
    obtain ⟨eof, hreads⟩ := hlater (rest.dropWhile (isWordChar tools)) _
      (List.dropWhile_suffix _).length_le
    refine ⟨eof, reads_token hnext (lookupKeyword_ne _) (fun tokens => ?_) hreads⟩
    conv_lhs => rw [← List.takeWhile_append_dropWhile (p := isWordChar tools) (l := rest)]
    rw [closed_cons hnul hquote, closed_append fun x hx => plain_wordChar (hchars x hx)]
    exact lexes_word hletter hchars fun x hx => head_dropWhile (head_closed hx)
  | digit =>
    rw [hclass] at hspec
    obtain ⟨hblank, hnul, hsymbol, horder, hquote, hletter, hdigit⟩ := hspec
    have hdigits : ∀ x ∈ rest.takeWhile (isDigit tools), isDigit tools x := fun x hx => mem_takeWhile hx
    have hafter : ∀ x ∈ (rest.dropWhile (isDigit tools)).head?, isDigit tools x = false := fun x hx =>
      head_dropWhile hx
    have hshorter : (rest.dropWhile (isDigit tools)).length ≤ rest.length :=
      (List.dropWhile_suffix _).length_le
    rw [← List.takeWhile_append_dropWhile (p := isDigit tools) (l := rest)]
    generalize rest.takeWhile (isDigit tools) = digits at *
    generalize rest.dropWhile (isDigit tools) = after at *
    have hplain : closed (c :: (digits ++ after)) = c :: (digits ++ closed after) := by
      rw [closed_cons hnul hquote, closed_append fun x hx => plain_digit (hdigits x hx)]
    rcases fraction_cases tools after with ⟨d, fraction, after', rfl, hd, hfraction, hafter'⟩ | hno
    · have hread := @readNumber_decimal tools pos c d digits fraction after' hdigit hdigits hd hfraction hafter'
      obtain ⟨eof, hreads⟩ := hlater after' (pos + digits.length + fraction.length + 3)
        (by simp only [List.length_cons, List.length_append] at hshorter; omega)
      refine ⟨eof, reads_token
        (nextToken_digit hblank hnul hsymbol horder hquote hletter hdigit hread)
        ⟨nofun, nofun⟩ (fun tokens => ?_) hreads⟩
      rw [hplain, closed_cons (by decide) (by decide), closed_cons (plain_digit hd).1 (plain_digit hd).2,
        closed_append fun x hx => plain_digit (hfraction x hx)]
      exact lexes_decimal hdigit hletter hdigits hd hfraction fun x hx => hafter' x (head_closed hx)
    · have hread := @readNumber_integer tools pos c digits after hdigit hdigits hafter hno
      obtain ⟨eof, hreads⟩ := hlater after (pos + digits.length + 1) hshorter
      refine ⟨eof, reads_token
        (nextToken_digit hblank hnul hsymbol horder hquote hletter hdigit hread)
        ⟨nofun, nofun⟩ (fun tokens => ?_) hreads⟩
      rw [hplain]
      exact lexes_integer hdigit hletter hdigits (fun x hx => hafter x (head_closed hx))
        (no_fraction_closed hno)
  | other =>
    rw [hclass] at hspec
    obtain ⟨hblank, hnul, hsymbol, horder, hquote, hletter, hdigit⟩ := hspec
    refine ⟨_, reads_illegal (nextToken_other hblank hnul hsymbol horder hquote hletter hdigit)
      fun tokens hlexes => ?_⟩
    have := hlexes.first (closed_cons hnul hquote)
    rw [hclass] at this
    exact this

-- The lexer returns on every text. Its tokens are those of the text as it takes it.
theorem tokenize_ok_iff (tools : QueryTools) (query : String) : ∃ eof : Token, eof.tokenType = .eof ∧
    (tokenize tools query).isSome ∧ ∀ result, tokenize tools query = some (.ok result) ↔
      ∃ tokens, result = tokens ++ [eof] ∧ Lexes tools 0 (closed query.toList) tokens := by
  obtain ⟨eof, h⟩ := exists_reads tools (query.length + 1) 0 query.toList
    (by rw [String.length_toList]; omega)
  exact ⟨eof, h.eof_type, h.returns, h.ok_iff⟩

-- A text that has its tokens, and no `'\0'`, is taken as it is.
theorem lexes_closed {pos : Nat} {text : List Char} {tokens : List Token} (h : Lexes tools pos text tokens)
    (hnul : nul ∉ text) : closed text = text := by
  induction h with
  | done => rfl
  | @blank _ c _ _ hc _ ih =>
    obtain ⟨hc', hrest⟩ := not_or.mp (mt List.mem_cons.mpr hnul)
    have hclass : classify tools c = .blank := classify_blank hc
    rw [closed_cons (Ne.symm hc') (not_quote (by rw [hclass]; nofun)), ih hrest]
  | @symbol _ c _ _ tokenType hc _ ih =>
    obtain ⟨hc', hrest⟩ := not_or.mp (mt List.mem_cons.mpr hnul)
    have hclass : classify tools c = .symbol tokenType := classify_symbol hc
    rw [closed_cons (Ne.symm hc') (not_quote (by rw [hclass]; nofun)), ih hrest]
  | order hc _ _ ih =>
    obtain ⟨-, hrest⟩ := not_or.mp (mt List.mem_cons.mpr hnul)
    rcases orderSign_cases hc with ⟨rfl, -⟩ | ⟨rfl, -⟩ <;>
      rw [closed_cons (by decide) (by decide), ih hrest]
  | orderEq hc _ ih =>
    have hrest := fun h => hnul (List.mem_cons_of_mem _ (List.mem_cons_of_mem _ h))
    rcases orderSign_cases hc with ⟨rfl, -⟩ | ⟨rfl, -⟩ <;>
      rw [closed_cons (by decide) (by decide), closed_cons (by decide) (by decide), ih hrest]
  | @string _ quote body rest _ hc hbody _ ih =>
    have hrest : nul ∉ rest := fun h => hnul (by simp [h])
    have hinside : ∀ x ∈ body, inString quote x := by
      intro x hx
      have hquote : x ≠ quote := ne_of_mem_of_not_mem hx hbody
      have hx' : x ≠ nul := by
        rintro rfl
        exact hnul (by simp [hx])
      simp [inString, hquote, hx']
    have hstop : ∀ x ∈ (quote :: rest).head?, inString quote x = false := by
      simp [inString]
    rw [closed_quote hc, takeWhile_span hinside hstop, dropWhile_span hinside hstop, List.tail_cons, ih hrest]
  | @word _ c chars rest _ hc hchars _ _ ih =>
    have hrest : nul ∉ rest := fun h => hnul (by simp [h])
    have hword : isWordChar tools c := by simp [isWordChar, hc]
    rw [closed_cons (plain_wordChar hword).1 (plain_wordChar hword).2,
      closed_append fun x hx => plain_wordChar (hchars x hx), ih hrest]
  | @integer _ c digits rest _ hc _ hdigits _ _ _ ih =>
    have hrest : nul ∉ rest := fun h => hnul (by simp [h])
    rw [closed_cons (plain_digit hc).1 (plain_digit hc).2,
      closed_append fun x hx => plain_digit (hdigits x hx), ih hrest]
  | @decimal _ c d digits fraction rest _ hc _ hdigits hd hfraction _ _ ih =>
    have hrest : nul ∉ rest := fun h => hnul (by simp [h])
    rw [closed_cons (plain_digit hc).1 (plain_digit hc).2,
      closed_append fun x hx => plain_digit (hdigits x hx), closed_cons (by decide) (by decide),
      closed_cons (plain_digit hd).1 (plain_digit hd).2,
      closed_append fun x hx => plain_digit (hfraction x hx), ih hrest]

end Tokenize

end JasonDb.Query
