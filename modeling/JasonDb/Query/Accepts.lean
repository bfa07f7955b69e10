import JasonDb.Query.Grammar

namespace JasonDb.Query

variable (tools : QueryTools)

-- The whole text is in the language.
def Accepted (text : List Char) : Prop :=
  ∃ tokens bare node, Lexes tools 0 text tokens ∧ Derives tools .or bare tokens node

-- The first tokens of a text are in the language, and the next one does not go on with them.
structure Starts (text : List Char) (taken rest : List Token) (node : Node) : Prop where
  lexes : Lexes tools 0 text (taken ++ rest)
  derives : ∃ bare, Derives tools .or bare taken node ∧ Ends .or bare (current rest).tokenType

-- A query is answered as its text is in the language or not.
def AnsweredExactly (query : String) : Prop :=
  (Accepted tools query.toList → ∃ node, parseQuery tools query = pure node) ∧
    (¬Accepted tools query.toList → ∃ e, parseQuery tools query = throw e)

-- Tokens are left behind a text of the language.
def Leftover (text : List Char) : Prop :=
  closed text = text ∧ ∃ taken rest node, rest ≠ [] ∧ Starts tools text taken rest node

-- With its `'\0'` taken as an end, or with its last string closed, a text that is not in the language
-- begins with one that is.
def Mended (text : List Char) : Prop :=
  closed text ≠ text ∧ ¬Accepted tools text ∧ ∃ taken rest node, Starts tools (closed text) taken rest node

-- A text of the language has `'\0'` in a string, and with the string ended there it does not begin
-- with a text of the language.
def Broken (text : List Char) : Prop :=
  closed text ≠ text ∧ Accepted tools text ∧ ¬∃ taken rest node, Starts tools (closed text) taken rest node

section Answers

variable {tools} {tokens : List Token} {node : Node}

theorem derives_nonempty {nonterminal : Nonterminal} {bare : Bool}
    (h : Derives tools nonterminal bare tokens node) : tokens ≠ [] := by
  induction h with
  | path hpath =>
    obtain ⟨first, later, rfl, -⟩ := pathOf_first hpath
    exact List.cons_ne_nil _ _
  | _ => simp_all

-- No token is the end of the text.
def inText (tokens : List Token) : Bool := tokens.all fun token => token.tokenType ≠ .eof

theorem valueOf_inText {token : Token} {value : Json} (h : ValueOf tools token value) :
    token.tokenType ≠ .eof := by
  intro heq
  have := valueOf_type h
  rw [heq] at this
  exact absurd this (by decide)

theorem pathOf_inText {field : String} (h : PathOf tokens field) : inText tokens := by
  induction h with
  | name h => simp [inText, h]
  | dot _ hdot h ih => simp_all [inText]

theorem listOf_inText {values : List Json} (h : ListOf tools tokens values) : inText tokens := by
  induction h with
  | nil => rfl
  | last h => simp [inText, valueOf_inText h]
  | cons h hcomma _ ih => simp_all [inText, valueOf_inText h]

theorem operatorOf_inText {op : String} (h : OperatorOf tokens op) : inText tokens := by
  cases h <;> simp_all [inText]

theorem derives_inText {nonterminal : Nonterminal} {bare : Bool}
    (h : Derives tools nonterminal bare tokens node) : inText tokens := by
  induction h with
  | orOne _ ih => exact ih
  | orMore _ htoken _ ihleft ihright => simp_all [inText]
  | andOne _ ih => exact ih
  | andMore _ htoken _ ihleft ihright => simp_all [inText]
  | parens hleft _ hright ih => simp_all [inText]
  | not htoken _ ih => simp_all [inText]
  | path hpath => exact pathOf_inText hpath
  | existing hpath htoken =>
    have := pathOf_inText hpath
    simp_all [inText]
  | notExisting hpath hnot htoken =>
    have := pathOf_inText hpath
    simp_all [inText]
  | has hpath hhas h =>
    have := pathOf_inText hpath
    have := valueOf_inText h
    simp_all [inText]
  | hasAny hpath hhas hany hleft hlist hright =>
    have := pathOf_inText hpath
    have := listOf_inText hlist
    simp_all [inText]
  | hasAll hpath hhas hall hleft hlist hright =>
    have := pathOf_inText hpath
    have := listOf_inText hlist
    simp_all [inText]
  | compare hpath hop h =>
    have := pathOf_inText hpath
    have := operatorOf_inText hop
    have := valueOf_inText h
    simp_all [inText]

theorem current_append {eof : Token} (heof : eof.tokenType = .eof) (rest : List Token) :
    (current (rest ++ [eof])).tokenType = (current rest).tokenType := by
  cases rest with
  | nil => exact heof
  | cons token rest => rfl

-- The parser takes a text of the language, at the front of the tokens.
theorem parse_eq_pure_iff {eof : Token} (heof : eof.tokenType = .eof) :
    parse tools (tokens ++ [eof]) = pure node ↔ ∃ taken rest bare, tokens = taken ++ rest ∧
      Derives tools .or bare taken node ∧ Ends .or bare (current rest).tokenType := by
  constructor
  · intro h
    unfold parse at h
    split_ifs at h
    · exact absurd h throw_ne_pure
    obtain ⟨⟨node', rest⟩, hor, hresult⟩ := bind_eq_pure.mp h
    obtain rfl := pure_inj hresult
    obtain ⟨taken, bare, htokens, hderives, hends⟩ := orExpr_sound hor
    have hinText := derives_inText hderives
    rcases List.eq_nil_or_concat' rest with rfl | ⟨front, last, rfl⟩
    · rw [List.append_nil] at htokens
      rw [List.nil_append, ← htokens] at hinText
      simp [inText, heof] at hinText
    · rw [← List.append_assoc] at htokens
      obtain ⟨rfl, hlast⟩ := List.append_inj' htokens rfl
      obtain rfl := (List.cons.inj hlast).1
      rw [current_append heof] at hends
      exact ⟨taken, front, bare, rfl, hderives, hends⟩
  · rintro ⟨taken, rest, bare, rfl, hderives, hends⟩
    have hne := derives_nonempty hderives
    have hlength : taken.length ≠ 0 := fun h => hne (List.length_eq_zero_iff.mp h)
    unfold parse
    rw [if_neg]
    · rw [List.append_assoc, orExpr_complete hderives (by rwa [current_append heof])
        (by simp only [List.length_append, List.length_cons, List.length_nil]; omega)]
      rfl
    · rintro (h | ⟨h, -⟩)
      · simp at h
      · simp only [List.length_append, List.length_cons, List.length_nil] at h
        omega

theorem parse_returns : parse tools tokens ≠ outOfFuel := by
  unfold parse
  split_ifs
  · exact throw_ne_outOfFuel
  · exact bind_ne_outOfFuel (orExpr_returns le_rfl) fun _ _ => pure_ne_outOfFuel

-- A query is answered with a tree or with an error.
theorem parseQuery_returns (tools : QueryTools) (query : String) :
    (∃ e, parseQuery tools query = throw e) ∨ ∃ node, parseQuery tools query = pure node := by
  obtain ⟨eof, -, hsome, -⟩ := tokenize_ok_iff tools query
  rcases parsed_cases (parseQuery tools query) with h | h | h
  · exfalso
    obtain ⟨result, hresult⟩ := Option.isSome_iff_exists.mp hsome
    unfold parseQuery at h
    rw [hresult] at h
    cases result with
    | error e => exact throw_ne_outOfFuel h
    | ok tokens => exact parse_returns h
  · exact .inl h
  · exact .inr h

-- What the parser accepts: the text as the lexer takes it starts with a text of the language.
theorem parseQuery_eq_pure_iff (query : String) : parseQuery tools query = pure node ↔
    ∃ taken rest, Starts tools (closed query.toList) taken rest node := by
  obtain ⟨eof, heof, hsome, hok⟩ := tokenize_ok_iff tools query
  constructor
  · intro h
    obtain ⟨tokens, htokens, hparse⟩ := bind_eq_pure.mp h
    obtain ⟨tokens, rfl, hlexes⟩ := (hok tokens).mp htokens
    obtain ⟨taken, rest, bare, rfl, hderives, hends⟩ := (parse_eq_pure_iff heof).mp hparse
    exact ⟨taken, rest, hlexes, bare, hderives, hends⟩
  · rintro ⟨taken, rest, hlexes, bare, hderives, hends⟩
    refine bind_eq_pure.mpr ⟨(taken ++ rest) ++ [eof], (hok _).mpr ⟨_, rfl, hlexes⟩, ?_⟩
    exact (parse_eq_pure_iff heof).mpr ⟨taken, rest, bare, rfl, hderives, hends⟩

-- Where the text is taken as it is, its tokens are not left to choice.
theorem starts_unique {query : String} {taken rest taken' rest' : List Token} {node' : Node}
    (hclosed : closed query.toList = query.toList) (h : Starts tools query.toList taken rest node)
    (h' : Starts tools query.toList taken' rest' node') : rest = rest' := by
  obtain ⟨eof, heof, hsome, hok⟩ := tokenize_ok_iff tools query
  rw [hclosed] at hok
  have hread := (hok _).mpr ⟨_, rfl, h.lexes⟩
  rw [(hok _).mpr ⟨_, rfl, h'.lexes⟩] at hread
  have htokens : (taken' ++ rest') ++ [eof] = (taken ++ rest) ++ [eof] := Except.ok.inj (Option.some.inj hread)
  obtain ⟨bare, hderives, hends⟩ := h.derives
  obtain ⟨bare', hderives', hends'⟩ := h'.derives
  rw [List.append_assoc, List.append_assoc] at htokens
  have hfuel : 4 * taken.length + 5 ≤ 4 * taken.length + 4 * taken'.length + 5 := by omega
  have hfuel' : 4 * taken'.length + 5 ≤ 4 * taken.length + 4 * taken'.length + 5 := by omega
  have hor : orExpr tools _ (taken ++ (rest ++ [eof])) = pure (node, rest ++ [eof]) :=
    orExpr_complete hderives (by rwa [current_append heof]) hfuel
  have hor' : orExpr tools _ (taken' ++ (rest' ++ [eof])) = pure (node', rest' ++ [eof]) :=
    orExpr_complete hderives' (by rwa [current_append heof]) hfuel'
  rw [htokens, hor] at hor'
  exact (List.append_inj_left' (Prod.mk.inj (pure_inj hor')).2 rfl)

theorem starts_of_accepted {text : List Char} (h : Accepted tools text) :
    ∃ taken node, Starts tools text taken [] node := by
  obtain ⟨tokens, bare, node, hlexes, hderives⟩ := h
  refine ⟨tokens, node, by rwa [List.append_nil], bare, hderives, ?_⟩
  simp [Ends, current]

theorem accepted_of_starts {text : List Char} {taken : List Token} (h : Starts tools text taken [] node) :
    Accepted tools text := by
  obtain ⟨bare, hderives, -⟩ := h.derives
  have hlexes := h.lexes
  rw [List.append_nil] at hlexes
  exact ⟨taken, bare, node, hlexes, hderives⟩

end Answers

section Exactly

variable {tools} {query : String}

theorem answeredExactly_iff : AnsweredExactly tools query ↔
    (Accepted tools query.toList ↔ ∃ taken rest node, Starts tools (closed query.toList) taken rest node) := by
  have hpure : (∃ node, parseQuery tools query = pure node) ↔
      ∃ taken rest node, Starts tools (closed query.toList) taken rest node := by
    constructor
    · rintro ⟨node, h⟩
      obtain ⟨taken, rest, hstarts⟩ := (parseQuery_eq_pure_iff query).mp h
      exact ⟨taken, rest, node, hstarts⟩
    · rintro ⟨taken, rest, node, hstarts⟩
      exact ⟨node, (parseQuery_eq_pure_iff query).mpr ⟨taken, rest, hstarts⟩⟩
  have hthrow : (∃ e, parseQuery tools query = throw e) ↔ ¬∃ node, parseQuery tools query = pure node := by
    constructor
    · rintro ⟨e, he⟩ ⟨node, hnode⟩
      rw [he] at hnode
      exact throw_ne_pure hnode
    · intro h
      exact (parseQuery_returns tools query).resolve_right h
  rw [AnsweredExactly, hthrow, hpure]
  exact ⟨fun h => ⟨h.1, not_imp_not.mp h.2⟩, fun h => ⟨h.mp, mt h.mpr⟩⟩

-- A text that is taken as it is: what it starts with is the whole of it, or tokens are left over.
theorem leftover_iff (hclosed : closed query.toList = query.toList) : Leftover tools query.toList ↔
    ¬(Accepted tools query.toList ↔ ∃ taken rest node, Starts tools query.toList taken rest node) := by
  constructor
  · rintro ⟨-, taken, rest, node, hrest, hstarts⟩ hiff
    obtain ⟨taken', node', hstarts'⟩ := starts_of_accepted (hiff.mpr ⟨taken, rest, node, hstarts⟩)
    exact hrest (starts_unique hclosed hstarts hstarts')
  · intro hiff
    refine ⟨hclosed, ?_⟩
    by_contra hno
    refine hiff ⟨fun h => ?_, fun ⟨taken, rest, node, hstarts⟩ => ?_⟩
    · obtain ⟨taken, node, hstarts⟩ := starts_of_accepted h
      exact ⟨taken, [], node, hstarts⟩
    · obtain rfl : rest = [] := by
        by_contra hrest
        exact hno ⟨taken, rest, node, hrest, hstarts⟩
      exact accepted_of_starts hstarts

end Exactly

-- A query is answered as the grammar says exactly when its text neither leaves tokens behind, nor is
-- mended by the lexer, nor broken by it.
theorem answers_exactly_iff (query : String) : AnsweredExactly tools query ↔
    ¬(Leftover tools query.toList ∨ Mended tools query.toList ∨ Broken tools query.toList) := by
  rw [answeredExactly_iff]
  by_cases hclosed : closed query.toList = query.toList
  · have hleft := @leftover_iff tools query hclosed
    rw [hclosed, Mended, Broken, hleft]
    simp [hclosed]
  · have hno : ¬Leftover tools query.toList := fun h => hclosed h.1
    by_cases haccepted : Accepted tools query.toList
    · simp [Mended, Broken, hno, hclosed, haccepted]
    · simp [Mended, Broken, hno, hclosed, haccepted]

section Ascii

-- The decimal without the zeros at its end.
def trimZeros : Nat → Nat → Int → Decimal
  | 0, _, _ => ⟨false, 0, 0, .inr ⟨rfl, rfl⟩⟩
  | fuel + 1, digits, exponent =>
    if h : digits % 10 ≠ 0 then ⟨false, digits, exponent, .inl h⟩
    else trimZeros fuel (digits / 10) (exponent + 1)

-- A numeral of so few digits that it is the shortest one for its float.
def parseShort (text : String) : Option (Option Decimal) :=
  let whole := text.toList.takeWhile Char.isDigit
  let fraction := (text.toList.dropWhile Char.isDigit).tail
  let digits := whole ++ fraction
  if whole ≠ [] ∧ text.toList.getD whole.length '.' = '.' ∧ digits.all Char.isDigit ∧ digits.length ≤ 15 then
    some (some (trimZeros 16 (digits.foldl (fun n c => 10 * n + (c.toNat - 48)) 0) (-fraction.length)))
  else none

theorem toNat_of_isAlpha {c : Char} (h : c.isAlpha) :
    65 ≤ c.toNat ∧ c.toNat ≤ 90 ∨ 97 ≤ c.toNat ∧ c.toNat ≤ 122 := by
  have hc : c.val.toNat = c.toNat := rfl
  have hletter : (decide ('A'.val ≤ c.val ∧ c.val ≤ 'Z'.val) || ('a'.val ≤ c.val && c.val ≤ 'z'.val)) = true := h
  simp only [Bool.or_eq_true, Bool.and_eq_true, decide_eq_true_eq, UInt32.le_iff_toNat_le, hc] at hletter
  simpa using hletter

theorem toNat_of_isDigit {c : Char} (h : c.isDigit) : 48 ≤ c.toNat ∧ c.toNat ≤ 57 := by
  have hc : c.val.toNat = c.toNat := rfl
  simp only [Char.isDigit, Bool.and_eq_true, decide_eq_true_eq, UInt32.le_iff_toNat_le, hc] at h
  simpa using h

theorem not_blank_of_ascii {c : Char} (h : c.isAlpha ∨ c.isDigit) : isWhitespace c = false := by
  have hval : 48 ≤ c.toNat ∧ c.toNat ≤ 122 := by
    rcases h with h | h
    · have := toNat_of_isAlpha h
      omega
    · have := toNat_of_isDigit h
      omega
  simp only [isWhitespace, decide_eq_false_iff_not]
  omega

-- The letters and digits of ASCII, and short numerals.
def asciiTools : QueryTools where
  isAlphabetic := Char.isAlpha
  isNumeric := Char.isDigit
  toLowercase text := String.ofList (text.toList.map Char.toLower)
  parseF64 := parseShort
  alphabetic_ascii _ _ := rfl
  numeric_ascii _ _ := rfl
  blank_neither c h := by
    constructor
    · by_contra halpha
      rw [not_blank_of_ascii (.inl (by simpa using halpha))] at h
      exact absurd h (by decide)
    · by_contra hdigit
      rw [not_blank_of_ascii (.inr (by simpa using hdigit))] at h
      exact absurd h (by decide)
  lowercase_ascii text _ := by rw [String.toList_ofList]

def strayParen : String := "age > 30 )"

def strayParenTokens : List Token :=
  [⟨.ident, "age", 0⟩, ⟨.gt, ">", 4⟩, ⟨.number, "30", 6⟩, ⟨.rParen, ")", 9⟩]

theorem tokenize_strayParen :
    tokenize asciiTools strayParen = some (.ok (strayParenTokens ++ [⟨.eof, "", 10⟩])) := by
  rfl

-- A parenthesis that closes nothing is passed over.
theorem strayParen_answered : ¬∀ tools query, AnsweredExactly tools query := by
  intro h
  have hclosed : closed strayParen.toList = strayParen.toList := by decide
  obtain ⟨eof, -, -, hok⟩ := tokenize_ok_iff asciiTools strayParen
  obtain ⟨tokens, htokens, hlexes⟩ := (hok _).mp tokenize_strayParen
  obtain ⟨rfl, -⟩ : strayParenTokens = tokens ∧ _ := List.append_inj' htokens rfl
  rw [hclosed] at hlexes
  have hnumber : ValueOf asciiTools ⟨.number, "30", 6⟩ (.num (.float ⟨false, 3, 1, by decide⟩)) :=
    .number rfl rfl
  have hstarts : Starts asciiTools strayParen.toList [⟨.ident, "age", 0⟩, ⟨.gt, ">", 4⟩, ⟨.number, "30", 6⟩]
      [⟨.rParen, ")", 9⟩] (.compareOp "age" ">" (.num (.float ⟨false, 3, 1, by decide⟩))) :=
    ⟨hlexes, false, .orOne (.andOne (.compare (.name rfl) (.gt rfl) hnumber)), by simp [Ends, current]⟩
  have hleft : Leftover asciiTools strayParen.toList := ⟨hclosed, _, _, _, by simp, hstarts⟩
  have hexact := answeredExactly_iff.mp (h asciiTools strayParen)
  rw [hclosed] at hexact
  exact (leftover_iff hclosed).mp hleft hexact

end Ascii

end JasonDb.Query
