import JasonDb.Query.Lexical

namespace JasonDb.Query

variable (tools : QueryTools)

-- A value is one token.
inductive ValueOf : Token → Json → Prop where
  | number {token : Token} {value : Decimal} (h : token.tokenType = .number)
      (hvalue : tools.parseF64 token.value = some (some value)) : ValueOf token (.num (.float value))
  | string {token : Token} (h : token.tokenType = .string) : ValueOf token (.str token.value)
  | ident {token : Token} (h : token.tokenType = .ident) : ValueOf token (.str token.value)
  | true {token : Token} (h : token.tokenType = .true) : ValueOf token (.bool true)
  | false {token : Token} (h : token.tokenType = .false) : ValueOf token (.bool false)
  | null {token : Token} (h : token.tokenType = .null) : ValueOf token .null

-- path := ident ('.' ident)*
inductive PathOf : List Token → String → Prop where
  | name {token : Token} (h : token.tokenType = .ident) : PathOf [token] token.value
  | dot {tokens : List Token} {field : String} {dot token : Token} (hpath : PathOf tokens field)
      (hdot : dot.tokenType = .dot) (h : token.tokenType = .ident) :
      PathOf (tokens ++ [dot, token]) (field ++ "." ++ token.value)

-- (value (',' value)* ','?)?
inductive ListOf : List Token → List Json → Prop where
  | nil : ListOf [] []
  | last {token : Token} {value : Json} (h : ValueOf tools token value) : ListOf [token] [value]
  | cons {token comma : Token} {value : Json} {tokens : List Token} {values : List Json}
      (h : ValueOf tools token value) (hcomma : comma.tokenType = .comma) (hlist : ListOf tokens values) :
      ListOf (token :: comma :: tokens) (value :: values)

-- op := '>' | '>=' | '<' | '<=' | 'is' | 'is' 'not'
inductive OperatorOf : List Token → String → Prop where
  | gt {token : Token} (h : token.tokenType = .gt) : OperatorOf [token] ">"
  | gte {token : Token} (h : token.tokenType = .gte) : OperatorOf [token] ">="
  | lt {token : Token} (h : token.tokenType = .lt) : OperatorOf [token] "<"
  | lte {token : Token} (h : token.tokenType = .lte) : OperatorOf [token] "<="
  | is {token : Token} (h : token.tokenType = .is) : OperatorOf [token] "is"
  | isNot {token not : Token} (h : token.tokenType = .is) (hnot : not.tokenType = .not) :
      OperatorOf [token, not] "is_not"

inductive Nonterminal where
  | or
  | and
  | cmp

-- The grammar, with the tree that each derivation stands for. The flag tells that the tokens end with
-- a path alone.
--   or := and ('or' and)*, and := cmp ('and' cmp)*,
--   cmp := '(' or ')' | 'not' cmp | path ('exists' | 'not' 'exists' | 'has' value |
--     'has' ('any' | 'all') '[' list ']' | op value)?
inductive Derives : Nonterminal → Bool → List Token → Node → Prop where
  | orOne {bare : Bool} {tokens : List Token} {node : Node} (h : Derives .and bare tokens node) :
      Derives .or bare tokens node
  | orMore {bare bare' : Bool} {tokens tokens' : List Token} {token : Token} {left right : Node}
      (hleft : Derives .or bare' tokens left) (htoken : token.tokenType = .or)
      (hright : Derives .and bare tokens' right) :
      Derives .or bare (tokens ++ token :: tokens') (.binaryOp "or" left right)
  | andOne {bare : Bool} {tokens : List Token} {node : Node} (h : Derives .cmp bare tokens node) :
      Derives .and bare tokens node
  | andMore {bare bare' : Bool} {tokens tokens' : List Token} {token : Token} {left right : Node}
      (hleft : Derives .and bare' tokens left) (htoken : token.tokenType = .and)
      (hright : Derives .cmp bare tokens' right) :
      Derives .and bare (tokens ++ token :: tokens') (.binaryOp "and" left right)
  | parens {bare : Bool} {lParen rParen : Token} {tokens : List Token} {node : Node}
      (hleft : lParen.tokenType = .lParen) (h : Derives .or bare tokens node)
      (hright : rParen.tokenType = .rParen) : Derives .cmp false (lParen :: (tokens ++ [rParen])) node
  | not {bare : Bool} {token : Token} {tokens : List Token} {child : Node} (htoken : token.tokenType = .not)
      (h : Derives .cmp bare tokens child) : Derives .cmp bare (token :: tokens) (.unaryOp "not" child)
  | path {tokens : List Token} {field : String} (hpath : PathOf tokens field) :
      Derives .cmp true tokens (.compareOp field "is" (.bool true))
  | existing {tokens : List Token} {field : String} {token : Token} (hpath : PathOf tokens field)
      (htoken : token.tokenType = .exists) : Derives .cmp false (tokens ++ [token]) (.existsOp field false)
  | notExisting {tokens : List Token} {field : String} {not token : Token} (hpath : PathOf tokens field)
      (hnot : not.tokenType = .not) (htoken : token.tokenType = .exists) :
      Derives .cmp false (tokens ++ [not, token]) (.existsOp field true)
  | has {tokens : List Token} {field : String} {has token : Token} {value : Json}
      (hpath : PathOf tokens field) (hhas : has.tokenType = .has) (h : ValueOf tools token value) :
      Derives .cmp false (tokens ++ [has, token]) (.hasOp field "has" [value])
  | hasAny {tokens list : List Token} {field : String} {has any lBracket rBracket : Token}
      {values : List Json} (hpath : PathOf tokens field) (hhas : has.tokenType = .has)
      (hany : any.tokenType = .any) (hleft : lBracket.tokenType = .lBracket) (hlist : ListOf tools list values)
      (hright : rBracket.tokenType = .rBracket) :
      Derives .cmp false (tokens ++ has :: any :: lBracket :: (list ++ [rBracket]))
        (.hasOp field "has_any" values)
  | hasAll {tokens list : List Token} {field : String} {has all lBracket rBracket : Token}
      {values : List Json} (hpath : PathOf tokens field) (hhas : has.tokenType = .has)
      (hall : all.tokenType = .all) (hleft : lBracket.tokenType = .lBracket) (hlist : ListOf tools list values)
      (hright : rBracket.tokenType = .rBracket) :
      Derives .cmp false (tokens ++ has :: all :: lBracket :: (list ++ [rBracket]))
        (.hasOp field "has_all" values)
  | compare {tokens operator : List Token} {field op : String} {token : Token} {value : Json}
      (hpath : PathOf tokens field) (hop : OperatorOf operator op) (h : ValueOf tools token value) :
      Derives .cmp false (tokens ++ (operator ++ [token])) (.compareOp field op value)

-- What follows a text of the grammar that is read to its end: nothing that goes on with it.
def Ends : Nonterminal → Bool → TokenType → Prop
  | .cmp, bare, next => bare → next ∈ [.eof, .and, .or, .rParen]
  | .and, bare, next => (bare → next ∈ [.eof, .and, .or, .rParen]) ∧ next ≠ .and
  | .or, bare, next => (bare → next ∈ [.eof, .and, .or, .rParen]) ∧ next ≠ .and ∧ next ≠ .or

section Results

variable {α β : Type} {x : Parsed α} {f : α → Parsed β} {b : β}

theorem parsed_cases (x : Parsed α) : x = outOfFuel ∨ (∃ e, x = throw e) ∨ ∃ a, x = pure a := by
  rcases x with _ | e | a
  · exact .inl rfl
  · exact .inr (.inl ⟨e, rfl⟩)
  · exact .inr (.inr ⟨a, rfl⟩)

theorem bind_eq_pure : x >>= f = pure b ↔ ∃ a, x = pure a ∧ f a = pure b := by
  constructor
  · intro h
    rcases parsed_cases x with rfl | ⟨e, rfl⟩ | ⟨a, rfl⟩
    · cases h
    · cases h
    · exact ⟨a, rfl, by rwa [pure_bind] at h⟩
  · rintro ⟨a, rfl, h⟩
    rwa [pure_bind]

theorem bind_ne_outOfFuel (hx : x ≠ outOfFuel) (hf : ∀ a, x = pure a → f a ≠ outOfFuel) :
    x >>= f ≠ outOfFuel := by
  rcases parsed_cases x with rfl | ⟨e, rfl⟩ | ⟨a, rfl⟩
  · exact absurd rfl hx
  · nofun
  · rw [pure_bind]
    exact hf a rfl

theorem outOfFuel_ne_pure {a : α} : (outOfFuel : Parsed α) ≠ pure a := nofun

theorem throw_ne_pure {e : String} {a : α} : (throw e : Parsed α) ≠ pure a := nofun

theorem throw_ne_outOfFuel {e : String} : (throw e : Parsed α) ≠ outOfFuel := nofun

theorem pure_ne_outOfFuel {a : α} : (pure a : Parsed α) ≠ outOfFuel := nofun

theorem fail_ne_pure {expected : String} {tokens : List Token} {a : α} :
    (fail expected tokens : Parsed α) ≠ pure a := nofun

theorem fail_ne_outOfFuel {expected : String} {tokens : List Token} :
    (fail expected tokens : Parsed α) ≠ outOfFuel := nofun

theorem pure_inj {a a' : α} (h : (pure a : Parsed α) = pure a') : a = a' := by
  injection h with h
  injection h

end Results

section Matching

variable {tokenType : TokenType} {token : Token} {tokens rest : List Token}

theorem matchToken_nil : matchToken tokenType [] = none := by
  simp [matchToken, check, isAtEnd, current]

theorem matchToken_cons (hne : tokenType ≠ .eof) : matchToken tokenType (token :: rest) =
    if token.tokenType = tokenType then some (token, rest) else none := by
  by_cases h : token.tokenType = tokenType
  · subst h
    simp [matchToken, check, isAtEnd, current, advance, hne]
  · simp [matchToken, check, current, h]

theorem matchToken_eq_some (hne : tokenType ≠ .eof) (h : matchToken tokenType tokens = some (token, rest)) :
    tokens = token :: rest ∧ token.tokenType = tokenType := by
  cases tokens with
  | nil =>
    rw [matchToken_nil] at h
    cases h
  | cons first tokens =>
    rw [matchToken_cons hne] at h
    split_ifs at h with htype
    obtain ⟨rfl, rfl⟩ := Prod.mk.inj (Option.some.inj h)
    exact ⟨rfl, htype⟩

theorem matchToken_eq_none (hne : tokenType ≠ .eof) :
    matchToken tokenType tokens = none ↔ (current tokens).tokenType ≠ tokenType := by
  cases tokens with
  | nil => simp [matchToken_nil, current, hne.symm]
  | cons first tokens =>
    rw [matchToken_cons hne]
    simp [current]

theorem check_eq (hne : tokenType ≠ .eof) :
    check tokenType tokens = decide ((current tokens).tokenType = tokenType) := by
  unfold check
  split
  case isTrue h =>
    have : (current tokens).tokenType = .eof := by simpa [isAtEnd] using h
    simp [this, hne.symm]
  case isFalse h => rfl

end Matching

section Parts

variable {tools} {fuel : Nat} {tokens rest : List Token} {token : Token} {value : Json}

theorem parseValue_complete (h : ValueOf tools token value) :
    parseValue tools (token :: rest) = pure (value, rest) := by
  unfold parseValue
  cases h with
  | number h hvalue => simp [matchToken_cons, h, hvalue]
  | string h => simp [matchToken_cons, h]
  | ident h => simp [matchToken_cons, h]
  | true h => simp [matchToken_cons, h]
  | false h => simp [matchToken_cons, h]
  | null h => simp [matchToken_cons, h]

-- A value is the first token, or there is none.
theorem parseValue_cases (tools : QueryTools) (tokens : List Token) :
    (∃ token rest value, tokens = token :: rest ∧ ValueOf tools token value) ∨
    ∃ e, parseValue tools tokens = throw e := by
  cases tokens with
  | nil =>
    simp only [parseValue, matchToken_nil]
    exact .inr ⟨_, rfl⟩
  | cons token rest =>
    cases htype : token.tokenType with
    | number =>
      have hnumber : matchToken .number (token :: rest) = some (token, rest) := by
        rw [matchToken_cons (by decide), if_pos htype]
      cases hparse : tools.parseF64 token.value with
      | none =>
        simp only [parseValue, hnumber, hparse]
        exact .inr ⟨_, rfl⟩
      | some float =>
        cases float with
        | none =>
          simp only [parseValue, hnumber, hparse]
          exact .inr ⟨_, rfl⟩
        | some float => exact .inl ⟨token, rest, _, rfl, .number htype hparse⟩
    | string => exact .inl ⟨token, rest, _, rfl, .string htype⟩
    | ident => exact .inl ⟨token, rest, _, rfl, .ident htype⟩
    | true => exact .inl ⟨token, rest, _, rfl, .true htype⟩
    | false => exact .inl ⟨token, rest, _, rfl, .false htype⟩
    | null => exact .inl ⟨token, rest, _, rfl, .null htype⟩
    | _ =>
      simp only [parseValue, fail, matchToken_cons, htype, ne_eq, reduceCtorEq, not_false_eq_true, if_false]
      exact .inr ⟨_, rfl⟩

theorem parseValue_sound (h : parseValue tools tokens = pure (value, rest)) :
    ∃ token, tokens = token :: rest ∧ ValueOf tools token value := by
  rcases parseValue_cases tools tokens with ⟨token, rest', value', rfl, hvalue⟩ | ⟨e, he⟩
  · rw [parseValue_complete hvalue] at h
    obtain ⟨rfl, rfl⟩ := Prod.mk.inj (pure_inj h)
    exact ⟨token, rfl, hvalue⟩
  · rw [he] at h
    exact absurd h throw_ne_pure

theorem parseValue_returns : parseValue tools tokens ≠ outOfFuel := by
  rcases parseValue_cases tools tokens with ⟨token, rest', value', rfl, hvalue⟩ | ⟨e, he⟩
  · rw [parseValue_complete hvalue]
    exact pure_ne_outOfFuel
  · rw [he]
    exact throw_ne_outOfFuel

-- The values of a list end before its bracket, unless the list is not closed.
theorem parseValues_sound {values : List Json} (h : parseValues tools fuel tokens = pure (values, rest)) :
    ∃ list, tokens = list ++ rest ∧ ListOf tools list values := by
  induction fuel generalizing tokens values with
  | zero => exact absurd h outOfFuel_ne_pure
  | succ fuel ih =>
    unfold parseValues at h
    split_ifs at h
    · obtain ⟨rfl, rfl⟩ := Prod.mk.inj (pure_inj h)
      exact ⟨[], rfl, .nil⟩
    · obtain ⟨⟨value, tokens'⟩, hfirst, hloop⟩ := bind_eq_pure.mp h
      obtain ⟨token, rfl, hvalue⟩ := parseValue_sound hfirst
      cases hcomma : matchToken .comma tokens' with
      | none =>
        simp only [hcomma] at hloop
        obtain ⟨rfl, rfl⟩ := Prod.mk.inj (pure_inj hloop)
        exact ⟨[token], rfl, .last hvalue⟩
      | some found =>
        obtain ⟨comma, tokens''⟩ := found
        obtain ⟨rfl, htype⟩ := matchToken_eq_some (by decide) hcomma
        simp only [hcomma] at hloop
        obtain ⟨⟨values', rest'⟩, hvalues, hresult⟩ := bind_eq_pure.mp hloop
        obtain ⟨rfl, rfl⟩ := Prod.mk.inj (pure_inj hresult)
        obtain ⟨list, rfl, hlist⟩ := ih hvalues
        exact ⟨token :: comma :: list, rfl, .cons hvalue htype hlist⟩

theorem valueOf_type (h : ValueOf tools token value) :
    token.tokenType ∈ [.number, .string, .ident, .true, .false, .null] := by
  cases h <;> simp_all

theorem valueOf_ne_rBracket (h : ValueOf tools token value) : token.tokenType ≠ .rBracket := by
  intro heq
  have := valueOf_type h
  rw [heq] at this
  exact absurd this (by decide)

theorem parseValues_complete {list : List Token} {values : List Json} (h : ListOf tools list values)
    (hrest : (current rest).tokenType = .rBracket) (hfuel : list.length < fuel) :
    parseValues tools fuel (list ++ rest) = pure (values, rest) := by
  induction h generalizing fuel with
  | nil =>
    obtain ⟨fuel, rfl⟩ : ∃ less, fuel = less + 1 := ⟨fuel - 1, by omega⟩
    simp [parseValues, check_eq, hrest]
  | @last token value h =>
    obtain ⟨fuel, rfl⟩ : ∃ less, fuel = less + 1 := ⟨fuel - 1, by omega⟩
    have hcomma : matchToken .comma rest = none := (matchToken_eq_none (by decide)).mpr (by simp [hrest])
    have hfirst := valueOf_ne_rBracket h
    simp [parseValues, check_eq, current, hfirst, parseValue_complete h, hcomma]
  | @cons token comma value tokens values h hcomma hlist ih =>
    obtain ⟨fuel, rfl⟩ : ∃ less, fuel = less + 1 := ⟨fuel - 1, by omega⟩
    have hfirst := valueOf_ne_rBracket h
    have hlater := @ih fuel (by simp only [List.length_cons] at hfuel; omega)
    simp [parseValues, check_eq, current, hfirst, parseValue_complete h, matchToken_cons, hcomma, hlater]

theorem parseValues_returns (hfuel : tokens.length < fuel) : parseValues tools fuel tokens ≠ outOfFuel := by
  induction fuel generalizing tokens with
  | zero => omega
  | succ fuel ih =>
    unfold parseValues
    split_ifs
    · exact pure_ne_outOfFuel
    · refine bind_ne_outOfFuel parseValue_returns fun ⟨value, tokens'⟩ hvalue => ?_
      obtain ⟨token, rfl, -⟩ := parseValue_sound hvalue
      cases hcomma : matchToken .comma tokens' with
      | none =>
        simp only [hcomma]
        exact pure_ne_outOfFuel
      | some found =>
        obtain ⟨comma, tokens''⟩ := found
        obtain ⟨rfl, -⟩ := matchToken_eq_some (by decide) hcomma
        simp only [hcomma]
        simp only [List.length_cons] at hfuel
        exact bind_ne_outOfFuel (ih (by omega)) fun _ _ => pure_ne_outOfFuel

theorem fieldPath_sound {field path : String} {front : List Token} (hfront : PathOf front field)
    (h : fieldPath fuel field tokens = pure (path, rest)) :
    ∃ names, tokens = names ++ rest ∧ PathOf (front ++ names) path ∧ (current rest).tokenType ≠ .dot := by
  induction fuel generalizing tokens field front with
  | zero => exact absurd h outOfFuel_ne_pure
  | succ fuel ih =>
    unfold fieldPath at h
    cases hdot : matchToken .dot tokens with
    | none =>
      simp only [hdot] at h
      obtain ⟨rfl, rfl⟩ := Prod.mk.inj (pure_inj h)
      exact ⟨[], rfl, by rwa [List.append_nil], (matchToken_eq_none (by decide)).mp hdot⟩
    | some found =>
      obtain ⟨dot, tokens'⟩ := found
      obtain ⟨rfl, hdot'⟩ := matchToken_eq_some (by decide) hdot
      cases hname : matchToken .ident tokens' with
      | none =>
        simp only [hdot, hname] at h
        exact absurd h fail_ne_pure
      | some found =>
        obtain ⟨token, tokens''⟩ := found
        obtain ⟨rfl, hname'⟩ := matchToken_eq_some (by decide) hname
        simp only [hdot, hname] at h
        obtain ⟨names, rfl, hpath, hrest⟩ := ih (.dot hfront hdot' hname') h
        exact ⟨dot :: token :: names, rfl, by simpa using hpath, hrest⟩

theorem fieldPath_returns {field : String} (hfuel : tokens.length < fuel) :
    fieldPath fuel field tokens ≠ outOfFuel := by
  induction fuel generalizing tokens field with
  | zero => omega
  | succ fuel ih =>
    unfold fieldPath
    cases hdot : matchToken .dot tokens with
    | none => exact pure_ne_outOfFuel
    | some found =>
      obtain ⟨dot, tokens'⟩ := found
      obtain ⟨rfl, -⟩ := matchToken_eq_some (by decide) hdot
      cases hname : matchToken .ident tokens' with
      | none =>
        simp only [hname]
        exact fail_ne_outOfFuel
      | some found =>
        obtain ⟨token, tokens''⟩ := found
        obtain ⟨rfl, -⟩ := matchToken_eq_some (by decide) hname
        simp only [hname]
        simp only [List.length_cons] at hfuel
        exact ih (by omega)

-- The loop adds the names of a path one by one; what it gives behind the path is left open.
theorem fieldPath_names {names : List Token} {path : String} (h : PathOf names path) :
    ∃ first later, names = first :: later ∧ first.tokenType = .ident ∧
      ∀ (behind : List Token) (result : Parsed (String × List Token)) (enough : Nat),
        (∀ fuel, enough ≤ fuel → fieldPath fuel path behind = result) →
        ∀ fuel, enough + later.length ≤ fuel → fieldPath fuel first.value (later ++ behind) = result := by
  induction h with
  | @name token h => exact ⟨token, [], rfl, h, fun behind result enough hresult => hresult⟩
  | @dot tokens field dot token hpath hdot h ih =>
    obtain ⟨first, later, rfl, hfirst, hlater⟩ := ih
    refine ⟨first, later ++ [dot, token], rfl, hfirst, fun behind result enough hresult fuel hfuel => ?_⟩
    rw [List.append_assoc]
    simp only [List.length_append, List.length_cons, List.length_nil] at hfuel
    refine hlater _ result (enough + 1) (fun fuel' hfuel' => ?_) fuel (by omega)
    obtain ⟨fuel', rfl⟩ : ∃ less, fuel' = less + 1 := ⟨fuel' - 1, by omega⟩
    rw [← hresult fuel' (by omega)]
    simp [fieldPath, matchToken_cons, hdot, h]

-- A path is read to the token behind it.
theorem fieldPath_complete {names : List Token} {path : String} (h : PathOf names path)
    (hrest : (current rest).tokenType ≠ .dot) : ∃ first later, names = first :: later ∧
      first.tokenType = .ident ∧ ∀ fuel, later.length < fuel →
        fieldPath fuel first.value (later ++ rest) = pure (path, rest) := by
  obtain ⟨first, later, rfl, hfirst, hlater⟩ := fieldPath_names h
  refine ⟨first, later, rfl, hfirst, fun fuel hfuel =>
    hlater rest (pure (path, rest)) 1 (fun fuel' hfuel' => ?_) fuel (by omega)⟩
  obtain ⟨fuel', rfl⟩ : ∃ less, fuel' = less + 1 := ⟨fuel' - 1, by omega⟩
  simp [fieldPath, (matchToken_eq_none (by decide)).mpr hrest]

theorem compareOperator_complete {operator : List Token} {op : String} (h : OperatorOf operator op)
    (hrest : (current rest).tokenType ≠ .not) : compareOperator (operator ++ rest) = some (op, rest) := by
  have hnot : matchToken .not rest = none := (matchToken_eq_none (by decide)).mpr hrest
  cases h with
  | gt h => simp [compareOperator, matchToken_cons, h]
  | gte h => simp [compareOperator, matchToken_cons, h]
  | lt h => simp [compareOperator, matchToken_cons, h]
  | lte h => simp [compareOperator, matchToken_cons, h]
  | is h => simp [compareOperator, matchToken_cons, h, hnot]
  | isNot h h' => simp [compareOperator, matchToken_cons, h, h']

theorem compareOperator_cases (tokens : List Token) :
    (∃ operator op rest, tokens = operator ++ rest ∧ OperatorOf operator op ∧
      compareOperator tokens = some (op, rest)) ∨
    compareOperator tokens = none ∧ (current tokens).tokenType ∉ [.gt, .gte, .lt, .lte, .is] := by
  cases tokens with
  | nil => exact .inr ⟨by simp [compareOperator, matchToken_nil], by simp [current]⟩
  | cons token rest =>
    cases htype : token.tokenType with
    | gt => exact .inl ⟨[token], _, rest, rfl, .gt htype, by simp [compareOperator, matchToken_cons, htype]⟩
    | gte => exact .inl ⟨[token], _, rest, rfl, .gte htype, by simp [compareOperator, matchToken_cons, htype]⟩
    | lt => exact .inl ⟨[token], _, rest, rfl, .lt htype, by simp [compareOperator, matchToken_cons, htype]⟩
    | lte => exact .inl ⟨[token], _, rest, rfl, .lte htype, by simp [compareOperator, matchToken_cons, htype]⟩
    | is =>
      cases hnot : matchToken .not rest with
      | none => exact .inl ⟨[token], _, rest, rfl, .is htype, by simp [compareOperator, matchToken_cons, htype, hnot]⟩
      | some found =>
        obtain ⟨not, rest'⟩ := found
        obtain ⟨rfl, hnot'⟩ := matchToken_eq_some (by decide) hnot
        exact .inl ⟨[token, not], _, rest', rfl, .isNot htype hnot',
          by simp [compareOperator, matchToken_cons, htype, hnot']⟩
    | _ => exact .inr ⟨by simp [compareOperator, matchToken_cons, htype], by simp [current, htype]⟩

theorem parseHasList_sound {field op : String} {node : Node}
    (h : parseHasList tools fuel field op tokens = pure (node, rest)) :
    ∃ lBracket list rBracket values, tokens = lBracket :: (list ++ rBracket :: rest) ∧
      lBracket.tokenType = .lBracket ∧ ListOf tools list values ∧ rBracket.tokenType = .rBracket ∧
      node = .hasOp field op values := by
  unfold parseHasList at h
  cases hleft : matchToken .lBracket tokens with
  | none =>
    simp only [hleft] at h
    exact absurd h fail_ne_pure
  | some found =>
    obtain ⟨lBracket, tokens'⟩ := found
    obtain ⟨rfl, hleft'⟩ := matchToken_eq_some (by decide) hleft
    simp only [hleft] at h
    obtain ⟨⟨values, tokens''⟩, hvalues, hclose⟩ := bind_eq_pure.mp h
    obtain ⟨list, rfl, hlist⟩ := parseValues_sound hvalues
    cases hright : matchToken .rBracket tokens'' with
    | none =>
      simp only [hright] at hclose
      exact absurd hclose fail_ne_pure
    | some found =>
      obtain ⟨rBracket, behind⟩ := found
      obtain ⟨rfl, hright'⟩ := matchToken_eq_some (by decide) hright
      simp only [hright] at hclose
      obtain ⟨rfl, rfl⟩ := Prod.mk.inj (pure_inj hclose)
      exact ⟨lBracket, list, rBracket, values, rfl, hleft', hlist, hright', rfl⟩

theorem parseHasList_complete {field op : String} {lBracket rBracket : Token} {list : List Token}
    {values : List Json} (hleft : lBracket.tokenType = .lBracket) (hlist : ListOf tools list values)
    (hright : rBracket.tokenType = .rBracket) (hfuel : list.length < fuel) :
    parseHasList tools fuel field op (lBracket :: (list ++ rBracket :: rest)) =
      pure (.hasOp field op values, rest) := by
  have hvalues : parseValues tools fuel (list ++ rBracket :: rest) = pure (values, rBracket :: rest) :=
    parseValues_complete hlist hright hfuel
  simp [parseHasList, matchToken_cons, hleft, hvalues, hright]

theorem parseHasList_returns {field op : String} (hfuel : tokens.length < fuel) :
    parseHasList tools fuel field op tokens ≠ outOfFuel := by
  unfold parseHasList
  cases hleft : matchToken .lBracket tokens with
  | none => exact fail_ne_outOfFuel
  | some found =>
    obtain ⟨lBracket, tokens'⟩ := found
    obtain ⟨rfl, -⟩ := matchToken_eq_some (by decide) hleft
    rw [List.length_cons] at hfuel
    refine bind_ne_outOfFuel (parseValues_returns (by omega)) fun ⟨values, tokens''⟩ _ => ?_
    cases hright : matchToken .rBracket tokens'' with
    | none => simp only [hright]; exact fail_ne_outOfFuel
    | some found => simp only [hright]; exact pure_ne_outOfFuel

end Parts

section Comparison

variable {tools} {fuel : Nat} {tokens rest : List Token} {node : Node} {field : String}

theorem fieldTest_sound {front : List Token} (hpath : PathOf front field)
    (h : fieldTest tools fuel field tokens = pure (node, rest)) : ∃ ts bare, tokens = ts ++ rest ∧
      Derives tools .cmp bare (front ++ ts) node ∧ Ends .cmp bare (current rest).tokenType := by
  unfold fieldTest at h
  cases hexists : matchToken .exists tokens with
  | some found =>
    obtain ⟨token, tokens'⟩ := found
    obtain ⟨rfl, htoken⟩ := matchToken_eq_some (by decide) hexists
    simp only [hexists] at h
    obtain ⟨rfl, rfl⟩ := Prod.mk.inj (pure_inj h)
    exact ⟨[token], false, rfl, .existing hpath htoken, nofun⟩
  | none =>
  simp only [hexists] at h
  cases hnot : matchToken .not tokens with
  | some found =>
    obtain ⟨not, tokens'⟩ := found
    obtain ⟨rfl, hnot'⟩ := matchToken_eq_some (by decide) hnot
    cases hexists' : matchToken .exists tokens' with
    | none =>
      simp only [hnot, hexists'] at h
      exact absurd h fail_ne_pure
    | some found =>
      obtain ⟨token, tokens''⟩ := found
      obtain ⟨rfl, htoken⟩ := matchToken_eq_some (by decide) hexists'
      simp only [hnot, hexists'] at h
      obtain ⟨rfl, rfl⟩ := Prod.mk.inj (pure_inj h)
      exact ⟨[not, token], false, rfl, .notExisting hpath hnot' htoken, nofun⟩
  | none =>
  simp only [hnot] at h
  cases hhas : matchToken .has tokens with
  | some found =>
    obtain ⟨has, tokens'⟩ := found
    obtain ⟨rfl, hhas'⟩ := matchToken_eq_some (by decide) hhas
    simp only [hhas, parseHas] at h
    cases hany : matchToken .any tokens' with
    | some found =>
      obtain ⟨any, tokens''⟩ := found
      obtain ⟨rfl, hany'⟩ := matchToken_eq_some (by decide) hany
      simp only [hany] at h
      obtain ⟨lBracket, list, rBracket, values, rfl, hleft, hlist, hright, rfl⟩ := parseHasList_sound h
      exact ⟨has :: any :: lBracket :: (list ++ [rBracket]), false, by simp,
        .hasAny hpath hhas' hany' hleft hlist hright, nofun⟩
    | none =>
    simp only [hany] at h
    cases hall : matchToken .all tokens' with
    | some found =>
      obtain ⟨all, tokens''⟩ := found
      obtain ⟨rfl, hall'⟩ := matchToken_eq_some (by decide) hall
      simp only [hall] at h
      obtain ⟨lBracket, list, rBracket, values, rfl, hleft, hlist, hright, rfl⟩ := parseHasList_sound h
      exact ⟨has :: all :: lBracket :: (list ++ [rBracket]), false, by simp,
        .hasAll hpath hhas' hall' hleft hlist hright, nofun⟩
    | none =>
      simp only [hall] at h
      obtain ⟨⟨value, tokens''⟩, hvalue, hresult⟩ := bind_eq_pure.mp h
      obtain ⟨token, rfl, hvalue'⟩ := parseValue_sound hvalue
      obtain ⟨rfl, rfl⟩ := Prod.mk.inj (pure_inj hresult)
      exact ⟨[has, token], false, rfl, .has hpath hhas' hvalue', nofun⟩
  | none =>
  simp only [hhas] at h
  rcases compareOperator_cases tokens with ⟨operator, op, rest', rfl, hop, heq⟩ | ⟨hnone, -⟩
  · simp only [heq] at h
    obtain ⟨⟨value, tokens''⟩, hvalue, hresult⟩ := bind_eq_pure.mp h
    obtain ⟨token, rfl, hvalue'⟩ := parseValue_sound hvalue
    obtain ⟨rfl, rfl⟩ := Prod.mk.inj (pure_inj hresult)
    exact ⟨operator ++ [token], false, by simp, .compare hpath hop hvalue', nofun⟩
  · simp only [hnone] at h
    split_ifs at h with hends
    · obtain ⟨rfl, rfl⟩ := Prod.mk.inj (pure_inj h)
      refine ⟨[], true, rfl, by rw [List.append_nil]; exact .path hpath, fun _ => ?_⟩
      simpa [isAtEnd, check_eq, or_assoc] using hends
    · exact absurd h fail_ne_pure

theorem fieldTest_returns (hfuel : tokens.length < fuel) : fieldTest tools fuel field tokens ≠ outOfFuel := by
  unfold fieldTest
  cases hexists : matchToken .exists tokens with
  | some found => exact pure_ne_outOfFuel
  | none =>
  cases hnot : matchToken .not tokens with
  | some found =>
    simp only
    cases matchToken .exists found.2 with
    | none => exact fail_ne_outOfFuel
    | some found => exact pure_ne_outOfFuel
  | none =>
  cases hhas : matchToken .has tokens with
  | some found =>
    obtain ⟨has, tokens'⟩ := found
    obtain ⟨rfl, -⟩ := matchToken_eq_some (by decide) hhas
    rw [List.length_cons] at hfuel
    simp only [parseHas]
    cases hany : matchToken .any tokens' with
    | some found =>
      obtain ⟨any, tokens''⟩ := found
      obtain ⟨rfl, -⟩ := matchToken_eq_some (by decide) hany
      rw [List.length_cons] at hfuel
      exact parseHasList_returns (by omega)
    | none =>
    simp only
    cases hall : matchToken .all tokens' with
    | some found =>
      obtain ⟨all, tokens''⟩ := found
      obtain ⟨rfl, -⟩ := matchToken_eq_some (by decide) hall
      rw [List.length_cons] at hfuel
      exact parseHasList_returns (by omega)
    | none => exact bind_ne_outOfFuel parseValue_returns fun _ _ => pure_ne_outOfFuel
  | none =>
  cases compareOperator tokens with
  | some found => exact bind_ne_outOfFuel parseValue_returns fun _ _ => pure_ne_outOfFuel
  | none =>
    simp only
    split_ifs
    · exact pure_ne_outOfFuel
    · exact fail_ne_outOfFuel

theorem pathOf_first {names : List Token} (h : PathOf names field) :
    ∃ first later, names = first :: later ∧ first.tokenType = .ident := by
  obtain ⟨first, later, heq, hfirst, -⟩ := fieldPath_names h
  exact ⟨first, later, heq, hfirst⟩

-- A path leads to the test behind it.
theorem comparison_path {names behind : List Token} (h : PathOf names field)
    (hbehind : (current behind).tokenType ≠ .dot) (hfuel : names.length ≤ fuel) :
    comparison tools (fuel + 1) (names ++ behind) = fieldTest tools fuel field behind := by
  obtain ⟨first, later, rfl, hfirst, hlater⟩ := fieldPath_complete h hbehind
  have hread := hlater fuel (by rw [List.length_cons] at hfuel; omega)
  simp [comparison, matchToken_cons, hfirst, hread]

end Comparison

section Expressions

variable {tools} {fuel : Nat} {tokens rest : List Token} {node : Node} {bare : Bool}

-- What an expression takes is a text of the grammar, and what is left does not go on with it.
def Takes (tools : QueryTools) (nonterminal : Nonterminal) (front tokens : List Token) (node : Node)
    (rest : List Token) : Prop :=
  ∃ taken bare, tokens = taken ++ rest ∧ Derives tools nonterminal bare (front ++ taken) node ∧
    Ends nonterminal bare (current rest).tokenType

-- What the loops are entered with: the text in front, which the next token may go on with.
theorem orLoop_sound {left : Node} {front : List Token} (hand : ∀ tokens node rest,
      andExpr tools fuel tokens = pure (node, rest) → Takes tools .and [] tokens node rest)
    (hloop : ∀ front left bare tokens node rest, Derives tools .or bare front left →
      Ends .and bare (current tokens).tokenType → orLoop tools fuel left tokens = pure (node, rest) →
      Takes tools .or front tokens node rest)
    (hfront : Derives tools .or bare front left) (hends : Ends .and bare (current tokens).tokenType)
    (h : orLoop tools (fuel + 1) left tokens = pure (node, rest)) :
    Takes tools .or front tokens node rest := by
  unfold orLoop at h
  cases hor : matchToken .or tokens with
  | none =>
    simp only [hor] at h
    obtain ⟨rfl, rfl⟩ := Prod.mk.inj (pure_inj h)
    exact ⟨[], bare, rfl, by rwa [List.append_nil], hends.1, hends.2, (matchToken_eq_none (by decide)).mp hor⟩
  | some found =>
    obtain ⟨token, tokens'⟩ := found
    obtain ⟨rfl, htoken⟩ := matchToken_eq_some (by decide) hor
    simp only [hor] at h
    obtain ⟨⟨right, tokens''⟩, hright, hlater⟩ := bind_eq_pure.mp h
    obtain ⟨taken, bare', rfl, hright', hends'⟩ := hand _ _ _ hright
    obtain ⟨taken', bare'', rfl, hnode, hends''⟩ :=
      hloop _ _ bare' _ _ _ (.orMore hfront htoken hright') hends' hlater
    exact ⟨token :: (taken ++ taken'), bare'', by simp, by simpa using hnode, hends''⟩

theorem andLoop_sound {left : Node} {front : List Token} (hcmp : ∀ tokens node rest,
      comparison tools fuel tokens = pure (node, rest) → Takes tools .cmp [] tokens node rest)
    (hloop : ∀ front left bare tokens node rest, Derives tools .and bare front left →
      Ends .cmp bare (current tokens).tokenType → andLoop tools fuel left tokens = pure (node, rest) →
      Takes tools .and front tokens node rest)
    (hfront : Derives tools .and bare front left) (hends : Ends .cmp bare (current tokens).tokenType)
    (h : andLoop tools (fuel + 1) left tokens = pure (node, rest)) :
    Takes tools .and front tokens node rest := by
  unfold andLoop at h
  cases hand : matchToken .and tokens with
  | none =>
    simp only [hand] at h
    obtain ⟨rfl, rfl⟩ := Prod.mk.inj (pure_inj h)
    exact ⟨[], bare, rfl, by rwa [List.append_nil], hends, (matchToken_eq_none (by decide)).mp hand⟩
  | some found =>
    obtain ⟨token, tokens'⟩ := found
    obtain ⟨rfl, htoken⟩ := matchToken_eq_some (by decide) hand
    simp only [hand] at h
    obtain ⟨⟨right, tokens''⟩, hright, hlater⟩ := bind_eq_pure.mp h
    obtain ⟨taken, bare', rfl, hright', hends'⟩ := hcmp _ _ _ hright
    obtain ⟨taken', bare'', rfl, hnode, hends''⟩ :=
      hloop _ _ bare' _ _ _ (.andMore hfront htoken hright') hends' hlater
    exact ⟨token :: (taken ++ taken'), bare'', by simp, by simpa using hnode, hends''⟩

theorem comparison_sound (hor : ∀ tokens node rest,
      orExpr tools fuel tokens = pure (node, rest) → Takes tools .or [] tokens node rest)
    (hcmp : ∀ tokens node rest, comparison tools fuel tokens = pure (node, rest) →
      Takes tools .cmp [] tokens node rest)
    (h : comparison tools (fuel + 1) tokens = pure (node, rest)) : Takes tools .cmp [] tokens node rest := by
  unfold comparison at h
  cases hleft : matchToken .lParen tokens with
  | some found =>
    obtain ⟨lParen, tokens'⟩ := found
    obtain ⟨rfl, hleft'⟩ := matchToken_eq_some (by decide) hleft
    simp only [hleft] at h
    obtain ⟨⟨inner, tokens''⟩, hinner, hclose⟩ := bind_eq_pure.mp h
    obtain ⟨taken, bare, rfl, hinner', -⟩ := hor _ _ _ hinner
    cases hright : matchToken .rParen tokens'' with
    | none =>
      simp only [hright] at hclose
      exact absurd hclose fail_ne_pure
    | some found =>
      obtain ⟨rParen, behind⟩ := found
      obtain ⟨rfl, hright'⟩ := matchToken_eq_some (by decide) hright
      simp only [hright] at hclose
      obtain ⟨rfl, rfl⟩ := Prod.mk.inj (pure_inj hclose)
      exact ⟨lParen :: (taken ++ [rParen]), false, by simp, .parens hleft' hinner' hright', nofun⟩
  | none =>
  simp only [hleft] at h
  cases hnot : matchToken .not tokens with
  | some found =>
    obtain ⟨token, tokens'⟩ := found
    obtain ⟨rfl, htoken⟩ := matchToken_eq_some (by decide) hnot
    simp only [hnot] at h
    obtain ⟨⟨child, tokens''⟩, hchild, hresult⟩ := bind_eq_pure.mp h
    obtain ⟨rfl, rfl⟩ := Prod.mk.inj (pure_inj hresult)
    obtain ⟨taken, bare, rfl, hchild', hends⟩ := hcmp _ _ _ hchild
    exact ⟨token :: taken, bare, rfl, .not htoken hchild', hends⟩
  | none =>
  simp only [hnot] at h
  cases hname : matchToken .ident tokens with
  | none =>
    simp only [hname] at h
    exact absurd h throw_ne_pure
  | some found =>
    obtain ⟨token, tokens'⟩ := found
    obtain ⟨rfl, htoken⟩ := matchToken_eq_some (by decide) hname
    simp only [hname] at h
    obtain ⟨⟨field, tokens''⟩, hpath, htest⟩ := bind_eq_pure.mp h
    obtain ⟨names, rfl, hpath', -⟩ := fieldPath_sound (.name htoken) hpath
    obtain ⟨taken, bare, rfl, hnode, hends⟩ := fieldTest_sound hpath' htest
    exact ⟨token :: (names ++ taken), bare, by simp, by simpa using hnode, hends⟩

theorem expressions_sound (tools : QueryTools) (fuel : Nat) :
    (∀ tokens node rest, orExpr tools fuel tokens = pure (node, rest) → Takes tools .or [] tokens node rest) ∧
    (∀ front left bare tokens node rest, Derives tools .or bare front left →
      Ends .and bare (current tokens).tokenType → orLoop tools fuel left tokens = pure (node, rest) →
      Takes tools .or front tokens node rest) ∧
    (∀ tokens node rest, andExpr tools fuel tokens = pure (node, rest) →
      Takes tools .and [] tokens node rest) ∧
    (∀ front left bare tokens node rest, Derives tools .and bare front left →
      Ends .cmp bare (current tokens).tokenType → andLoop tools fuel left tokens = pure (node, rest) →
      Takes tools .and front tokens node rest) ∧
    ∀ tokens node rest, comparison tools fuel tokens = pure (node, rest) →
      Takes tools .cmp [] tokens node rest := by
  induction fuel with
  | zero =>
    refine ⟨?_, ?_, ?_, ?_, ?_⟩
    all_goals intros; exact absurd ‹_› outOfFuel_ne_pure
  | succ fuel ih =>
    obtain ⟨hor, horLoop, hand, handLoop, hcmp⟩ := ih
    refine ⟨fun tokens node rest h => ?_, fun front left bare tokens node rest => orLoop_sound hand horLoop,
      fun tokens node rest h => ?_, fun front left bare tokens node rest => andLoop_sound hcmp handLoop,
      fun tokens node rest => comparison_sound hor hcmp⟩
    · unfold orExpr at h
      obtain ⟨⟨left, tokens'⟩, hleft, hloop⟩ := bind_eq_pure.mp h
      obtain ⟨taken, bare, rfl, hleft', hends⟩ := hand _ _ _ hleft
      obtain ⟨taken', bare', rfl, hnode, hends'⟩ := horLoop _ _ bare _ _ _ (.orOne hleft') hends hloop
      exact ⟨taken ++ taken', bare', by simp, by simpa using hnode, hends'⟩
    · unfold andExpr at h
      obtain ⟨⟨left, tokens'⟩, hleft, hloop⟩ := bind_eq_pure.mp h
      obtain ⟨taken, bare, rfl, hleft', hends⟩ := hcmp _ _ _ hleft
      obtain ⟨taken', bare', rfl, hnode, hends'⟩ := handLoop _ _ bare _ _ _ (.andOne hleft') hends hloop
      exact ⟨taken ++ taken', bare', by simp, by simpa using hnode, hends'⟩

theorem orExpr_sound (h : orExpr tools fuel tokens = pure (node, rest)) :
    Takes tools .or [] tokens node rest :=
  (expressions_sound tools fuel).1 tokens node rest h

theorem Takes.length_le {nonterminal : Nonterminal} {front : List Token}
    (h : Takes tools nonterminal front tokens node rest) : rest.length ≤ tokens.length := by
  obtain ⟨taken, -, rfl, -⟩ := h
  rw [List.length_append]
  omega

-- Four steps of the recursion take a token at least.
theorem expressions_return (fuel : Nat) :
    (∀ tokens, 4 * tokens.length + 3 ≤ fuel → orExpr tools fuel tokens ≠ outOfFuel) ∧
    (∀ left tokens, 4 * tokens.length + 1 ≤ fuel → orLoop tools fuel left tokens ≠ outOfFuel) ∧
    (∀ tokens, 4 * tokens.length + 2 ≤ fuel → andExpr tools fuel tokens ≠ outOfFuel) ∧
    (∀ left tokens, 4 * tokens.length + 1 ≤ fuel → andLoop tools fuel left tokens ≠ outOfFuel) ∧
    ∀ tokens, 4 * tokens.length + 1 ≤ fuel → comparison tools fuel tokens ≠ outOfFuel := by
  induction fuel with
  | zero =>
    refine ⟨?_, ?_, ?_, ?_, ?_⟩
    all_goals intros; omega
  | succ fuel ih =>
    obtain ⟨hor, horLoop, hand, handLoop, hcmp⟩ := ih
    obtain ⟨-, -, handSound, -, hcmpSound⟩ := expressions_sound tools fuel
    refine ⟨fun tokens hfuel => ?_, fun left tokens hfuel => ?_, fun tokens hfuel => ?_,
      fun left tokens hfuel => ?_, fun tokens hfuel => ?_⟩
    · unfold orExpr
      refine bind_ne_outOfFuel (hand tokens (by omega)) fun ⟨left, tokens'⟩ hleft => ?_
      have := (handSound _ _ _ hleft).length_le
      exact horLoop left tokens' (by omega)
    · unfold orLoop
      cases hmatch : matchToken .or tokens with
      | none => exact pure_ne_outOfFuel
      | some found =>
        obtain ⟨token, tokens'⟩ := found
        obtain ⟨rfl, -⟩ := matchToken_eq_some (by decide) hmatch
        rw [List.length_cons] at hfuel
        refine bind_ne_outOfFuel (hand tokens' (by omega)) fun ⟨right, tokens''⟩ hright => ?_
        have := (handSound _ _ _ hright).length_le
        exact horLoop _ tokens'' (by omega)
    · unfold andExpr
      refine bind_ne_outOfFuel (hcmp tokens (by omega)) fun ⟨left, tokens'⟩ hleft => ?_
      have := (hcmpSound _ _ _ hleft).length_le
      exact handLoop left tokens' (by omega)
    · unfold andLoop
      cases hmatch : matchToken .and tokens with
      | none => exact pure_ne_outOfFuel
      | some found =>
        obtain ⟨token, tokens'⟩ := found
        obtain ⟨rfl, -⟩ := matchToken_eq_some (by decide) hmatch
        rw [List.length_cons] at hfuel
        refine bind_ne_outOfFuel (hcmp tokens' (by omega)) fun ⟨right, tokens''⟩ hright => ?_
        have := (hcmpSound _ _ _ hright).length_le
        exact handLoop _ tokens'' (by omega)
    · unfold comparison
      cases hleft : matchToken .lParen tokens with
      | some found =>
        obtain ⟨lParen, tokens'⟩ := found
        obtain ⟨rfl, -⟩ := matchToken_eq_some (by decide) hleft
        rw [List.length_cons] at hfuel
        refine bind_ne_outOfFuel (hor tokens' (by omega)) fun ⟨inner, tokens''⟩ _ => ?_
        cases hright : matchToken .rParen tokens'' with
        | none => simp only [hright]; exact fail_ne_outOfFuel
        | some found => simp only [hright]; exact pure_ne_outOfFuel
      | none =>
      simp only
      cases hnot : matchToken .not tokens with
      | some found =>
        obtain ⟨token, tokens'⟩ := found
        obtain ⟨rfl, -⟩ := matchToken_eq_some (by decide) hnot
        rw [List.length_cons] at hfuel
        exact bind_ne_outOfFuel (hcmp tokens' (by omega)) fun _ _ => pure_ne_outOfFuel
      | none =>
      simp only
      cases hname : matchToken .ident tokens with
      | none => exact throw_ne_outOfFuel
      | some found =>
        obtain ⟨token, tokens'⟩ := found
        obtain ⟨rfl, htoken⟩ := matchToken_eq_some (by decide) hname
        rw [List.length_cons] at hfuel
        refine bind_ne_outOfFuel (fieldPath_returns (by omega)) fun ⟨field, tokens''⟩ hpath => ?_
        obtain ⟨names, rfl, -⟩ := fieldPath_sound (.name htoken) hpath
        rw [List.length_append] at hfuel
        have hshorter : tokens''.length < fuel := by omega
        exact fieldTest_returns hshorter

theorem orExpr_returns (hfuel : 4 * tokens.length + 3 ≤ fuel) : orExpr tools fuel tokens ≠ outOfFuel :=
  (expressions_return fuel).1 tokens hfuel

-- What is derived is read, with the fuel that its tokens ask for. Of an expression with a loop this
-- is said by what the loop gives behind it, since the loop has taken the parts one by one.
def Read (tools : QueryTools) (bare : Bool) (tokens : List Token) (node : Node) : Nonterminal → Prop
  | .cmp => ∀ rest fuel, Ends .cmp bare (current rest).tokenType → 4 * tokens.length + 1 ≤ fuel →
      comparison tools fuel (tokens ++ rest) = pure (node, rest)
  | .and => ∀ rest result enough, Ends .cmp bare (current rest).tokenType →
      (∀ fuel, enough ≤ fuel → andLoop tools fuel node rest = result) →
      ∀ fuel, enough + 4 * tokens.length + 2 ≤ fuel → andExpr tools fuel (tokens ++ rest) = result
  | .or => ∀ rest result enough, Ends .and bare (current rest).tokenType →
      (∀ fuel, enough ≤ fuel → orLoop tools fuel node rest = result) →
      ∀ fuel, enough + 4 * tokens.length + 4 ≤ fuel → orExpr tools fuel (tokens ++ rest) = result

theorem Read.and_ends (h : Read tools bare tokens node .and) (hends : Ends .and bare (current rest).tokenType)
    (hfuel : 4 * tokens.length + 3 ≤ fuel) : andExpr tools fuel (tokens ++ rest) = pure (node, rest) := by
  refine h rest (pure (node, rest)) 1 hends.1 (fun fuel hfuel => ?_) fuel (by omega)
  obtain ⟨fuel, rfl⟩ : ∃ less, fuel = less + 1 := ⟨fuel - 1, by omega⟩
  simp [andLoop, (matchToken_eq_none (by decide)).mpr hends.2]

theorem Read.or_ends (h : Read tools bare tokens node .or) (hends : Ends .or bare (current rest).tokenType)
    (hfuel : 4 * tokens.length + 5 ≤ fuel) : orExpr tools fuel (tokens ++ rest) = pure (node, rest) := by
  refine h rest (pure (node, rest)) 1 ⟨hends.1, hends.2.1⟩ (fun fuel hfuel => ?_) fuel (by omega)
  obtain ⟨fuel, rfl⟩ : ∃ less, fuel = less + 1 := ⟨fuel - 1, by omega⟩
  simp [orLoop, (matchToken_eq_none (by decide)).mpr hends.2.2]

theorem read_orOne (h : Read tools bare tokens node .and) : Read tools bare tokens node .or := by
  intro rest result enough hends hloop fuel hfuel
  obtain ⟨fuel, rfl⟩ : ∃ less, fuel = less + 1 := ⟨fuel - 1, by omega⟩
  unfold orExpr
  rw [h.and_ends hends (by omega), pure_bind]
  exact hloop fuel (by omega)

theorem read_orMore {bare' : Bool} {tokens' : List Token} {token : Token} {left right : Node}
    (hleft : Read tools bare' tokens left .or) (htoken : token.tokenType = .or)
    (hright : Read tools bare tokens' right .and) :
    Read tools bare (tokens ++ token :: tokens') (.binaryOp "or" left right) .or := by
  intro rest result enough hends hloop fuel hfuel
  rw [List.length_append, List.length_cons] at hfuel
  rw [List.append_assoc, List.cons_append]
  refine hleft _ result (enough + 4 * tokens'.length + 4) ?_ (fun fuel hfuel => ?_) fuel (by omega)
  · simp [Ends, current, htoken]
  · obtain ⟨fuel, rfl⟩ : ∃ less, fuel = less + 1 := ⟨fuel - 1, by omega⟩
    have hmatch : matchToken .or (token :: (tokens' ++ rest)) = some (token, tokens' ++ rest) := by
      rw [matchToken_cons (by decide), if_pos htoken]
    unfold orLoop
    simp only [hmatch]
    rw [hright.and_ends hends (by omega), pure_bind]
    exact hloop fuel (by omega)

theorem read_andOne (h : Read tools bare tokens node .cmp) : Read tools bare tokens node .and := by
  intro rest result enough hends hloop fuel hfuel
  obtain ⟨fuel, rfl⟩ : ∃ less, fuel = less + 1 := ⟨fuel - 1, by omega⟩
  unfold andExpr
  rw [h rest fuel hends (by omega), pure_bind]
  exact hloop fuel (by omega)

theorem read_andMore {bare' : Bool} {tokens' : List Token} {token : Token} {left right : Node}
    (hleft : Read tools bare' tokens left .and) (htoken : token.tokenType = .and)
    (hright : Read tools bare tokens' right .cmp) :
    Read tools bare (tokens ++ token :: tokens') (.binaryOp "and" left right) .and := by
  intro rest result enough hends hloop fuel hfuel
  rw [List.length_append, List.length_cons] at hfuel
  rw [List.append_assoc, List.cons_append]
  refine hleft _ result (enough + 4 * tokens'.length + 2) ?_ (fun fuel hfuel => ?_) fuel (by omega)
  · simp [Ends, current, htoken]
  · obtain ⟨fuel, rfl⟩ : ∃ less, fuel = less + 1 := ⟨fuel - 1, by omega⟩
    have hmatch : matchToken .and (token :: (tokens' ++ rest)) = some (token, tokens' ++ rest) := by
      rw [matchToken_cons (by decide), if_pos htoken]
    unfold andLoop
    simp only [hmatch]
    rw [hright rest fuel hends (by omega), pure_bind]
    exact hloop fuel (by omega)

theorem read_parens {lParen rParen : Token} (hleft : lParen.tokenType = .lParen)
    (h : Read tools bare tokens node .or) (hright : rParen.tokenType = .rParen) :
    Read tools false (lParen :: (tokens ++ [rParen])) node .cmp := by
  intro rest fuel _ hfuel
  obtain ⟨fuel, rfl⟩ : ∃ less, fuel = less + 1 := ⟨fuel - 1, by omega⟩
  simp only [List.length_cons, List.length_append, List.length_nil] at hfuel
  have hends : Ends .or bare (current (rParen :: rest)).tokenType := by simp [Ends, current, hright]
  have hinner : orExpr tools fuel (tokens ++ rParen :: rest) = pure (node, rParen :: rest) :=
    h.or_ends hends (by omega)
  simp [comparison, matchToken_cons, hleft, hinner, hright]

theorem read_not {token : Token} (htoken : token.tokenType = .not) (h : Read tools bare tokens node .cmp) :
    Read tools bare (token :: tokens) (.unaryOp "not" node) .cmp := by
  intro rest fuel hends hfuel
  obtain ⟨fuel, rfl⟩ : ∃ less, fuel = less + 1 := ⟨fuel - 1, by omega⟩
  rw [List.length_cons] at hfuel
  have hchild := h rest fuel hends (by omega)
  simp [comparison, matchToken_cons, htoken, hchild]

-- A path and what is tested behind it.
theorem read_path {names behind : List Token} {field : String} (hpath : PathOf names field)
    (hdot : ∀ rest, Ends .cmp bare (current rest).tokenType → (current (behind ++ rest)).tokenType ≠ .dot)
    (htest : ∀ rest fuel, Ends .cmp bare (current rest).tokenType → behind.length < fuel →
      fieldTest tools fuel field (behind ++ rest) = pure (node, rest)) :
    Read tools bare (names ++ behind) node .cmp := by
  intro rest fuel hends hfuel
  obtain ⟨fuel, rfl⟩ : ∃ less, fuel = less + 1 := ⟨fuel - 1, by omega⟩
  obtain ⟨first, later, hnames, -⟩ := pathOf_first hpath
  have hlength : names.length ≠ 0 := by rw [hnames, List.length_cons]; omega
  rw [List.length_append] at hfuel
  rw [List.append_assoc, comparison_path hpath (hdot rest hends) (by omega)]
  exact htest rest fuel hends (by omega)

theorem fieldTest_path {field : String} (hends : Ends .cmp true (current rest).tokenType) :
    fieldTest tools fuel field rest = pure (.compareOp field "is" (.bool true), rest) := by
  have hnext := hends rfl
  have hnone : ∀ tokenType ∈ [TokenType.exists, .not, .has, .gt, .gte, .lt, .lte, .is],
      matchToken tokenType rest = none := by
    intro tokenType hmem
    refine (matchToken_eq_none ?_).mpr fun heq => ?_
    · rintro rfl
      exact absurd hmem (by decide)
    · rw [heq] at hnext
      revert hmem hnext
      cases tokenType <;> decide
  have hop : compareOperator rest = none := by
    simp [compareOperator, hnone]
  have hstop : (isAtEnd rest || check .and rest || check .or rest || check .rParen rest) = true := by
    simpa [isAtEnd, check_eq, or_assoc] using hnext
  simp [fieldTest, hnone, hop, hstop]

theorem fieldTest_compare {operator : List Token} {field op : String} {token : Token} {value : Json}
    (hop : OperatorOf operator op) (h : ValueOf tools token value) :
    fieldTest tools fuel field (operator ++ token :: rest) = pure (.compareOp field op value, rest) := by
  have hnone : ∀ tokenType ∈ [TokenType.exists, .not, .has],
      matchToken tokenType (operator ++ token :: rest) = none := by
    intro tokenType hmem
    refine (matchToken_eq_none ?_).mpr fun heq => ?_
    · rintro rfl
      exact absurd hmem (by decide)
    · subst heq
      revert hmem
      cases hop with
      | _ h => simp [current, h]
  have hnot : (current (token :: rest)).tokenType ≠ .not := by
    intro heq
    have := valueOf_type h
    rw [show token.tokenType = .not from heq] at this
    exact absurd this (by decide)
  have hread := compareOperator_complete hop hnot
  simp [fieldTest, hnone, hread, parseValue_complete h]

theorem operatorOf_first {operator : List Token} {op : String} (h : OperatorOf operator op)
    (rest : List Token) : (current (operator ++ rest)).tokenType ≠ .dot := by
  cases h <;> simp_all [current]

-- By induction on the derivation.
theorem derives_read {nonterminal : Nonterminal} (h : Derives tools nonterminal bare tokens node) :
    Read tools bare tokens node nonterminal := by
  induction h with
  | orOne _ ih => exact read_orOne ih
  | orMore _ htoken _ ihleft ihright => exact read_orMore ihleft htoken ihright
  | andOne _ ih => exact read_andOne ih
  | andMore _ htoken _ ihleft ihright => exact read_andMore ihleft htoken ihright
  | parens hleft _ hright ih => exact read_parens hleft ih hright
  | not htoken _ ih => exact read_not htoken ih
  | @path tokens field hpath =>
    rw [← List.append_nil tokens]
    refine read_path hpath (fun rest hends heq => ?_) fun rest fuel hends _ => fieldTest_path hends
    have hnext := hends rfl
    rw [List.nil_append] at heq
    rw [heq] at hnext
    exact absurd hnext (by decide)
  | @existing tokens field token hpath htoken =>
    refine read_path hpath (fun rest _ => ?_) fun rest fuel _ _ => ?_
    · simp [current, htoken]
    · simp [fieldTest, matchToken_cons, htoken]
  | @notExisting tokens field not token hpath hnot htoken =>
    refine read_path hpath (fun rest _ => ?_) fun rest fuel _ _ => ?_
    · simp [current, hnot]
    · simp [fieldTest, matchToken_cons, hnot, htoken]
  | @has tokens field has token value hpath hhas h =>
    refine read_path hpath (fun rest _ => ?_) fun rest fuel _ _ => ?_
    · simp [current, hhas]
    · have htype := valueOf_type h
      have hne : token.tokenType ≠ .any ∧ token.tokenType ≠ .all := by
        constructor <;> intro heq <;> rw [heq] at htype <;> exact absurd htype (by decide)
      simp [fieldTest, parseHas, matchToken_cons, hhas, hne, parseValue_complete h]
  | @hasAny tokens list field has any lBracket rBracket values hpath hhas hany hleft hlist hright =>
    refine read_path hpath (fun rest _ => ?_) fun rest fuel _ hfuel => ?_
    · simp [current, hhas]
    · simp only [List.length_cons, List.length_append] at hfuel
      have hread : parseHasList tools fuel field "has_any" (lBracket :: (list ++ rBracket :: rest)) = _ :=
        parseHasList_complete hleft hlist hright (by omega)
      simp [fieldTest, parseHas, matchToken_cons, hhas, hany, hread]
  | @hasAll tokens list field has all lBracket rBracket values hpath hhas hall hleft hlist hright =>
    refine read_path hpath (fun rest _ => ?_) fun rest fuel _ hfuel => ?_
    · simp [current, hhas]
    · simp only [List.length_cons, List.length_append] at hfuel
      have hread : parseHasList tools fuel field "has_all" (lBracket :: (list ++ rBracket :: rest)) = _ :=
        parseHasList_complete hleft hlist hright (by omega)
      simp [fieldTest, parseHas, matchToken_cons, hhas, hall, hread]
  | @compare tokens operator field op token value hpath hop h =>
    refine read_path hpath (fun rest _ => ?_) fun rest fuel _ _ => ?_
    · rw [List.append_assoc]
      exact operatorOf_first hop _
    · rw [List.append_assoc]
      exact fieldTest_compare hop h

theorem orExpr_complete (h : Derives tools .or bare tokens node)
    (hends : Ends .or bare (current rest).tokenType)
    (hfuel : 4 * tokens.length + 5 ≤ fuel) : orExpr tools fuel (tokens ++ rest) = pure (node, rest) :=
  (derives_read h).or_ends hends hfuel

end Expressions

end JasonDb.Query
