import JasonDb.Json.Decimal

namespace JasonDb.Json

section Strings

-- `escapeChar` as a list of characters.
def escape (c : Char) : List Char :=
  if c = '"' then ['\\', '"']
  else if c = '\\' then ['\\', '\\']
  else if c.toNat = 8 then ['\\', 'b']
  else if c.toNat = 9 then ['\\', 't']
  else if c.toNat = 10 then ['\\', 'n']
  else if c.toNat = 12 then ['\\', 'f']
  else if c.toNat = 13 then ['\\', 'r']
  else if c.toNat < 32 then
    '\\' :: 'u' :: '0' :: '0' :: (if c.toNat < 16 then '0' :: Nat.toDigits 16 c.toNat else Nat.toDigits 16 c.toNat)
  else [c]

theorem toList_escapeChar (c : Char) : (escapeChar c).toList = escape c := by
  unfold escapeChar escape
  repeat' split
  all_goals simp [String.toList_append]

-- The characters that are escaped.
def special : List Char := '"' :: '\\' :: (List.range 32).map Char.ofNat

theorem escape_of_not_special {c : Char} (h : c ∉ special) : escape c = [c] := by
  have hnot : ∀ n < 32, c.toNat ≠ n := by
    intro n hn heq
    apply h
    refine List.mem_cons_of_mem _ (List.mem_cons_of_mem _ (List.mem_map.mpr ⟨n, List.mem_range.mpr hn, ?_⟩))
    rw [← heq, Char.ofNat_toNat]
  have hge : ¬c.toNat < 32 := fun hlt => hnot c.toNat hlt rfl
  have hquote : c ≠ '"' := by
    rintro rfl
    exact h (by decide)
  have hback : c ≠ '\\' := by
    rintro rfl
    exact h (by decide)
  unfold escape
  rw [if_neg hquote, if_neg hback, if_neg (hnot 8 (by decide)), if_neg (hnot 9 (by decide)),
    if_neg (hnot 10 (by decide)), if_neg (hnot 12 (by decide)), if_neg (hnot 13 (by decide)), if_neg hge]

-- Among the escapes none begins another one.
theorem escape_special : ∀ c ∈ special, (escape c).head? = some '\\' ∧
    ∀ d ∈ special, escape c <+: escape d → c = d := by
  have hall : special.all fun c => (escape c).head? = some '\\' ∧
      special.all fun d => escape c <+: escape d → c = d := by decide +kernel
  simpa only [List.all_eq_true, decide_eq_true_eq] using hall

theorem escape_append_inj {c d : Char} {s t : List Char} (h : escape c ++ s = escape d ++ t) :
    c = d ∧ s = t := by
  have hplain : ∀ {c d : Char} {s t : List Char}, c ∈ special → d ∉ special → escape c ++ s ≠ escape d ++ t := by
    intro c d s t hc hd heq
    have hhead := congrArg List.head? heq
    rw [escape_of_not_special hd, List.head?_append, (escape_special c hc).1] at hhead
    apply hd
    cases hhead
    decide
  by_cases hc : c ∈ special
  · by_cases hd : d ∈ special
    · have hprefix : escape d <+: escape c ++ s := by
        rw [h]
        exact List.prefix_append _ _
      have heq : c = d := by
        rcases List.prefix_or_prefix_of_prefix (List.prefix_append _ _) hprefix with hle | hle
        · exact (escape_special c hc).2 d hd hle
        · exact ((escape_special d hd).2 c hc hle).symm
      subst heq
      exact ⟨rfl, List.append_cancel_left h⟩
    · exact absurd h (hplain hc hd)
  · by_cases hd : d ∈ special
    · exact absurd h.symm (hplain hd hc)
    · rw [escape_of_not_special hc, escape_of_not_special hd] at h
      simpa using h

theorem escape_head_ne_quote (c : Char) : (escape c).head? ≠ some '"' := by
  by_cases hc : c ∈ special
  · rw [(escape_special c hc).1]
    decide
  · rw [escape_of_not_special hc]
    rintro ⟨⟩
    exact hc (by decide)

theorem escape_ne_nil (c : Char) : escape c ≠ [] := by
  by_cases hc : c ∈ special
  · intro hnil
    have := (escape_special c hc).1
    rw [hnil] at this
    cases this
  · rw [escape_of_not_special hc]
    simp

theorem escapes_append_inj {a b s t : List Char}
    (h : a.flatMap escape ++ '"' :: s = b.flatMap escape ++ '"' :: t) : a = b ∧ s = t := by
  have hend : ∀ {c : Char} {s t : List Char}, '"' :: s ≠ escape c ++ t := by
    intro c s t heq
    have hhead := congrArg List.head? heq
    rw [List.head?_append_of_ne_nil _ (escape_ne_nil c)] at hhead
    exact escape_head_ne_quote c hhead.symm
  induction a generalizing b with
  | nil =>
    cases b with
    | nil => simpa using h
    | cons d b =>
      rw [List.flatMap_cons, List.append_assoc] at h
      exact absurd h hend
  | cons c a ih =>
    cases b with
    | nil =>
      rw [List.flatMap_cons, List.append_assoc] at h
      exact absurd h.symm hend
    | cons d b =>
      rw [List.flatMap_cons, List.flatMap_cons, List.append_assoc, List.append_assoc] at h
      obtain ⟨rfl, hrest⟩ := escape_append_inj h
      obtain ⟨rfl, hst⟩ := ih hrest
      exact ⟨rfl, hst⟩

theorem toList_renderString (a : String) :
    (renderString a).toList = '"' :: (a.toList.flatMap escape ++ ['"']) := by
  unfold renderString
  rw [String.toList_append, String.toList_append, String.toList_join, List.flatMap_map]
  simp only [toList_escapeChar]
  rfl

-- The text of a string shows where it ends.
theorem renderString_append_inj {a b : String} {s t : List Char}
    (h : (renderString a).toList ++ s = (renderString b).toList ++ t) : a = b ∧ s = t := by
  simp only [toList_renderString, List.cons_append, List.append_assoc, List.nil_append] at h
  obtain ⟨hab, hst⟩ := escapes_append_inj (List.cons.inj h).2
  exact ⟨String.toList_inj.mp hab, hst⟩

end Strings

section Values

variable {α : Type} {s t : List Char}

-- What can stand behind a value inside of another one: nothing, or a comma or a closing bracket.
def closes (c : Char) : Bool := c = ',' || c = ']' || c = '\x7d'

def Stops (s : List Char) : Prop := ∀ c ∈ s.head?, closes c

theorem append_inj_of_stops {a b : List Char} (ha : ∀ c ∈ a, ¬closes c) (hb : ∀ c ∈ b, ¬closes c)
    (hs : Stops s)
    (ht : Stops t) (h : a ++ s = b ++ t) : a = b ∧ s = t := by
  rcases List.append_eq_append_iff.mp h with ⟨rest, rfl, rfl⟩ | ⟨rest, rfl, rfl⟩
  · cases rest with
    | nil => simp
    | cons c rest => exact absurd (hs c rfl) (hb c (by simp))
  · cases rest with
    | nil => simp
    | cons c rest => exact absurd (ht c rfl) (ha c (by simp))

-- Texts with commas between them.
def joined (f : α → List Char) : List α → List Char
  | [] => []
  | [a] => f a
  | a :: b :: rest => f a ++ ',' :: joined f (b :: rest)

theorem joined_append_inj {f : α → List Char} {close : Char} {as bs : List α} (hclose : closes close)
    (hcomma : close ≠ ',') (hfirst : ∀ a, ∃ c rest, f a = c :: rest ∧ ¬closes c)
    (hf : ∀ a ∈ as, ∀ b s t, Stops s → Stops t → f a ++ s = f b ++ t → a = b ∧ s = t)
    (h : joined f as ++ close :: s = joined f bs ++ close :: t) : as = bs ∧ s = t := by
  -- The text of a list that is not empty is that of its first member and a rest that stops it.
  have hcons : ∀ a (rest : List α) s, ∃ after, joined f (a :: rest) ++ close :: s = f a ++ after ∧ Stops after ∧
      (rest = [] → after = close :: s) ∧ (rest ≠ [] → after = ',' :: (joined f rest ++ close :: s)) := by
    intro a rest s
    cases rest with
    | nil => exact ⟨close :: s, rfl, fun c hc => by cases hc; exact hclose, fun _ => rfl, fun h => absurd rfl h⟩
    | cons b rest =>
      refine ⟨',' :: (joined f (b :: rest) ++ close :: s), ?_, fun c hc => by cases hc; rfl, by simp, fun _ => rfl⟩
      rw [joined, List.append_assoc, List.cons_append]
  have hempty : ∀ {a : α} {s t : List Char}, close :: s ≠ f a ++ t := by
    intro a s t heq
    obtain ⟨c, rest, hc, hnot⟩ := hfirst a
    rw [hc] at heq
    cases heq
    exact hnot hclose
  induction as generalizing bs with
  | nil =>
    cases bs with
    | nil => exact ⟨rfl, (List.cons.inj h).2⟩
    | cons b bs =>
      obtain ⟨after, hafter, -⟩ := hcons b bs t
      exact absurd (h.trans hafter) hempty
  | cons a as ih =>
    cases bs with
    | nil =>
      obtain ⟨after, hafter, -⟩ := hcons a as s
      exact absurd (h.symm.trans hafter) hempty
    | cons b bs =>
      obtain ⟨after, hafter, hstops, hlast, hmore⟩ := hcons a as s
      obtain ⟨after', hafter', hstops', hlast', hmore'⟩ := hcons b bs t
      rw [hafter, hafter'] at h
      obtain ⟨rfl, hrest⟩ := hf a (by simp) b _ _ hstops hstops' h
      cases as with
      | nil =>
        rw [hlast rfl] at hrest
        cases bs with
        | nil =>
          rw [hlast' rfl] at hrest
          exact ⟨rfl, (List.cons.inj hrest).2⟩
        | cons b' bs =>
          rw [hmore' (List.cons_ne_nil _ _)] at hrest
          exact absurd (List.cons.inj hrest).1 hcomma
      | cons a' as =>
        rw [hmore (List.cons_ne_nil _ _)] at hrest
        cases bs with
        | nil =>
          rw [hlast' rfl] at hrest
          exact absurd (List.cons.inj hrest).1.symm hcomma
        | cons b' bs =>
          rw [hmore' (List.cons_ne_nil _ _)] at hrest
          obtain ⟨heqs, hst⟩ := ih (fun a ha => hf a (List.mem_cons_of_mem _ ha)) (List.cons.inj hrest).2
          exact ⟨congrArg (a :: ·) heqs, hst⟩

def fieldText (field : String × Json) : List Char := (renderString field.1).toList ++ ':' :: field.2.render.toList

theorem toList_renderItems (items : List Json) :
    (renderItems items).toList = joined (fun item => item.render.toList) items := by
  induction items with
  | nil => rfl
  | cons item rest ih =>
    cases rest with
    | nil => rfl
    | cons next rest =>
      rw [renderItems, String.toList_append, String.toList_append, ih, joined, List.append_assoc]
      · rfl
      · simp

theorem toList_renderFields (fields : List (String × Json)) :
    (renderFields fields).toList = joined fieldText fields := by
  induction fields with
  | nil => rfl
  | cons field rest ih =>
    cases rest with
    | nil =>
      simp only [renderFields, joined, fieldText, String.toList_append, List.append_assoc]
      rfl
    | cons next rest =>
      rw [renderFields, String.toList_append, String.toList_append, String.toList_append, String.toList_append, ih, joined,
        fieldText]
      · simp
      · simp

-- The type of a value that has a text with this first character.
def typeOfFirst (c : Char) : Nat :=
  if c = 'n' then 0
  else if c = 't' ∨ c = 'f' then 1
  else if c = '"' then 3
  else if c = '[' then 4
  else if c = '\x7b' then 5
  else 2

theorem typeOfFirst_number {c : Char} (h : c.isDigit ∨ c = '-' ∨ c = '.' ∨ c = 'e') :
    typeOfFirst c = 2 ∧ ¬closes c := by
  rcases h with h | rfl | rfl | rfl
  · have hne : ∀ d : Char, d.isDigit = false → c ≠ d := by
      rintro d hd rfl
      simp [h] at hd
    simp [typeOfFirst, closes, hne]
  · decide
  · decide
  · decide

theorem render_cons (v : Json) : ∃ c rest, v.render.toList = c :: rest ∧ typeOfFirst c = v.typeOrder ∧ ¬closes c := by
  cases v with
  | null => exact ⟨'n', _, rfl, by decide⟩
  | bool value =>
    cases value with
    | false => exact ⟨'f', _, rfl, by decide⟩
    | true => exact ⟨'t', _, rfl, by decide⟩
  | num n =>
    cases h : n.render.toList with
    | nil => exact absurd h n.render_ne_nil
    | cons c rest => exact ⟨c, rest, h, typeOfFirst_number (@Number.mem_render n c (by simp [h]))⟩
  | str value => exact ⟨'"', _, toList_renderString value, rfl, by decide⟩
  | arr items =>
    refine ⟨'[', (renderItems items).toList ++ [']'], ?_, rfl, by decide⟩
    rw [render, String.toList_append, String.toList_append]
    rfl
  | obj fields =>
    refine ⟨'\x7b', (renderFields fields).toList ++ ['\x7d'], ?_, rfl, by decide⟩
    rw [render, String.toList_append, String.toList_append]
    rfl

theorem typeOrder_eq_of_append {v w : Json} {s t : List Char}
    (h : v.render.toList ++ s = w.render.toList ++ t) : v.typeOrder = w.typeOrder := by
  obtain ⟨c, rest, hv, htype, -⟩ := v.render_cons
  obtain ⟨c', rest', hw, htype', -⟩ := w.render_cons
  rw [hv, hw] at h
  rw [← htype, ← htype', (List.cons.inj h).1]

theorem fieldText_append_inj {a b : String × Json} {s t : List Char} (hs : Stops s) (ht : Stops t)
    (hvalue : ∀ w s t, Stops s → Stops t → a.2.render.toList ++ s = w.render.toList ++ t → a.2 = w ∧ s = t)
    (h : fieldText a ++ s = fieldText b ++ t) : a = b ∧ s = t := by
  unfold fieldText at h
  rw [List.append_assoc, List.append_assoc] at h
  obtain ⟨hkey, hrest⟩ := renderString_append_inj h
  obtain ⟨hab, hst⟩ := hvalue b.2 s t hs ht (List.cons.inj hrest).2
  exact ⟨Prod.ext hkey hab, hst⟩

-- The brackets of an array show where it ends, when each item shows where it ends inside of it.
theorem items_append_inj {items items' : List Json}
    (hitem : ∀ item ∈ items, ∀ w s t, Stops s → Stops t → item.render.toList ++ s = w.render.toList ++ t →
      item = w ∧ s = t)
    (h : (arr items).render.toList ++ s = (arr items').render.toList ++ t) : items = items' ∧ s = t := by
  simp only [render, String.toList_append, toList_renderItems, List.append_assoc] at h
  have hfirst : ∀ v : Json, ∃ c rest, v.render.toList = c :: rest ∧ ¬closes c := by
    intro v
    obtain ⟨c, rest, hc, -, hnot⟩ := v.render_cons
    exact ⟨c, rest, hc, hnot⟩
  have htexts : joined (fun item => item.render.toList) items ++ ']' :: s = joined _ items' ++ ']' :: t :=
    (List.cons.inj h).2
  exact joined_append_inj rfl (by decide) hfirst hitem htexts

theorem fields_append_inj {fields fields' : List (String × Json)}
    (hfield : ∀ field ∈ fields, ∀ w s t, Stops s → Stops t → field.2.render.toList ++ s = w.render.toList ++ t →
      field.2 = w ∧ s = t)
    (h : (obj fields).render.toList ++ s = (obj fields').render.toList ++ t) : fields = fields' ∧ s = t := by
  simp only [render, String.toList_append, toList_renderFields, List.append_assoc] at h
  have hfirst : ∀ field : String × Json, ∃ c rest, fieldText field = c :: rest ∧ ¬closes c := by
    intro field
    refine ⟨'"', _, by rw [fieldText, toList_renderString]; rfl, by decide⟩
  have htexts : joined fieldText fields ++ '\x7d' :: s = joined _ fields' ++ '\x7d' :: t := (List.cons.inj h).2
  exact joined_append_inj rfl (by decide) hfirst
    (fun field hmem w s t hs ht heq => fieldText_append_inj hs ht (hfield field hmem) heq) htexts

-- A text shows its value and where it ends.
theorem render_append_inj {v w : Json} {s t : List Char} (hs : Stops s) (ht : Stops t)
    (h : v.render.toList ++ s = w.render.toList ++ t) : v = w ∧ s = t := by
  have htype := typeOrder_eq_of_append h
  induction v using nested generalizing w s t with
  | null =>
    cases w <;> cases htype
    exact ⟨rfl, List.append_cancel_left h⟩
  | bool a =>
    cases w <;> cases htype
    rename_i b
    cases a <;> cases b <;> simp_all [render]
  | num n =>
    cases w <;> cases htype
    have hnot : ∀ (n : Number), ∀ c ∈ n.render.toList, ¬closes c :=
      fun n c hc => (typeOfFirst_number (Number.mem_render hc)).2
    obtain ⟨hnm, hst⟩ := append_inj_of_stops (hnot n) (hnot _) hs ht h
    exact ⟨congrArg num (Number.render_injective (String.toList_inj.mp hnm)), hst⟩
  | str a =>
    cases w <;> cases htype
    obtain ⟨rfl, hst⟩ := renderString_append_inj h
    exact ⟨rfl, hst⟩
  | arr items ih =>
    cases w <;> cases htype
    obtain ⟨rfl, hst⟩ := items_append_inj
      (fun item hitem w s t hs ht heq => ih item hitem hs ht heq (typeOrder_eq_of_append heq)) h
    exact ⟨rfl, hst⟩
  | obj fields ih =>
    cases w <;> cases htype
    obtain ⟨rfl, hst⟩ := fields_append_inj
      (fun field hfield w s t hs ht heq => ih field hfield hs ht heq (typeOrder_eq_of_append heq)) h
    exact ⟨rfl, hst⟩

theorem render_injective {v w : Json} (h : v.render = w.render) : v = w := by
  have hstops : Stops [] := fun c hc => by cases hc
  exact (render_append_inj hstops hstops (congrArg (fun text => String.toList text ++ []) h)).1

end Values

end JasonDb.Json
