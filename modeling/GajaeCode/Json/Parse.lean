import GajaeCode.Json.Stringify

/-!
# `JSON.parse`

The parser runs on fuel, one unit for each value or list element it enters; as many units as the
text has characters are enough for every text `JSON.stringify` writes. Members are first kept as
they are written. A repeated key then takes the value of its last occurrence.
-/

namespace GajaeCode.Json

open Text List Option JsValue

variable {unit : UInt16} {fields : Fields}

def isWhitespace (unit : UInt16) : Bool :=
  unit = 0x20 || unit = 0x09 || unit = 0x0A || unit = 0x0D

def skipWhitespace (text : JsString) : JsString := text.dropWhile isWhitespace

def hexValue (unit : UInt16) : Option ℕ :=
  let code := unit.toNat
  if 0x30 ≤ code ∧ code ≤ 0x39 then some (code - 0x30)
  else if 0x61 ≤ code ∧ code ≤ 0x66 then some (code - 0x57)
  else if 0x41 ≤ code ∧ code ≤ 0x46 then some (code - 0x37)
  else none

/-- The code unit of four hexadecimal digits. -/
def hexQuad (first second third fourth : UInt16) : Option UInt16 :=
  (hexValue first).bind fun a ↦ (hexValue second).bind fun b ↦ (hexValue third).bind fun c ↦
    (hexValue fourth).map fun d ↦ UInt16.ofNat (a * 0x1000 + b * 0x100 + c * 0x10 + d)

/-- The character of a two-unit escape. -/
def unescapeLetter (letter : UInt16) : Option UInt16 :=
  if letter = 0x62 then some 0x08
  else if letter = 0x74 then some 0x09
  else if letter = 0x6E then some 0x0A
  else if letter = 0x66 then some 0x0C
  else if letter = 0x72 then some 0x0D
  else if letter = quoteUnit ∨ letter = backslashUnit ∨ letter = 0x2F then some letter
  else none

/-- A string from behind its opening quote, and what follows its closing quote. -/
def parseStringBody : JsString → Option (JsString × JsString)
  | [] => none
  | unit :: rest =>
      if unit = quoteUnit then some ([], rest)
      else if unit = backslashUnit then
        match rest with
        | [] => none
        | letter :: rest' =>
            if letter = 0x75 then
              match rest' with
              | a :: b :: c :: d :: rest'' =>
                  (hexQuad a b c d).bind fun value ↦
                    (parseStringBody rest'').map fun tail ↦ (value :: tail.1, tail.2)
              | _ => none
            else
              (unescapeLetter letter).bind fun value ↦
                (parseStringBody rest').map fun tail ↦ (value :: tail.1, tail.2)
      else if unit.toNat < 0x20 then none
      else (parseStringBody rest).map fun tail ↦ (unit :: tail.1, tail.2)

/-- The rest of the text behind a literal. -/
def afterLiteral (literal text : JsString) : Option JsString :=
  if literal.isPrefixOf text then some (text.drop literal.length) else none

/-- A key and its colon. -/
def parseKey (text : JsString) : Option (JsString × JsString) :=
  match skipWhitespace text with
  | unit :: rest =>
      if unit = quoteUnit then
        (parseStringBody rest).bind fun key ↦
          match skipWhitespace key.2 with
          | next :: rest' => if next = colonUnit then some (key.1, rest') else none
          | [] => none
      else none
  | [] => none

mutual

def parseValue : ℕ → JsString → Option (JsValue × JsString)
  | 0, _ => none
  | fuel + 1, text =>
      match skipWhitespace text with
      | [] => none
      | unit :: rest =>
          if unit = quoteUnit then
            (parseStringBody rest).map fun parsed ↦ (.str parsed.1, parsed.2)
          else if unit = openBracketUnit then
            match skipWhitespace rest with
            | next :: rest' =>
                if next = closeBracketUnit then some (.arr [], rest')
                else (parseItems fuel (next :: rest')).map fun parsed ↦ (.arr parsed.1, parsed.2)
            | [] => none
          else if unit = openBraceUnit then
            match skipWhitespace rest with
            | next :: rest' =>
                if next = closeBraceUnit then some (.obj [], rest')
                else (parseMembers fuel (next :: rest')).map fun parsed ↦ (.obj parsed.1, parsed.2)
            | [] => none
          else if unit = 0x74 then
            (afterLiteral (utf16 "true") (unit :: rest)).map fun rest' ↦ (.bool true, rest')
          else if unit = 0x66 then
            (afterLiteral (utf16 "false") (unit :: rest)).map fun rest' ↦ (.bool false, rest')
          else if unit = 0x6E then
            (afterLiteral (utf16 "null") (unit :: rest)).map fun rest' ↦ (.null, rest')
          else (parseNumber (unit :: rest)).map fun parsed ↦ (.num parsed.1, parsed.2)

/-- The items of a nonempty array, up to and with the closing bracket. -/
def parseItems : ℕ → JsString → Option (List JsValue × JsString)
  | 0, _ => none
  | fuel + 1, text =>
      (parseValue fuel text).bind fun item ↦
        match skipWhitespace item.2 with
        | unit :: rest =>
            if unit = commaUnit then
              (parseItems fuel rest).map fun parsed ↦ (item.1 :: parsed.1, parsed.2)
            else if unit = closeBracketUnit then some ([item.1], rest)
            else none
        | [] => none

/-- The members of a nonempty object, up to and with the closing brace. -/
def parseMembers : ℕ → JsString → Option (Fields × JsString)
  | 0, _ => none
  | fuel + 1, text =>
      (parseKey text).bind fun key ↦
        (parseValue fuel key.2).bind fun value ↦
          match skipWhitespace value.2 with
          | unit :: rest =>
              if unit = commaUnit then
                (parseMembers fuel rest).map fun parsed ↦
                  ((key.1, value.1) :: parsed.1, parsed.2)
              else if unit = closeBraceUnit then some ([(key.1, value.1)], rest)
              else none
          | [] => none

end

/-- The value of a whole text, with members as they are written. -/
def parseTree (text : JsString) : Option JsValue :=
  (parseValue (text.length + 1) text).bind fun parsed ↦
    if skipWhitespace parsed.2 = [] then some parsed.1 else none

mutual

/-- Every repeated key keeps its first place and its last value. -/
def lastWins : JsValue → JsValue
  | .arr items => .arr (lastWinsItems items)
  | .obj fields => .obj (lastWinsFields [] fields)
  | value => value

def lastWinsItems : List JsValue → List JsValue
  | [] => []
  | item :: rest => lastWins item :: lastWinsItems rest

def lastWinsFields (done : Fields) : Fields → Fields
  | [] => done
  | (key, value) :: rest => lastWinsFields (JsValue.setField done key (lastWins value)) rest

end

/-- `JSON.parse(text)`; `none` is a `SyntaxError`. -/
def parseJson (text : JsString) : Option JsValue := (parseTree text).map lastWins

/-! ## Reading strings back -/

theorem hexValue_hexUnit {digit : ℕ} (h : digit < 16) : hexValue (hexUnit digit) = some digit := by
  revert h
  revert digit
  decide

theorem hexQuad_hexUnit (unit : UInt16) :
    hexQuad (hexUnit (unit.toNat / 0x1000)) (hexUnit (unit.toNat / 0x100 % 0x10))
      (hexUnit (unit.toNat / 0x10 % 0x10)) (hexUnit (unit.toNat % 0x10)) = some unit := by
  have hlt : unit.toNat < 0x10000 := unit.toNat_lt
  rw [hexQuad, hexValue_hexUnit (by omega), hexValue_hexUnit (by omega),
    hexValue_hexUnit (by omega), hexValue_hexUnit (by omega)]
  simp only [bind_some, map_some, some.injEq]
  have hvalue : unit.toNat / 0x1000 * 0x1000 + unit.toNat / 0x100 % 0x10 * 0x100 +
      unit.toNat / 0x10 % 0x10 * 0x10 + unit.toNat % 0x10 = unit.toNat := by omega
  rw [hvalue, UInt16.ofNat_toNat]

/-- Adds a character in front of a parsed string. -/
def prepend (unit : UInt16) (parsed : Option (JsString × JsString)) :
    Option (JsString × JsString) :=
  parsed.map fun tail ↦ (unit :: tail.1, tail.2)

theorem parseStringBody_unicodeEscape (unit : UInt16) (rest : JsString) :
    parseStringBody (unicodeEscape unit ++ rest) = prepend unit (parseStringBody rest) := by
  have hquad := hexQuad_hexUnit unit
  rw [unicodeEscape, cons_append, parseStringBody.eq_def]
  simp [hquad, prepend, show backslashUnit ≠ quoteUnit by decide]

theorem parseStringBody_plain (hquote : unit ≠ quoteUnit)
    (hbackslash : unit ≠ backslashUnit) (hctrl : ¬ unit.toNat < 0x20) (rest : JsString) :
    parseStringBody (unit :: rest) = prepend unit (parseStringBody rest) := by
  rw [parseStringBody.eq_def]
  simp [hquote, hbackslash, hctrl, prepend]

theorem unescapeLetter_of_shortEscape {letter : UInt16} (h : shortEscape unit = some letter) :
    letter ≠ 0x75 ∧ unescapeLetter letter = some unit := by
  simp only [shortEscape] at h
  split_ifs at h with h1 h2 h3 h4 h5 h6 h7 <;>
    (simp only [some.injEq] at h; subst h; subst_vars; decide)

theorem parseStringBody_escapeUnit (unit : UInt16) (rest : JsString) :
    parseStringBody (escapeUnit unit ++ rest) = prepend unit (parseStringBody rest) := by
  rw [escapeUnit]
  cases hshort : shortEscape unit with
  | some letter =>
    have hletter := unescapeLetter_of_shortEscape hshort
    rw [parseStringBody.eq_def]
    simp [hletter, prepend, show backslashUnit ≠ quoteUnit by decide]
  | none =>
    by_cases hctrl : unit.toNat < 0x20
    · simp only [hctrl, if_true]
      exact parseStringBody_unicodeEscape unit rest
    · simp only [hctrl, if_false]
      have hne {other} (hother : shortEscape other ≠ none) : unit ≠ other :=
        fun h ↦ hother (h ▸ hshort)
      exact parseStringBody_plain (hne (by decide)) (hne (by decide)) hctrl rest

theorem surrogate_plain (h : isHighSurrogate unit ∨ isLowSurrogate unit) :
    unit ≠ quoteUnit ∧ unit ≠ backslashUnit ∧ ¬ unit.toNat < 0x20 := by
  have hrange : 0xD800 ≤ unit.toNat := by
    simp only [isHighSurrogate, isLowSurrogate, Bool.and_eq_true, decide_eq_true_eq] at h
    omega
  have hne {other : UInt16} (hother : other.toNat < 0xD800) : unit ≠ other := by
    rintro rfl
    omega
  exact ⟨hne (by decide), hne (by decide), by omega⟩

/-- A quoted string is read back, whatever follows it. -/
theorem parseStringBody_quoteBody (text rest : JsString) :
    parseStringBody (quoteBody text ++ quoteUnit :: rest) = some (text, rest) := by
  have hend : parseStringBody (quoteUnit :: rest) = some ([], rest) := by
    rw [parseStringBody.eq_def]
    simp
  fun_induction quoteBody text with
  | case1 => exact hend
  | case2 => rw [parseStringBody_unicodeEscape, hend, prepend, map_some]
  | case3 => rw [parseStringBody_escapeUnit, hend, prepend, map_some]
  | case4 unit next rest' hhigh hlow ih =>
    obtain ⟨hquote, hbackslash, hctrl⟩ := surrogate_plain (.inl hhigh)
    obtain ⟨hquote', hbackslash', hctrl'⟩ := surrogate_plain (.inr hlow)
    rw [cons_append, cons_append, parseStringBody_plain hquote hbackslash hctrl,
      parseStringBody_plain hquote' hbackslash' hctrl', ih]
    rfl
  | case5 unit next rest' hhigh hlow ih | case6 unit next rest' hhigh hlow ih =>
    rw [append_assoc, parseStringBody_unicodeEscape, ih]
    rfl
  | case7 unit next rest' hhigh hlow ih =>
    rw [append_assoc, parseStringBody_escapeUnit, ih]
    rfl

theorem parseKey_quote (key rest : JsString) :
    parseKey (quote key ++ colonUnit :: rest) = some (key, rest) := by
  have hquote : isWhitespace quoteUnit = false := by decide
  have hcolon : isWhitespace colonUnit = false := by decide
  rw [parseKey, quote, cons_append, skipWhitespace, dropWhile_cons_of_neg (by simp [hquote])]
  simp [parseStringBody_quoteBody, skipWhitespace, hcolon]

/-! ## Reading values back -/

theorem skipWhitespace_cons (h : isWhitespace unit = false) (rest : JsString) :
    skipWhitespace (unit :: rest) = unit :: rest := by
  rw [skipWhitespace, dropWhile_cons_of_neg (by simp [h])]

/-- A number literal starts with a minus sign or a digit. -/
theorem head_of_parseNumber {rest : JsString} {result : Decimal × JsString}
    (h : parseNumber (unit :: rest) = some result) : unit = minusUnit ∨ isDigit unit := by
  rw [parseNumber] at h
  split_ifs at h with hminus
  · exact .inl hminus
  · right
    by_contra hdigit
    simp [parseMagnitude, takeDigits, hdigit] at h

/-- What a value parsed back from its text is, for a text of at most `fuel` characters. -/
def ReadsBack (value : JsValue) : Prop :=
  ∀ (fuel : ℕ) (rest : JsString), (valueText value).length ≤ fuel → NumberEnd rest →
    parseValue fuel (valueText value ++ rest) = some (value.clean, rest)

/-- The text of a number starts with a character that starts nothing else. -/
theorem numberText_eq_cons (decimal : Decimal) :
    ∃ unit tail, numberText decimal = unit :: tail ∧ isWhitespace unit = false ∧
      unit ∉ [quoteUnit, openBracketUnit, closeBracketUnit, openBraceUnit, 0x74, 0x66, 0x6E] := by
  have hend : NumberEnd [] := by
    intro unit hunit
    simp at hunit
  have hparse := parseNumber_numberText decimal hend
  cases htext : numberText decimal with
  | nil => simp [htext, parseNumber] at hparse
  | cons unit tail =>
    rw [htext] at hparse
    refine ⟨unit, tail, rfl, ?_⟩
    rcases head_of_parseNumber hparse with hminus | hdigit
    · subst hminus
      decide
    · simp only [isDigit, Bool.and_eq_true, decide_eq_true_eq] at hdigit
      simp only [isWhitespace, quoteUnit, openBracketUnit, closeBracketUnit, openBraceUnit,
        ← UInt16.toNat_inj, mem_cons, not_mem_nil, or_false, not_or,
        Bool.or_eq_false_iff, decide_eq_false_iff_not, UInt16.reduceToNat]
      omega

/-- The text of a value starts with a character that closes no array. -/
theorem valueText_eq_cons (value : JsValue) :
    ∃ unit tail, valueText value = unit :: tail ∧ isWhitespace unit = false ∧
      unit ≠ closeBracketUnit := by
  cases value with
  | undefined | null => exact ⟨_, _, rfl, by decide, by decide⟩
  | bool value => cases value <;> exact ⟨_, _, rfl, by decide, by decide⟩
  | num value =>
    obtain ⟨unit, tail, htext, hspace, hunit⟩ := numberText_eq_cons value
    simp only [mem_cons, not_or] at hunit
    exact ⟨unit, tail, htext, hspace, hunit.2.2.1⟩
  | str | arr | obj => exact ⟨_, _, rfl, by decide, by decide⟩

/-- No text is empty, so that there is fuel for a first step. -/
theorem readsBack_of_succ {value : JsValue} (h : ∀ (fuel : ℕ) (rest : JsString),
      (valueText value).length ≤ fuel + 1 → NumberEnd rest →
        parseValue (fuel + 1) (valueText value ++ rest) = some (value.clean, rest)) :
    ReadsBack value := by
  intro fuel rest hfuel hrest
  cases fuel with
  | zero =>
    obtain ⟨unit, tail, htext, -⟩ := valueText_eq_cons value
    simp [htext] at hfuel
  | succ fuel => exact h fuel rest hfuel hrest

theorem readsBack_num (decimal : Decimal) : ReadsBack (.num decimal) := by
  refine readsBack_of_succ fun fuel rest _ hrest ↦ ?_
  obtain ⟨unit, tail, htext, hspace, hunit⟩ := numberText_eq_cons decimal
  have hparse := parseNumber_numberText decimal hrest
  simp only [mem_cons, not_mem_nil, or_false, not_or] at hunit
  obtain ⟨hquote, hbracket, -, hbrace, htrue, hfalse, hnull⟩ := hunit
  rw [htext, cons_append] at hparse
  rw [valueText, htext, cons_append, parseValue, skipWhitespace_cons hspace]
  simp [hquote, hbracket, hbrace, htrue, hfalse, hnull, hparse, clean]

theorem numberEnd_cons {rest : JsString}
    (h : isDigit unit = false ∧ unit ≠ pointUnit ∧ unit ≠ exponentUnit ∧ unit ≠ 0x45) :
    NumberEnd (unit :: rest) := by
  intro head hhead
  cases hhead
  exact h

theorem parseItems_itemTexts {items : List JsValue} (h : ∀ item ∈ items, ReadsBack item)
    (hne : items ≠ []) (fuel : ℕ) (rest : JsString)
    (hfuel : (joinComma (itemTexts items)).length < fuel) :
    parseItems fuel (joinComma (itemTexts items) ++ closeBracketUnit :: rest) =
      some (cleanItems items, rest) := by
  induction items generalizing fuel with
  | nil => exact absurd rfl hne
  | cons item items ih =>
    obtain ⟨fuel, rfl⟩ : ∃ n, fuel = n + 1 := ⟨fuel - 1, by omega⟩
    have hitem := h item (mem_cons_self ..)
    cases items with
    | nil =>
      simp only [itemTexts, joinComma] at hfuel ⊢
      rw [parseItems, hitem fuel _ (by omega) (numberEnd_cons (by decide)), bind_some,
        skipWhitespace_cons (by decide)]
      simp [cleanItems, show closeBracketUnit ≠ commaUnit by decide]
    | cons =>
      have ih := ih (fun item hmem ↦ h item (mem_cons_of_mem _ hmem)) (by simp) fuel
      simp only [itemTexts, joinComma, length_append, length_cons] at hfuel ih ⊢
      rw [parseItems, append_assoc, cons_append,
        hitem fuel _ (by omega) (numberEnd_cons (by decide)), bind_some,
        skipWhitespace_cons (by decide)]
      simp only [if_true]
      rw [ih (by omega)]
      rfl

/-- All fields are `undefined` exactly when no member is written. -/
theorem fieldTexts_eq_nil_iff (fields : Fields) :
    fieldTexts fields = [] ↔ cleanFields fields = [] := by
  induction fields with
  | nil => simp [fieldTexts, cleanFields]
  | cons field rest ih =>
    rw [fieldTexts, cleanFields]
    split_ifs with hundef
    · exact ih
    · simp

theorem parseMembers_fieldTexts (h : ∀ field ∈ fields, ReadsBack field.2)
    (hne : fieldTexts fields ≠ []) (fuel : ℕ) (rest : JsString)
    (hfuel : (joinComma (fieldTexts fields)).length < fuel) :
    parseMembers fuel (joinComma (fieldTexts fields) ++ closeBraceUnit :: rest) =
      some (cleanFields fields, rest) := by
  induction fields generalizing fuel with
  | nil => exact absurd rfl hne
  | cons field fields ih =>
    obtain ⟨key, value⟩ := field
    have hvalue : ReadsBack value := h (key, value) (mem_cons_self ..)
    have ih := ih fun field hfield ↦ h field (mem_cons_of_mem _ hfield)
    rw [fieldTexts] at hne hfuel ⊢
    rw [cleanFields]
    split_ifs at hne hfuel ⊢ with hundef
    · exact ih hne fuel hfuel
    · obtain ⟨fuel, rfl⟩ : ∃ n, fuel = n + 1 := ⟨fuel - 1, by omega⟩
      cases htexts : fieldTexts fields with
      | nil =>
        rw [htexts] at hfuel
        simp only [joinComma, length_append, length_cons] at hfuel ⊢
        rw [parseMembers, append_assoc, cons_append, parseKey_quote, bind_some,
          hvalue fuel _ (by omega) (numberEnd_cons (by decide)), bind_some,
          skipWhitespace_cons (by decide)]
        simp [(fieldTexts_eq_nil_iff fields).mp htexts, show closeBraceUnit ≠ commaUnit by decide]
      | cons =>
        have ih := ih (by simp [htexts]) fuel
        rw [htexts] at hfuel ih
        simp only [joinComma, length_append, length_cons] at hfuel ⊢
        rw [parseMembers, append_assoc, append_assoc, cons_append, cons_append,
          parseKey_quote, bind_some, hvalue fuel _ (by omega) (numberEnd_cons (by decide)),
          bind_some, skipWhitespace_cons (by decide)]
        simp only [if_true]
        rw [ih (by omega)]
        rfl

theorem joinComma_cons_append {part : JsString} {tail : JsString}
    (h : part = unit :: tail) (parts : List JsString) (rest : JsString) :
    ∃ tail', joinComma (part :: parts) ++ rest = unit :: tail' := by
  cases parts with
  | nil => exact ⟨tail ++ rest, by rw [joinComma, h, cons_append]⟩
  | cons => exact ⟨_, by rw [joinComma, h, cons_append, cons_append]; simp⟩

theorem readsBack_arr {items : List JsValue} (h : ∀ item ∈ items, ReadsBack item) :
    ReadsBack (.arr items) := by
  refine readsBack_of_succ fun fuel rest hfuel _ ↦ ?_
  rw [valueText, length_cons, length_append, length_singleton] at hfuel
  rw [valueText, cons_append, append_assoc, singleton_append, parseValue,
    skipWhitespace_cons (by decide), clean]
  simp only [show openBracketUnit ≠ quoteUnit by decide, if_true, if_false]
  cases items with
  | nil =>
    rw [itemTexts, joinComma, nil_append, skipWhitespace_cons (by decide)]
    simp [cleanItems]
  | cons item items =>
    have hitems := parseItems_itemTexts h (by simp) fuel rest (by omega)
    obtain ⟨unit, tail, htext, hspace, hclose⟩ := valueText_eq_cons item
    obtain ⟨tail', hjoin⟩ := joinComma_cons_append htext (itemTexts items)
      (closeBracketUnit :: rest)
    rw [itemTexts] at hitems ⊢
    rw [hjoin] at hitems ⊢
    rw [skipWhitespace_cons hspace]
    simp [hclose, hitems]

theorem fieldTexts_head {text : JsString} {texts : List JsString}
    (h : fieldTexts fields = text :: texts) : ∃ tail, text = quoteUnit :: tail := by
  induction fields with
  | nil => simp [fieldTexts] at h
  | cons field rest ih =>
    rw [fieldTexts] at h
    split_ifs at h with hundef
    · exact ih h
    · rw [← (cons.inj h).1, quote, cons_append]
      exact ⟨_, rfl⟩

theorem readsBack_obj (h : ∀ field ∈ fields, ReadsBack field.2) : ReadsBack (.obj fields) := by
  refine readsBack_of_succ fun fuel rest hfuel _ ↦ ?_
  rw [valueText, length_cons, length_append, length_singleton] at hfuel
  rw [valueText, cons_append, append_assoc, singleton_append, parseValue,
    skipWhitespace_cons (by decide), clean]
  simp only [show openBraceUnit ≠ quoteUnit by decide, show openBraceUnit ≠ openBracketUnit by decide,
    if_true, if_false]
  by_cases hnil : fieldTexts fields = []
  · rw [hnil, joinComma, nil_append, skipWhitespace_cons (by decide)]
    simp [(fieldTexts_eq_nil_iff fields).mp hnil]
  · have hmembers := parseMembers_fieldTexts h hnil fuel rest (by omega)
    obtain ⟨tail', hjoin⟩ : ∃ tail', joinComma (fieldTexts fields) ++ closeBraceUnit :: rest =
        quoteUnit :: tail' := by
      obtain ⟨text, texts, htexts⟩ := exists_cons_of_ne_nil hnil
      obtain ⟨tail, htail⟩ := fieldTexts_head htexts
      rw [htexts]
      exact joinComma_cons_append htail texts _
    rw [hjoin] at hmembers ⊢
    rw [skipWhitespace_cons (by decide)]
    simp [hmembers, show quoteUnit ≠ closeBraceUnit by decide]

/-- Every value is read back from its text, without its `undefined` parts. -/
theorem readsBack (value : JsValue) : ReadsBack value := by
  induction value with
  | num value => exact readsBack_num value
  | arr items ih => exact readsBack_arr ih
  | obj fields ih => exact readsBack_obj ih
  | str =>
    refine readsBack_of_succ fun fuel rest _ _ ↦ ?_
    rw [valueText, quote, cons_append, append_assoc, singleton_append, parseValue,
      skipWhitespace_cons (by decide)]
    simp [parseStringBody_quoteBody, clean]
  | bool value =>
    cases value with
    | true | false => exact readsBack_of_succ fun _ _ _ _ ↦ rfl
  | undefined | null => exact readsBack_of_succ fun _ _ _ _ ↦ rfl

/-- Parsing the text of a value gives the value without its `undefined` parts. -/
theorem parseTree_valueText (value : JsValue) : parseTree (valueText value) = some value.clean := by
  have hparse := readsBack value ((valueText value).length + 1) [] (by omega)
    (by intro unit hunit; simp at hunit)
  rw [append_nil] at hparse
  rw [parseTree, hparse]
  rfl

/-- Values with the same text differ in `undefined` parts only. -/
theorem clean_eq_of_valueText_eq {left right : JsValue} (h : valueText left = valueText right) :
    left.clean = right.clean := by
  have hparse := parseTree_valueText left
  rw [h, parseTree_valueText right] at hparse
  exact (some.inj hparse).symm

end GajaeCode.Json
