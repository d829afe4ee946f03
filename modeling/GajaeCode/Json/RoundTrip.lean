import Mathlib.Data.List.TakeWhile
import GajaeCode.Json.Parse
import GajaeCode.Text.Characters

/-!
# Round trips through JSON text

A value without repeated keys is read back from its text, also when the text is framed by
white space as in a line of a file. The text itself has no unpaired surrogates, whatever the
strings in it, and it is ASCII exactly when its strings are, up to escaped surrogates.
-/

namespace GajaeCode.Json

open Text Chain List JsValue

variable {fields : Fields} {value : JsValue} {text key : JsString} {field : JsString × JsValue}

theorem lastWinsFields_eq_append (hvalues : ∀ field ∈ fields, lastWins field.2 = field.2) :
    ∀ {done : Fields}, ((done ++ fields).map Prod.fst).Nodup →
      lastWinsFields done fields = done ++ fields := by
  induction fields with
  | nil => intro done _; simp [lastWinsFields]
  | cons field rest ih =>
    intro done hnodup
    obtain ⟨key, value⟩ := field
    have hfresh : key ∉ done.map Prod.fst := by
      intro hmem
      rw [map_append, nodup_append] at hnodup
      exact hnodup.2.2 key hmem key (by simp) rfl
    rw [lastWinsFields, hvalues (key, value) mem_cons_self, setField_eq_alter,
      alter_of_notMem hfresh, ih (fun field hfield ↦ hvalues field (mem_cons_of_mem _ hfield)), append_assoc,
      singleton_append]
    rwa [append_assoc, singleton_append]

variable (items : List JsValue)

theorem lastWinsItems_eq_map : lastWinsItems items = items.map lastWins := by
  induction items with
  | nil => rfl
  | cons item rest ih => rw [lastWinsItems, ih, map_cons]

theorem distinctKeysItems_iff : DistinctKeysItems items ↔ ∀ item ∈ items, item.DistinctKeys := by
  induction items with
  | nil => simp [DistinctKeysItems]
  | cons item rest ih => simp [DistinctKeysItems, ih]

theorem distinctKeysFields_iff (fields : Fields) :
    DistinctKeysFields fields ↔ ∀ field ∈ fields, field.2.DistinctKeys := by
  induction fields with
  | nil => simp [DistinctKeysFields]
  | cons field rest ih =>
    simp [DistinctKeysFields, ih]

/-- Nothing is overwritten while a value without repeated keys is built. -/
theorem lastWins_eq_self (value : JsValue) : value.DistinctKeys → lastWins value = value := by
  induction value with
  | arr items ih =>
    intro h
    rw [DistinctKeys, distinctKeysItems_iff] at h
    have hitems : items.map lastWins = items.map id :=
      map_congr_left fun item hitem ↦ ih item hitem (h item hitem)
    rw [lastWins, lastWinsItems_eq_map, hitems, map_id]
  | obj fields ih =>
    intro h
    rw [DistinctKeys, distinctKeysFields_iff] at h
    rw [lastWins, lastWinsFields_eq_append (fun field hfield ↦ ih field hfield (h.2 field hfield))
      (by simpa using h.1), nil_append]
  | _ => intro _; rw [lastWins] <;> simp

theorem mem_setField
    (h : field ∈ setField fields key value) : field = (key, value) ∨ field ∈ fields := by
  rw [setField_eq_alter] at h
  exact (mem_alter h).imp_left fun ⟨_, hfield⟩ ↦ hfield

/-- Setting a member keeps an object free of repeated keys. -/
theorem distinctKeys_setField (h : (obj fields).DistinctKeys) (key : JsString)
    (hvalue : value.DistinctKeys) :
    (obj (setField fields key value)).DistinctKeys := by
  rw [DistinctKeys, distinctKeysFields_iff] at h ⊢
  refine ⟨?_, fun field hfield ↦ ?_⟩
  · rw [setField_eq_alter]
    exact nodup_alter h.1
  rcases mem_setField hfield with rfl | hfield
  · exact hvalue
  · exact h.2 field hfield

/-- A member may be moved behind the others. -/
theorem distinctKeys_filter_concat (h : (obj fields).DistinctKeys) (hvalue : value.DistinctKeys) :
    (obj (fields.filter (fun field ↦ field.1 ≠ key) ++ [(key, value)])).DistinctKeys := by
  rw [DistinctKeys, distinctKeysFields_iff] at h ⊢
  constructor
  · rw [map_append, nodup_append']
    refine ⟨h.1.sublist (filter_sublist.map Prod.fst), nodup_singleton _, ?_⟩
    intro other hother hkey
    obtain ⟨field, hfield, rfl⟩ := mem_map.mp hother
    have hne : field.1 ≠ key := by simpa using (mem_filter.mp hfield).2
    exact hne (mem_singleton.mp hkey)
  · rw [forall_mem_append, forall_mem_singleton]
    exact ⟨fun field hfield ↦ h.2 field (mem_filter.mp hfield).1, hvalue⟩

theorem distinctKeys_lastWinsFields (hvalues : ∀ field ∈ fields, (lastWins field.2).DistinctKeys) :
    ∀ done : Fields, (obj done).DistinctKeys → (obj (lastWinsFields done fields)).DistinctKeys := by
  induction fields with
  | nil => exact fun done hdone ↦ hdone
  | cons field rest ih =>
    intro done hdone
    rw [forall_mem_cons] at hvalues
    exact ih hvalues.2 _ (distinctKeys_setField hdone field.1 hvalues.1)

/-- A parsed value has no repeated keys. -/
theorem distinctKeys_lastWins (value : JsValue) : (lastWins value).DistinctKeys := by
  have hnil : (obj []).DistinctKeys := by
    simp [DistinctKeys, DistinctKeysFields]
  induction value with
  | arr items ih =>
    rw [lastWins, DistinctKeys, distinctKeysItems_iff, lastWinsItems_eq_map, forall_mem_map]
    exact ih
  | obj fields ih =>
    exact distinctKeys_lastWinsFields ih [] hnil
  | _ => trivial

theorem numberEnd_of_isWhitespace (h : ∀ unit ∈ text, isWhitespace unit) : NumberEnd text := by
  intro unit hunit
  have hspace := h unit (mem_of_mem_head? hunit)
  simp only [isWhitespace, Bool.or_eq_true, decide_eq_true_eq] at hspace
  rcases hspace with ((rfl | rfl) | rfl) | rfl <;> decide

/-- A value is read back from its text with white space behind it. -/
theorem parseJson_valueText_append (hkeys : value.clean.DistinctKeys)
    {rest : JsString} (hrest : ∀ unit ∈ rest, isWhitespace unit) :
    parseJson (valueText value ++ rest) = some value.clean := by
  have hlen : (valueText value).length ≤ (valueText value ++ rest).length + 1 := by
    rw [length_append]
    omega
  have hparse := readsBack value _ rest hlen (numberEnd_of_isWhitespace hrest)
  have hend : skipWhitespace rest = [] := dropWhile_eq_nil_iff.mpr hrest
  rw [parseJson, parseTree, hparse, Option.bind_some, if_pos hend, Option.map_some,
    lastWins_eq_self _ hkeys]

/-! ## The units of a text -/

/-- No unit is a control character. -/
def HasNoControls (text : JsString) : Prop := ∀ unit ∈ text, 0x20 ≤ unit.toNat

instance (text : JsString) : Decidable (HasNoControls text) :=
  inferInstanceAs (Decidable (∀ unit ∈ text, _))

/-- The units of numbers and escapes. -/
def IsPrintable (text : JsString) : Prop :=
  ∀ unit ∈ text, 0x20 ≤ unit.toNat ∧ unit.toNat < 0x80

instance (text : JsString) : Decidable (IsPrintable text) :=
  inferInstanceAs (Decidable (∀ unit ∈ text, _))

theorem IsPrintable.isAscii (h : IsPrintable text) : IsAscii text := fun unit hunit ↦ (h unit hunit).2

theorem isPrintable_of_isDigit (h : ∀ unit ∈ text, isDigit unit) : IsPrintable text := by
  intro unit hunit
  have hdigit := h unit hunit
  simp only [isDigit, Bool.and_eq_true, decide_eq_true_eq] at hdigit
  omega

theorem isPrintable_natText (n : ℕ) : IsPrintable (natText n) :=
  isPrintable_of_isDigit fun _ ↦ isDigit_of_mem_natText

theorem isPrintable_fractionText (h : IsPrintable text) : IsPrintable (fractionText text) := by
  unfold fractionText
  split_ifs
  · exact forall_mem_nil _
  · exact forall_mem_cons.mpr ⟨by decide, h⟩

theorem isPrintable_exponentText (exp : ℤ) : IsPrintable (exponentText exp) := by
  unfold exponentText
  refine forall_mem_cons.mpr ⟨by decide, forall_mem_cons.mpr ⟨?_, isPrintable_natText _⟩⟩
  split_ifs <;> decide

theorem isPrintable_magnitudeText (mantissa : ℕ) (exp : ℤ) :
    IsPrintable (magnitudeText mantissa exp) := by
  have hdigits := isPrintable_natText mantissa
  have hzeros (count) : IsPrintable (zeroUnits count) :=
    isPrintable_of_isDigit fun _ ↦ isDigit_of_mem_zeroUnits
  have htake (count) : IsPrintable ((natText mantissa).take count) :=
    fun unit hunit ↦ hdigits unit (mem_of_mem_take hunit)
  have hdrop (count) : IsPrintable ((natText mantissa).drop count) :=
    fun unit hunit ↦ hdigits unit (mem_of_mem_drop hunit)
  have hzero : IsPrintable [digitUnit 0] := by decide
  unfold magnitudeText
  dsimp only
  split_ifs
  · exact forall_mem_append.mpr ⟨hdigits, hzeros _⟩
  · exact forall_mem_append.mpr ⟨htake _, isPrintable_fractionText (hdrop _)⟩
  · exact forall_mem_append.mpr ⟨hzero,
      isPrintable_fractionText (forall_mem_append.mpr ⟨hzeros _, hdigits⟩)⟩
  · exact forall_mem_append.mpr ⟨forall_mem_append.mpr
      ⟨htake _, isPrintable_fractionText (hdrop _)⟩, isPrintable_exponentText _⟩

theorem isPrintable_numberText (decimal : Decimal) : IsPrintable (numberText decimal) := by
  have hminus : IsPrintable [minusUnit] := by decide
  unfold numberText
  split_ifs
  · decide
  · exact forall_mem_append.mpr ⟨hminus, isPrintable_magnitudeText _ _⟩
  · exact forall_mem_append.mpr ⟨forall_mem_nil _, isPrintable_magnitudeText _ _⟩

theorem isPrintable_hexUnit {digit : ℕ} (h : digit < 16) :
    0x20 ≤ (hexUnit digit).toNat ∧ (hexUnit digit).toNat < 0x80 := by
  interval_cases digit <;> decide

theorem isPrintable_unicodeEscape (unit : UInt16) : IsPrintable (unicodeEscape unit) := by
  have hunit := unit.toNat_lt
  intro letter hletter
  simp only [unicodeEscape, mem_cons, not_mem_nil, or_false] at hletter
  rcases hletter with rfl | rfl | rfl | rfl | rfl | rfl
  · decide
  · decide
  all_goals exact isPrintable_hexUnit (by omega)

/-- The text stands on one line and has no unpaired surrogates. -/
def IsOneLine (text : JsString) : Prop := isWellFormed text = true ∧ HasNoControls text

theorem isOneLine_of_isPrintable (h : IsPrintable text) : IsOneLine text :=
  ⟨isWellFormed_of_ascii h.isAscii, fun unit hunit ↦ (h unit hunit).1⟩

theorem isOneLine_append {left right : JsString} (hleft : IsOneLine left) (hright : IsOneLine right) :
    IsOneLine (left ++ right) :=
  ⟨isWellFormed_append hleft.1 hright.1, forall_mem_append.mpr ⟨hleft.2, hright.2⟩⟩

/-- Every mark of the format is printable. -/
theorem isOneLine_between {left right : UInt16} (hleft : IsPrintable [left])
    (h : IsOneLine text) (hright : IsPrintable [right]) : IsOneLine (left :: (text ++ [right])) :=
  isOneLine_append (isOneLine_of_isPrintable hleft)
    (isOneLine_append h (isOneLine_of_isPrintable hright))

/-- `JSON.stringify` escapes one character at a time. -/
theorem quoteBody_eq_flatMap_characters (text : JsString) :
    quoteBody text = (characters text).flatMap quoteBody := by
  fun_induction characters text with
  | case1 => rfl
  | case2 => simp
  | case3 unit next rest h ih =>
    rw [Bool.and_eq_true] at h
    simp [quoteBody, h.1, h.2, ih]
  | case4 unit next rest h ih =>
    rw [flatMap_cons, ← ih, quoteBody, quoteBody]
    cases hhigh : isHighSurrogate unit with
    | false => cases isLowSurrogate unit <;> simp
    | true =>
      have hlow : isLowSurrogate next = false := by simpa [hhigh] using h
      simp [hlow]

/-- A character that is not an unpaired surrogate stays as it is or becomes an escape. -/
theorem quoteBody_character {char : JsString} (h : IsCharacter char) :
    IsPrintable (quoteBody char) ∨ (quoteBody char = char ∧ IsOneLine char) := by
  rcases h with ⟨unit, rfl⟩ | ⟨high, low, rfl, hhigh, hlow⟩
  · rw [quoteBody]
    split_ifs with hsurr
    · exact .inl (isPrintable_unicodeEscape unit)
    · unfold escapeUnit
      cases hshort : shortEscape unit with
      | some letter =>
        have hletter : IsPrintable [backslashUnit, letter] := by
          unfold shortEscape at hshort
          split_ifs at hshort <;> (cases hshort; decide)
        exact .inl hletter
      | none =>
        split_ifs with hctrl
        · exact .inl (isPrintable_unicodeEscape unit)
        · exact .inr ⟨rfl, by simpa [isWellFormed] using hsurr,
            by simpa [HasNoControls] using hctrl⟩
  · refine .inr ⟨by simp [quoteBody, hhigh, hlow], by simp [isWellFormed, hhigh, hlow], ?_⟩
    simp only [isHighSurrogate, isLowSurrogate, Bool.and_eq_true, decide_eq_true_eq] at hhigh hlow
    exact forall_mem_cons.mpr ⟨by omega, forall_mem_singleton.mpr (by omega)⟩

theorem isOneLine_quoteBody_character {char : JsString} (h : IsCharacter char) :
    IsOneLine (quoteBody char) := by
  rcases quoteBody_character h with hprintable | ⟨hsame, hline⟩
  · exact isOneLine_of_isPrintable hprintable
  · rwa [hsame]

theorem isOneLine_quote (text : JsString) : IsOneLine (quote text) := by
  have hchar : ∀ char ∈ characters text, IsOneLine (quoteBody char) :=
    fun char hmem ↦ isOneLine_quoteBody_character (isCharacter_of_mem_characters hmem)
  refine isOneLine_between (by decide) ?_ (by decide)
  rw [quoteBody_eq_flatMap_characters]
  refine ⟨isWellFormed_flatMap fun char hmem ↦ (hchar char hmem).1, ?_⟩
  intro unit hunit
  obtain ⟨char, hmem, hunit⟩ := mem_flatMap.mp hunit
  exact (hchar char hmem).2 unit hunit

theorem isOneLine_joinComma {parts : List JsString} (h : ∀ part ∈ parts, IsOneLine part) :
    IsOneLine (joinComma parts) := by
  fun_induction joinComma parts with
  | case1 => exact isOneLine_of_isPrintable (forall_mem_nil _)
  | case2 part => exact h part (by simp)
  | case3 part rest hne ih =>
    have hcomma : IsPrintable [commaUnit] := by decide
    exact isOneLine_append (h part (by simp)) (isOneLine_append (isOneLine_of_isPrintable hcomma)
      (ih fun item hitem ↦ h item (mem_cons_of_mem _ hitem)))

theorem itemTexts_eq_map : itemTexts items = items.map valueText := by
  induction items with
  | nil => rfl
  | cons item rest ih => rw [itemTexts, ih, map_cons]

theorem mem_fieldTexts_iff :
    text ∈ fieldTexts fields ↔ ∃ field ∈ fields, field.2.isUndefined = false ∧
      text = quote field.1 ++ colonUnit :: valueText field.2 := by
  induction fields with
  | nil => simp [fieldTexts]
  | cons field rest ih =>
    obtain ⟨key, value⟩ := field
    cases h : value.isUndefined <;> simp [fieldTexts, h, ih]

/-- `JSON.stringify` escapes every control character and every unpaired surrogate. -/
theorem isOneLine_valueText (value : JsValue) : IsOneLine (valueText value) := by
  induction value with
  | undefined | null => exact isOneLine_of_isPrintable (by decide)
  | bool value => exact isOneLine_of_isPrintable (by cases value <;> decide)
  | num value => exact isOneLine_of_isPrintable (isPrintable_numberText value)
  | str text => exact isOneLine_quote text
  | arr items ih =>
    refine isOneLine_between (by decide) (isOneLine_joinComma fun part hpart ↦ ?_) (by decide)
    rw [itemTexts_eq_map, mem_map] at hpart
    obtain ⟨item, hitem, rfl⟩ := hpart
    exact ih item hitem
  | obj fields ih =>
    have hcolon : IsPrintable [colonUnit] := by decide
    refine isOneLine_between (by decide) (isOneLine_joinComma fun part hpart ↦ ?_) (by decide)
    obtain ⟨field, hfield, -, rfl⟩ := mem_fieldTexts_iff.mp hpart
    exact isOneLine_append (isOneLine_quote field.1)
      (isOneLine_append (isOneLine_of_isPrintable hcolon) (ih field hfield))

/-! ## ASCII texts -/

/-- Every character is ASCII, apart from unpaired surrogates. -/
def AsciiOrUnpaired (text : JsString) : Prop :=
  ∀ character ∈ characters text, IsAscii character ∨ isWellFormed character = false

instance (text : JsString) : Decidable (AsciiOrUnpaired text) :=
  inferInstanceAs (Decidable (∀ character ∈ characters text, _))

theorem asciiOrUnpaired_of_isAscii (h : IsAscii text) : AsciiOrUnpaired text := by
  intro char hchar
  left
  intro unit hunit
  have hmem := mem_flatten_of_mem hchar hunit
  rw [flatten_characters] at hmem
  exact h unit hmem

theorem isAscii_quoteBody_character_iff {char : JsString} (h : IsCharacter char) :
    IsAscii (quoteBody char) ↔ IsAscii char ∨ isWellFormed char = false := by
  rcases h with ⟨unit, rfl⟩ | ⟨high, low, rfl, hhigh, hlow⟩
  · by_cases hsurr : isHighSurrogate unit || isLowSurrogate unit
    · simp [quoteBody, hsurr, isWellFormed, (isPrintable_unicodeEscape unit).isAscii]
    · have hwell : isWellFormed [unit] := by simpa [isWellFormed] using hsurr
      have hchar : IsCharacter [unit] := .inl ⟨unit, rfl⟩
      rw [hwell]
      simp only [Bool.true_eq_false, or_false]
      constructor
      · intro hascii letter hletter
        rw [mem_singleton] at hletter
        subst hletter
        rw [quoteBody, if_neg hsurr, escapeUnit] at hascii
        cases hshort : shortEscape letter with
        | some =>
          unfold shortEscape at hshort
          by_contra hlarge
          split_ifs at hshort <;> simp_all [quoteUnit, backslashUnit]
        | none =>
          rw [hshort] at hascii
          split_ifs at hascii
          · omega
          · exact hascii letter (by simp)
      · intro hascii
        rcases quoteBody_character hchar with hquoted | ⟨heq, -⟩
        · exact hquoted.isAscii
        · rw [heq]
          exact hascii
  · have hwell : isWellFormed [high, low] := by simp [isWellFormed, hhigh, hlow]
    have hbody : quoteBody [high, low] = [high, low] := by simp [quoteBody, hhigh, hlow]
    rw [hbody, hwell]
    simp

theorem isAscii_flatMap_iff {α : Type} {pieces : List α} {text : α → JsString} :
    IsAscii (pieces.flatMap text) ↔ ∀ piece ∈ pieces, IsAscii (text piece) := by
  induction pieces with
  | nil => simp [IsAscii]
  | cons piece rest ih => rw [flatMap_cons, isAscii_append, ih, forall_mem_cons]

theorem isAscii_quote_iff (text : JsString) : IsAscii (quote text) ↔ AsciiOrUnpaired text := by
  rw [quote, isAscii_cons, isAscii_append, isAscii_cons, quoteBody_eq_flatMap_characters,
    isAscii_flatMap_iff]
  simp only [show quoteUnit.toNat < 0x80 by decide, isAscii_nil, true_and, and_true]
  exact forall₂_congr fun char hchar ↦
    isAscii_quoteBody_character_iff (isCharacter_of_mem_characters hchar)

theorem isAscii_joinComma_iff (parts : List JsString) :
    IsAscii (joinComma parts) ↔ ∀ part ∈ parts, IsAscii part := by
  fun_induction joinComma parts with
  | case1 => simp [IsAscii]
  | case2 => simp
  | case3 part rest hne ih =>
    rw [isAscii_append, isAscii_cons, ih, forall_mem_cons]
    simp [show commaUnit.toNat < 0x80 by decide]

theorem isAscii_valueText_arr_iff :
    IsAscii (valueText (.arr items)) ↔ ∀ item ∈ items, IsAscii (valueText item) := by
  rw [valueText, isAscii_cons, isAscii_append, isAscii_joinComma_iff, itemTexts_eq_map,
    forall_mem_map]
  simp [show openBracketUnit.toNat < 0x80 by decide, isAscii_cons, isAscii_nil,
    show closeBracketUnit.toNat < 0x80 by decide]

theorem isAscii_valueText_obj_iff (fields : Fields) :
    IsAscii (valueText (.obj fields)) ↔ ∀ field ∈ fields, field.2.isUndefined = false →
      IsAscii (quote field.1) ∧ IsAscii (valueText field.2) := by
  rw [valueText, isAscii_cons, isAscii_append, isAscii_joinComma_iff]
  simp only [show openBraceUnit.toNat < 0x80 by decide, isAscii_cons, isAscii_nil,
    show closeBraceUnit.toNat < 0x80 by decide, true_and, and_true]
  constructor
  · intro h field hfield hdefined
    have htext := h _ (mem_fieldTexts_iff.mpr ⟨field, hfield, hdefined, rfl⟩)
    rw [isAscii_append, isAscii_cons] at htext
    exact ⟨htext.1, htext.2.2⟩
  · intro h part hpart
    obtain ⟨field, hfield, hdefined, rfl⟩ := mem_fieldTexts_iff.mp hpart
    rw [isAscii_append, isAscii_cons]
    exact ⟨(h field hfield hdefined).1, by decide, (h field hfield hdefined).2⟩

/-! ## Distinct keys of cleaned values -/

theorem cleanItems_eq_map : cleanItems items = items.map clean := by
  induction items with
  | nil => rfl
  | cons item rest ih => rw [cleanItems, ih, map_cons]

theorem cleanFields_eq_map (fields : Fields) : cleanFields fields =
    (fields.filter fun field ↦ !field.2.isUndefined).map fun field ↦ (field.1, field.2.clean) := by
  induction fields with
  | nil => rfl
  | cons field rest ih => cases h : field.2.isUndefined <;> simp [cleanFields, h, ih]

theorem keys_cleanFields_sublist (fields : Fields) :
    ((cleanFields fields).map Prod.fst).Sublist (fields.map Prod.fst) := by
  rw [cleanFields_eq_map, map_map]
  exact filter_sublist.map Prod.fst

/-- Dropping undefined members keeps keys distinct. -/
theorem distinctKeys_clean : value.DistinctKeys → value.clean.DistinctKeys := by
  induction value with
  | arr items ih =>
    intro h
    rw [DistinctKeys, distinctKeysItems_iff] at h
    rw [clean, DistinctKeys, distinctKeysItems_iff]
    intro item hitem
    rw [cleanItems_eq_map, mem_map] at hitem
    obtain ⟨original, hmem, rfl⟩ := hitem
    exact ih original hmem (h original hmem)
  | obj fields ih =>
    intro h
    rw [DistinctKeys, distinctKeysFields_iff] at h
    rw [clean, DistinctKeys, distinctKeysFields_iff]
    refine ⟨h.1.sublist (keys_cleanFields_sublist fields), fun field hfield ↦ ?_⟩
    rw [cleanFields_eq_map, mem_map] at hfield
    obtain ⟨original, hmem, rfl⟩ := hfield
    exact ih original (mem_of_mem_filter hmem) (h.2 original (mem_of_mem_filter hmem))
  | _ => exact fun _ ↦ trivial

/-! ## Members of what is read back -/

section

variable {fields : Fields} {key : JsString} {value : JsValue}

theorem get_cons_self (key : JsString) (value : JsValue) (rest : Fields) :
    (obj ((key, value) :: rest)).get key = value := by
  simp [JsValue.get]

theorem get_of_mem (h : (fields.map Prod.fst).Nodup) (hmem : (key, value) ∈ fields) :
    (obj fields).get key = value := by
  rw [JsValue.get, lookup_of_mem h hmem, Option.getD_some]

theorem get_setField_self (fields : Fields) (key : JsString) (value : JsValue) :
    (obj (setField fields key value)).get key = value := by
  rw [setField_eq_alter, JsValue.get, lookup_alter, if_pos rfl, Option.getD_some]

theorem distinctKeys_get (h : value.DistinctKeys) (key : JsString) : (value.get key).DistinctKeys := by
  cases value with
  | obj fields =>
    rw [JsValue.get]
    cases hlookup : fields.lookup key with
    | none => trivial
    | some => exact (distinctKeysFields_iff _).mp h.2 _ (mem_pairs_of_lookup hlookup)
  | _ => trivial

end

end GajaeCode.Json
