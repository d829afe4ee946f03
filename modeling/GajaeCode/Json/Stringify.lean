import GajaeCode.Json.Value

/-!
# `JSON.stringify`

Strings are quoted with the short escapes, control characters and unpaired surrogates as `\u`
escapes, so the text is well-formed UTF-16 whatever the strings hold. Fields that are `undefined`
are skipped and items that are `undefined` are written as `null`; the text of a value is therefore
the text of the cleaned value.
-/

namespace GajaeCode.Json

open Text

def quoteUnit : UInt16 := 0x22

def backslashUnit : UInt16 := 0x5C

def commaUnit : UInt16 := 0x2C

def colonUnit : UInt16 := 0x3A

def openBracketUnit : UInt16 := 0x5B

def closeBracketUnit : UInt16 := 0x5D

def openBraceUnit : UInt16 := 0x7B

def closeBraceUnit : UInt16 := 0x7D

/-- A lower-case hexadecimal digit. -/
def hexUnit (digit : ℕ) : UInt16 :=
  UInt16.ofNat (if digit < 10 then 0x30 + digit else 0x57 + digit)

/-- `\uXXXX`. -/
def unicodeEscape (unit : UInt16) : JsString :=
  [backslashUnit, 0x75, hexUnit (unit.toNat / 0x1000), hexUnit (unit.toNat / 0x100 % 0x10),
    hexUnit (unit.toNat / 0x10 % 0x10), hexUnit (unit.toNat % 0x10)]

/-- The letter of a two-unit escape, for the characters that have one. -/
def shortEscape (unit : UInt16) : Option UInt16 :=
  if unit = 0x08 then some 0x62
  else if unit = 0x09 then some 0x74
  else if unit = 0x0A then some 0x6E
  else if unit = 0x0C then some 0x66
  else if unit = 0x0D then some 0x72
  else if unit = quoteUnit then some quoteUnit
  else if unit = backslashUnit then some backslashUnit
  else none

/-- One character that is not a surrogate. -/
def escapeUnit (unit : UInt16) : JsString :=
  match shortEscape unit with
  | some letter => [backslashUnit, letter]
  | none => if unit.toNat < 0x20 then unicodeEscape unit else [unit]

/-- The characters of a string between its quotes. -/
def quoteBody : JsString → JsString
  | [] => []
  | [unit] =>
      if isHighSurrogate unit || isLowSurrogate unit then unicodeEscape unit else escapeUnit unit
  | unit :: next :: rest =>
      if isHighSurrogate unit then
        if isLowSurrogate next then unit :: next :: quoteBody rest
        else unicodeEscape unit ++ quoteBody (next :: rest)
      else if isLowSurrogate unit then unicodeEscape unit ++ quoteBody (next :: rest)
      else escapeUnit unit ++ quoteBody (next :: rest)

def quote (text : JsString) : JsString := quoteUnit :: (quoteBody text ++ [quoteUnit])

/-- Parts separated by commas. -/
def joinComma : List JsString → JsString
  | [] => []
  | [part] => part
  | part :: rest => part ++ commaUnit :: joinComma rest

mutual

/-- The text of a value inside an array or object. -/
def valueText : JsValue → JsString
  | .undefined => utf16 "null"
  | .null => utf16 "null"
  | .bool true => utf16 "true"
  | .bool false => utf16 "false"
  | .num value => numberText value
  | .str text => quote text
  | .arr items => openBracketUnit :: (joinComma (itemTexts items) ++ [closeBracketUnit])
  | .obj fields => openBraceUnit :: (joinComma (fieldTexts fields) ++ [closeBraceUnit])

def itemTexts : List JsValue → List JsString
  | [] => []
  | item :: rest => valueText item :: itemTexts rest

def fieldTexts : Fields → List JsString
  | [] => []
  | (key, value) :: rest =>
      if value.isUndefined then fieldTexts rest
      else (quote key ++ colonUnit :: valueText value) :: fieldTexts rest

end

/-- `JSON.stringify(value)`; `undefined` has no text. -/
def stringify (value : JsValue) : Option JsString :=
  if value.isUndefined then none else some (valueText value)

theorem isUndefined_clean (value : JsValue) : value.clean.isUndefined = false := by
  cases value <;> rfl

end GajaeCode.Json
