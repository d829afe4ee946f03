import Mathlib.Data.List.Basic

/-!
# Strings as UTF-16 code units

A JavaScript string is a list of 16-bit code units, and its length counts units. Surrogates
may occur unpaired, so a string need not denote a sequence of Unicode scalar values. Reading
one as scalar values replaces every unpaired surrogate by U+FFFD; a string is well formed
exactly when that replacement leaves it unchanged.
-/

namespace GajaeCode.Text

variable {unit : UInt16}

abbrev JsString := List UInt16

/-- A test of every unit of a string looks at the string, not at all units there are. -/
instance (priority := 2000) (text : JsString) (test : UInt16 → Prop) [DecidablePred test] :
    Decidable (∀ unit ∈ text, test unit) :=
  List.decidableBAll test text

instance (priority := 2000) : LawfulBEq JsString := List.instLawfulBEq

def isHighSurrogate (unit : UInt16) : Bool := 0xD800 ≤ unit.toNat && unit.toNat ≤ 0xDBFF

def isLowSurrogate (unit : UInt16) : Bool := 0xDC00 ≤ unit.toNat && unit.toNat ≤ 0xDFFF

/-- U+FFFD, the replacement character. -/
def replacementUnit : UInt16 := 0xFFFD

/-- The code units of one scalar value. -/
def scalarUnits (scalar : ℕ) : JsString :=
  if scalar < 0x10000 then [UInt16.ofNat scalar]
  else [UInt16.ofNat (0xD800 + (scalar - 0x10000) / 0x400),
    UInt16.ofNat (0xDC00 + (scalar - 0x10000) % 0x400)]

/-- Source literals are written as Lean strings. -/
def utf16 (text : String) : JsString := text.toList.flatMap fun char ↦ scalarUnits char.toNat

/-- The code units that `trim` removes and `\s` matches. -/
def isTrimmed (unit : UInt16) : Bool :=
  let code := unit.toNat
  (9 ≤ code && code ≤ 13) || code == 0x20 || code == 0xA0 || code == 0x1680 ||
    (0x2000 ≤ code && code ≤ 0x200A) || code == 0x2028 || code == 0x2029 || code == 0x202F ||
    code == 0x205F || code == 0x3000 || code == 0xFEFF

/-- The scalar value named by a surrogate pair. -/
def pairScalar (high low : UInt16) : ℕ :=
  0x10000 + (high.toNat - 0xD800) * 0x400 + (low.toNat - 0xDC00)

/-- Scalar values of a string, with U+FFFD in place of every unpaired surrogate. -/
def scalars : JsString → List ℕ
  | [] => []
  | [unit] => [if isHighSurrogate unit || isLowSurrogate unit then 0xFFFD else unit.toNat]
  | unit :: next :: rest =>
      if isHighSurrogate unit then
        if isLowSurrogate next then pairScalar unit next :: scalars rest
        else 0xFFFD :: scalars (next :: rest)
      else if isLowSurrogate unit then 0xFFFD :: scalars (next :: rest)
      else unit.toNat :: scalars (next :: rest)

/-- `String.prototype.toWellFormed`. -/
def toWellFormed : JsString → JsString
  | [] => []
  | [unit] => [if isHighSurrogate unit || isLowSurrogate unit then replacementUnit else unit]
  | unit :: next :: rest =>
      if isHighSurrogate unit then
        if isLowSurrogate next then unit :: next :: toWellFormed rest
        else replacementUnit :: toWellFormed (next :: rest)
      else if isLowSurrogate unit then replacementUnit :: toWellFormed (next :: rest)
      else unit :: toWellFormed (next :: rest)

/-- Every surrogate of the string is half of a pair. -/
def isWellFormed : JsString → Bool
  | [] => true
  | [unit] => !(isHighSurrogate unit || isLowSurrogate unit)
  | unit :: next :: rest =>
      if isHighSurrogate unit then isLowSurrogate next && isWellFormed rest
      else !isLowSurrogate unit && isWellFormed (next :: rest)

theorem isLowSurrogate_of_isHighSurrogate (h : isHighSurrogate unit) :
    isLowSurrogate unit = false := by
  simp only [isHighSurrogate, isLowSurrogate, Bool.and_eq_true, decide_eq_true_eq,
    Bool.and_eq_false_iff, decide_eq_false_iff_not] at *
  omega

theorem isHighSurrogate_of_isLowSurrogate (h : isLowSurrogate unit) :
    isHighSurrogate unit = false := by
  cases hhigh : isHighSurrogate unit with
  | false => rfl
  | true => rw [← h, isLowSurrogate_of_isHighSurrogate hhigh]

theorem ne_replacementUnit_of_surrogate
    (h : isHighSurrogate unit ∨ isLowSurrogate unit) : unit ≠ replacementUnit := by
  rintro rfl
  exact absurd h (by decide)

variable (text : JsString)

/-- A string equals its repaired form exactly when it has nothing to repair. -/
theorem toWellFormed_eq_self_iff : toWellFormed text = text ↔ isWellFormed text := by
  have hhigh {unit} (h : isHighSurrogate unit) : replacementUnit ≠ unit :=
    (ne_replacementUnit_of_surrogate (.inl h)).symm
  have hlow {unit} (h : isLowSurrogate unit) : replacementUnit ≠ unit :=
    (ne_replacementUnit_of_surrogate (.inr h)).symm
  fun_induction toWellFormed text with
  | case1 => simp [isWellFormed]
  | case2 unit =>
    by_cases hh : isHighSurrogate unit
    · simp [isWellFormed, hh, hhigh hh]
    · by_cases hl : isLowSurrogate unit
      · simp [isWellFormed, hl, hlow hl]
      · simp [isWellFormed, hh, hl]
  | case3 unit next rest hh hl ih => simp [isWellFormed, hh, hl, ih]
  | case4 unit next rest hh hl => simp [isWellFormed, hh, hl, hhigh hh]
  | case5 unit next rest hh hl => simp [isWellFormed, hh, hl, hlow hl]
  | case6 unit next rest hh hl ih => simp [isWellFormed, hh, hl, ih]

theorem scalarUnits_pairScalar {high low : UInt16} (hhigh : isHighSurrogate high)
    (hlow : isLowSurrogate low) : scalarUnits (pairScalar high low) = [high, low] := by
  simp only [isHighSurrogate, isLowSurrogate, Bool.and_eq_true, decide_eq_true_eq] at hhigh hlow
  have hge : ¬ pairScalar high low < 0x10000 := by unfold pairScalar; omega
  have hquot : 0xD800 + (pairScalar high low - 0x10000) / 0x400 = high.toNat := by
    unfold pairScalar; omega
  have hrem : 0xDC00 + (pairScalar high low - 0x10000) % 0x400 = low.toNat := by
    unfold pairScalar; omega
  rw [scalarUnits, if_neg hge, hquot, hrem, UInt16.ofNat_toNat, UInt16.ofNat_toNat]

theorem scalarUnits_toNat (unit : UInt16) : scalarUnits unit.toNat = [unit] := by
  have hlt : unit.toNat < 0x10000 := unit.toNat_lt
  rw [scalarUnits, if_pos hlt, UInt16.ofNat_toNat]

theorem scalarUnits_replacement : scalarUnits 0xFFFD = [replacementUnit] := by decide

/-- Writing the scalar values back gives the repaired string. -/
theorem flatMap_scalarUnits_scalars : (scalars text).flatMap scalarUnits = toWellFormed text := by
  fun_induction scalars text with
  | case1 => rfl
  | case2 unit =>
    by_cases h : (isHighSurrogate unit || isLowSurrogate unit)
    · rw [toWellFormed, if_pos h, if_pos h]
      simp [scalarUnits_replacement]
    · rw [toWellFormed, if_neg h, if_neg h]
      simp [scalarUnits_toNat]
  | case3 unit next rest hh hl ih =>
    simp [toWellFormed, hh, hl, ih, scalarUnits_pairScalar hh hl]
  | case4 unit next rest hh hl ih | case5 unit next rest hh hl ih =>
    simp [toWellFormed, hh, hl, ih, scalarUnits_replacement]
  | case6 unit next rest hh hl ih => simp [toWellFormed, hh, hl, ih, scalarUnits_toNat]

/-- A Unicode scalar value: a code point outside the surrogate range. -/
def IsScalar (scalar : ℕ) : Prop := scalar < 0x110000 ∧ ¬ (0xD800 ≤ scalar ∧ scalar ≤ 0xDFFF)

theorem isScalar_toNat (hhigh : isHighSurrogate unit = false)
    (hlow : isLowSurrogate unit = false) : IsScalar unit.toNat := by
  have hlt : unit.toNat < 0x10000 := unit.toNat_lt
  simp only [isHighSurrogate, isLowSurrogate, Bool.and_eq_false_iff,
    decide_eq_false_iff_not] at hhigh hlow
  unfold IsScalar
  omega

theorem isScalar_pairScalar {high low : UInt16} (hhigh : isHighSurrogate high)
    (hlow : isLowSurrogate low) : IsScalar (pairScalar high low) := by
  simp only [isHighSurrogate, isLowSurrogate, Bool.and_eq_true, decide_eq_true_eq] at hhigh hlow
  unfold IsScalar pairScalar
  omega

theorem isScalar_of_mem_scalars : ∀ scalar ∈ scalars text, IsScalar scalar := by
  have hrepl : IsScalar 0xFFFD := by unfold IsScalar; omega
  fun_induction scalars text with
  | case1 => simp
  | case2 unit =>
    by_cases h : (isHighSurrogate unit || isLowSurrogate unit)
    · simp [h, hrepl]
    · simp only [Bool.not_eq_true, Bool.or_eq_false_iff] at h
      simp [h, isScalar_toNat h.1 h.2]
  | case3 unit next rest hh hl ih => simpa [isScalar_pairScalar hh hl] using ih
  | case4 unit next rest hh hl ih | case5 unit next rest hh hl ih => simpa [hrepl] using ih
  | case6 unit next rest hh hl ih =>
    simp only [Bool.not_eq_true] at hh hl
    simpa [isScalar_toNat hh hl] using ih

theorem scalars_cons (hhigh : isHighSurrogate unit = false)
    (hlow : isLowSurrogate unit = false) (rest : JsString) :
    scalars (unit :: rest) = unit.toNat :: scalars rest := by
  cases rest with
  | nil | cons => simp [scalars, hhigh, hlow]

/-- Repairing a string does not change the scalar values it is read as. -/
theorem scalars_toWellFormed : scalars (toWellFormed text) = scalars text := by
  have hrepl (rest) : scalars (replacementUnit :: rest) = 0xFFFD :: scalars rest :=
    scalars_cons (by decide) (by decide) rest
  fun_induction toWellFormed text with
  | case1 => rfl
  | case2 unit =>
    by_cases h : (isHighSurrogate unit || isLowSurrogate unit)
    · rw [if_pos h, hrepl, scalars, scalars, if_pos h]
    · simp [h]
  | case3 unit next rest hh hl ih => simp [scalars, hh, hl, ih]
  | case4 unit next rest hh hl ih | case5 unit next rest hh hl ih =>
    simp [scalars, hh, hl, ih, hrepl]
  | case6 unit next rest hh hl ih =>
    simp only [Bool.not_eq_true] at hh hl
    rw [scalars_cons hh hl, scalars_cons hh hl, ih]

/-- A repair leaves a U+FFFD behind, so a repaired string without one was well formed. -/
theorem toWellFormed_eq_self_of_notMem {text : JsString} (h : replacementUnit ∉ toWellFormed text) :
    toWellFormed text = text := by
  fun_induction toWellFormed text with
  | case1 => rfl
  | case2 unit =>
    by_cases hs : (isHighSurrogate unit || isLowSurrogate unit)
    · simp [hs] at h
    · simp [hs]
  | case3 unit next rest hh hl ih => rw [ih fun hmem ↦ h (by simp [hmem])]
  | case4 => simp at h
  | case5 => simp at h
  | case6 unit next rest hh hl ih => rw [ih fun hmem ↦ h (by simp [hmem])]

theorem isLowSurrogate_head_of_isWellFormed {rest : JsString}
    (h : isWellFormed (unit :: rest)) : isLowSurrogate unit = false := by
  cases rest with
  | nil => simp_all [isWellFormed]
  | cons =>
    by_cases hh : isHighSurrogate unit
    · exact isLowSurrogate_of_isHighSurrogate hh
    · simp_all [isWellFormed]

/-- The string with an unpaired high surrogate in place of every U+FFFD. -/
def unrepair : JsString :=
  text.map fun unit ↦ if unit = replacementUnit then 0xD800 else unit

theorem toWellFormed_unrepair {text : JsString} (h : isWellFormed text) :
    toWellFormed (unrepair text) = text := by
  have hunpaired : isHighSurrogate 0xD800 := by decide
  fun_induction isWellFormed text with
  | case1 => rfl
  | case2 unit =>
    by_cases hu : unit = replacementUnit
    · subst hu
      decide
    · simp_all [unrepair, toWellFormed]
  | case3 unit next rest hh ih =>
    simp only [Bool.and_eq_true] at h
    have ih := ih h.2
    simp only [unrepair] at ih
    simp [unrepair, toWellFormed, ne_replacementUnit_of_surrogate (.inl hh),
      ne_replacementUnit_of_surrogate (.inr h.1), hh, h.1, ih]
  | case4 unit next rest hh ih =>
    simp only [Bool.and_eq_true, Bool.not_eq_eq_eq_not, Bool.not_true] at h
    have ih := ih h.2
    have hnext : isLowSurrogate (if next = replacementUnit then 0xD800 else next) = false := by
      split_ifs with hn
      · decide
      · exact isLowSurrogate_head_of_isWellFormed h.2
    simp only [unrepair, List.map_cons] at ih ⊢
    by_cases hu : unit = replacementUnit
    · simp [hu, toWellFormed, hunpaired, hnext, ih]
    · simp [hu, toWellFormed, hh, h.1, ih]

end GajaeCode.Text
