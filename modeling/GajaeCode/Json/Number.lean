import GajaeCode.Text.Decimal

/-!
# Numbers and their text

A finite number is kept as the shortest decimal that denotes it: a mantissa that does not end in
zero, and a power of ten. `numberText` is the text `JSON.stringify` writes for it, which switches
between plain, fractional and exponent notation, and `parseNumber` reads every number literal of
the JSON grammar. Zero has no sign here, as `===` does not distinguish the two.
-/

namespace GajaeCode.Json

open Text List Option

variable {rest tail : JsString} {exponent : ℤ}

structure Decimal where
  negative : Bool
  mantissa : ℕ
  exponent : ℤ
  canonical : mantissa % 10 ≠ 0 ∨ (negative = false ∧ mantissa = 0 ∧ exponent = 0)
  deriving DecidableEq

namespace Decimal

def zero : Decimal := ⟨false, 0, 0, .inr ⟨rfl, rfl, rfl⟩⟩

/-- Moves trailing zeros of the mantissa into the exponent. -/
def stripZeros : ℕ → ℕ → ℤ → ℕ × ℤ
  | 0, mantissa, exponent => (mantissa, exponent)
  | fuel + 1, mantissa, exponent =>
      if mantissa % 10 = 0 then stripZeros fuel (mantissa / 10) (exponent + 1)
      else (mantissa, exponent)

theorem stripZeros_mod (fuel mantissa : ℕ) (exponent : ℤ) (hpos : mantissa ≠ 0)
    (hfuel : mantissa < 10 ^ fuel) : (stripZeros fuel mantissa exponent).1 % 10 ≠ 0 := by
  induction fuel generalizing mantissa exponent with
  | zero =>
    omega
  | succ fuel ih =>
    rw [stripZeros]
    split_ifs with h
    · exact ih (mantissa / 10) (exponent + 1) (by omega) (by omega)
    · exact h

/-- Enough fuel to strip every zero. -/
def digitCount (mantissa : ℕ) : ℕ := (Nat.digits 10 mantissa).length

theorem lt_pow_digitCount (mantissa : ℕ) : mantissa < 10 ^ digitCount mantissa :=
  Nat.lt_base_pow_length_digits (by norm_num)

/-- The number `± mantissa * 10 ^ exponent`. -/
def ofParts (negative : Bool) (mantissa : ℕ) (exponent : ℤ) : Decimal :=
  if h : mantissa = 0 then zero
  else
    { negative
      mantissa := (stripZeros (digitCount mantissa) mantissa exponent).1
      exponent := (stripZeros (digitCount mantissa) mantissa exponent).2
      canonical := .inl (stripZeros_mod _ mantissa exponent h (lt_pow_digitCount mantissa)) }

def ofNat (n : ℕ) : Decimal := ofParts false n 0

theorem stripZeros_mul_pow {fuel mantissa zeros : ℕ} (exponent : ℤ) (h : mantissa % 10 ≠ 0)
    (hfuel : zeros ≤ fuel) :
    stripZeros fuel (mantissa * 10 ^ zeros) exponent = (mantissa, exponent + zeros) := by
  induction zeros generalizing fuel exponent with
  | zero =>
    cases fuel with
    | zero => simp [stripZeros]
    | succ => simp [stripZeros, h]
  | succ zeros ih =>
    cases fuel with
    | zero => omega
    | succ =>
      have hdvd : mantissa * 10 ^ (zeros + 1) = mantissa * 10 ^ zeros * 10 := by ring
      rw [stripZeros, hdvd, if_pos (Nat.mul_mod_left _ _), Nat.mul_div_cancel _ (by norm_num),
        ih (exponent + 1) (by omega)]
      push_cast
      ring_nf

/-- A mantissa with zeros behind it denotes the same decimal. -/
theorem ofParts_mul_pow (decimal : Decimal) (zeros : ℕ) (h : decimal.mantissa ≠ 0) :
    ofParts decimal.negative (decimal.mantissa * 10 ^ zeros) (decimal.exponent - zeros) =
      decimal := by
  obtain ⟨negative, mantissa, exponent, canonical⟩ := decimal
  have hpos : mantissa ≠ 0 := h
  have hmod : mantissa % 10 ≠ 0 := by
    rcases canonical with hmod | ⟨-, hzero, -⟩
    · exact hmod
    · exact absurd hzero hpos
  have hpow : zeros ≤ digitCount (mantissa * 10 ^ zeros) := by
    have hlt := lt_pow_digitCount (mantissa * 10 ^ zeros)
    have hle : 10 ^ zeros ≤ mantissa * 10 ^ zeros := Nat.le_mul_of_pos_left _ (by omega)
    exact ((Nat.pow_lt_pow_iff_right (by norm_num)).mp (lt_of_le_of_lt hle hlt)).le
  have hne : mantissa * 10 ^ zeros ≠ 0 := by positivity
  simp only [ofParts, dif_neg hne, stripZeros_mul_pow (exponent - zeros) hmod hpow, sub_add_cancel]

theorem ofParts_self (decimal : Decimal) (h : decimal.mantissa ≠ 0) :
    ofParts decimal.negative decimal.mantissa decimal.exponent = decimal := by
  simpa using decimal.ofParts_mul_pow 0 h

end Decimal

def pointUnit : UInt16 := 0x2E

def plusUnit : UInt16 := 0x2B

def exponentUnit : UInt16 := 0x65

def zeroUnits (count : ℕ) : JsString := List.replicate count (digitUnit 0)

/-- A fraction behind its point; an empty one is not written. -/
def fractionText (fraction : JsString) : JsString :=
  if fraction = [] then [] else pointUnit :: fraction

/-- An exponent with its sign. -/
def exponentText (exponent : ℤ) : JsString :=
  exponentUnit :: (if exponent < 0 then minusUnit else plusUnit) :: natText exponent.natAbs

/-- Text of a positive decimal, in the notation chosen by the position of its decimal point. -/
def magnitudeText (mantissa : ℕ) (exponent : ℤ) : JsString :=
  let digits := natText mantissa
  let point : ℤ := digits.length + exponent
  if 0 ≤ exponent ∧ point ≤ 21 then digits ++ zeroUnits exponent.toNat
  else if 0 < point ∧ point ≤ 21 then
    digits.take point.toNat ++ fractionText (digits.drop point.toNat)
  else if -6 < point ∧ point ≤ 0 then
    [digitUnit 0] ++ fractionText (zeroUnits (-point).toNat ++ digits)
  else
    digits.take 1 ++ fractionText (digits.drop 1) ++ exponentText (point - 1)

/-- `JSON.stringify` of a number. -/
def numberText (decimal : Decimal) : JsString :=
  if decimal.mantissa = 0 then [digitUnit 0]
  else (if decimal.negative then [minusUnit] else []) ++
    magnitudeText decimal.mantissa decimal.exponent

/-- A nonempty run of digits and what follows it. -/
def takeDigits (text : JsString) : Option (JsString × JsString) :=
  if text.takeWhile isDigit = [] then none
  else some (text.takeWhile isDigit, text.dropWhile isDigit)

/-- The part behind a decimal point; no point is an empty fraction. -/
def parseFraction : JsString → Option (JsString × JsString)
  | unit :: rest => if unit = pointUnit then takeDigits rest else some ([], unit :: rest)
  | [] => some ([], [])

/-- The part behind `e` or `E`; without one the exponent is zero. -/
def parseExponent : JsString → Option (ℤ × JsString)
  | unit :: rest =>
      if unit = exponentUnit ∨ unit = 0x45 then
        match rest with
        | sign :: digits =>
            if sign = minusUnit then
              (takeDigits digits).map fun run ↦ (-(readNat run.1 : ℤ), run.2)
            else if sign = plusUnit then
              (takeDigits digits).map fun run ↦ ((readNat run.1 : ℤ), run.2)
            else (takeDigits (sign :: digits)).map fun run ↦ ((readNat run.1 : ℤ), run.2)
        | [] => none
      else some (0, unit :: rest)
  | [] => some (0, [])

/-- An unsigned number literal; a leading zero stands alone in front of the point. -/
def parseMagnitude (negative : Bool) (text : JsString) : Option (Decimal × JsString) :=
  (takeDigits text).bind fun whole ↦
    if whole.1.head? = some (digitUnit 0) ∧ whole.1.length ≠ 1 then none
    else (parseFraction whole.2).bind fun fraction ↦
      (parseExponent fraction.2).map fun exponent ↦
        (.ofParts negative (readNat (whole.1 ++ fraction.1)) (exponent.1 - fraction.1.length),
          exponent.2)

def parseNumber : JsString → Option (Decimal × JsString)
  | unit :: rest =>
      if unit = minusUnit then parseMagnitude true rest else parseMagnitude false (unit :: rest)
  | [] => none

/-! ## Reading back what was written -/

/-- Nothing at the head of the text could continue a number. -/
def NumberEnd (rest : JsString) : Prop :=
  ∀ unit ∈ rest.head?, isDigit unit = false ∧ unit ≠ pointUnit ∧ unit ≠ exponentUnit ∧ unit ≠ 0x45

/-- A digit does not follow. -/
def DigitsEnd (rest : JsString) : Prop := ∀ unit ∈ rest.head?, isDigit unit = false

theorem NumberEnd.digitsEnd (h : NumberEnd rest) : DigitsEnd rest :=
  fun unit hunit ↦ (h unit hunit).1

/-- Neither a digit nor a point follows. -/
def FractionEnd (rest : JsString) : Prop :=
  ∀ unit ∈ rest.head?, isDigit unit = false ∧ unit ≠ pointUnit

theorem FractionEnd.digitsEnd (h : FractionEnd rest) : DigitsEnd rest :=
  fun unit hunit ↦ (h unit hunit).1

theorem NumberEnd.fractionEnd (h : NumberEnd rest) : FractionEnd rest :=
  fun unit hunit ↦ ⟨(h unit hunit).1, (h unit hunit).2.1⟩

theorem takeDigits_append {digits : JsString} (hne : digits ≠ [])
    (hdigits : ∀ unit ∈ digits, isDigit unit) (hrest : DigitsEnd rest) :
    takeDigits (digits ++ rest) = some (digits, rest) := by
  have hstop : rest.takeWhile isDigit = [] ∧ rest.dropWhile isDigit = rest := by
    cases rest with
    | nil => simp
    | cons unit => simp [hrest unit rfl]
  rw [takeDigits, takeWhile_append_of_pos hdigits, dropWhile_append_of_pos hdigits,
    hstop.1, hstop.2, append_nil, if_neg hne]

theorem parseFraction_fractionText {fraction : JsString}
    (hdigits : ∀ unit ∈ fraction, isDigit unit) (htail : FractionEnd tail) :
    parseFraction (fractionText fraction ++ tail) = some (fraction, tail) := by
  unfold fractionText
  split_ifs with hempty
  · subst hempty
    cases tail with
    | nil => rfl
    | cons unit => simp [parseFraction, (htail unit rfl).2]
  · simp [parseFraction, takeDigits_append hempty hdigits htail.digitsEnd]

theorem parseExponent_of_numberEnd (h : NumberEnd rest) : parseExponent rest = some (0, rest) := by
  cases rest with
  | nil => rfl
  | cons unit => simp [parseExponent, (h unit rfl).2.2.1, (h unit rfl).2.2.2]

theorem parseExponent_exponentText (exponent : ℤ) (h : DigitsEnd rest) :
    parseExponent (exponentText exponent ++ rest) = some (exponent, rest) := by
  have hdigits := takeDigits_append (natText_ne_nil exponent.natAbs)
    (fun unit hunit ↦ isDigit_of_mem_natText hunit) h
  have hplus : plusUnit ≠ minusUnit := by decide
  by_cases hsign : exponent < 0
  · simp only [exponentText, cons_append, parseExponent, hsign, if_true, true_or, hdigits,
      map_some, readNat_natText, some.injEq, Prod.mk.injEq, and_true]
    omega
  · simp only [exponentText, cons_append, parseExponent, hsign, if_true, if_false, true_or,
      hdigits, map_some, readNat_natText, hplus, some.injEq, Prod.mk.injEq, and_true]
    omega

theorem natText_head?_ne {n : ℕ} (h : n ≠ 0) : (natText n).head? ≠ some (digitUnit 0) := by
  rw [natText, if_neg h, head?_map, head?_reverse,
    getLast?_eq_some_getLast (Nat.digits_ne_nil_iff_ne_zero.mpr h), map_some]
  intro hsome
  have hdigit := Nat.digits_lt_base (b := 10) (m := n) (by norm_num)
    (getLast_mem (Nat.digits_ne_nil_iff_ne_zero.mpr h))
  have hzero := congrArg UInt16.toNat (some.inj hsome)
  rw [toNat_digitUnit hdigit, toNat_digitUnit (by norm_num)] at hzero
  exact Nat.getLast_digit_ne_zero 10 h (by omega)

theorem isDigit_of_mem_zeroUnits {count : ℕ} {unit : UInt16} (h : unit ∈ zeroUnits count) :
    isDigit unit := by
  rw [eq_of_mem_replicate h]
  decide

theorem readNat_zeroUnits (count : ℕ) : readNat (zeroUnits count) = 0 := by
  induction count with
  | zero => rfl
  | succ count ih =>
    rw [zeroUnits, replicate_succ', readNat_append]
    change readNat (zeroUnits count) * 10 ^ 1 + readNat [digitUnit 0] = 0
    rw [ih]
    decide

/-- A literal with digits in front of and behind the point, and possibly an exponent. -/
theorem parseMagnitude_cutLiteral (negative : Bool) (whole fraction : JsString)
    (hwhole : whole ≠ []) (hwholeDigits : ∀ unit ∈ whole, isDigit unit)
    (hlead : ¬ (whole.head? = some (digitUnit 0) ∧ whole.length ≠ 1))
    (hdigits : ∀ unit ∈ fraction, isDigit unit) (htail : FractionEnd tail)
    (hexp : parseExponent tail = some (exponent, rest)) :
    parseMagnitude negative (whole ++ (fractionText fraction ++ tail)) = some
      (.ofParts negative (readNat (whole ++ fraction)) (exponent - fraction.length), rest) := by
  have hend : DigitsEnd (fractionText fraction ++ tail) := by
    unfold fractionText
    split_ifs with hempty
    · exact htail.digitsEnd
    · intro unit hunit
      cases hunit
      decide
  rw [parseMagnitude, takeDigits_append hwhole hwholeDigits hend, bind_some, if_neg hlead,
    parseFraction_fractionText hdigits htail, bind_some, hexp, map_some]

theorem zeroUnits_length (count : ℕ) : (zeroUnits count).length = count := length_replicate

section

variable (decimal : Decimal) (hne : decimal.mantissa ≠ 0) {rest : JsString} (hrest : NumberEnd rest)

include hne hrest

theorem parseMagnitude_plain (h : 0 ≤ decimal.exponent) : parseMagnitude decimal.negative
      (natText decimal.mantissa ++ zeroUnits decimal.exponent.toNat ++ rest) =
        some (decimal, rest) := by
  have hdigits : ∀ unit ∈ natText decimal.mantissa ++ zeroUnits decimal.exponent.toNat,
      isDigit unit :=
    forall_mem_append.mpr ⟨fun _ ↦ isDigit_of_mem_natText, fun _ ↦ isDigit_of_mem_zeroUnits⟩
  have hparse := parseMagnitude_cutLiteral decimal.negative
    (natText decimal.mantissa ++ zeroUnits decimal.exponent.toNat) [] (by simp [natText_ne_nil])
    hdigits (by simp [head?_append_of_ne_nil _ (natText_ne_nil _), natText_head?_ne hne])
    (by simp) hrest.fractionEnd (parseExponent_of_numberEnd hrest)
  have hexp : (0 : ℤ) - (([] : JsString).length : ℤ) =
      decimal.exponent - (decimal.exponent.toNat : ℤ) := by
    rw [length_nil]
    omega
  rw [append_nil, readNat_append, readNat_natText, readNat_zeroUnits, zeroUnits_length,
    add_zero, hexp, decimal.ofParts_mul_pow _ hne] at hparse
  simpa [fractionText] using hparse

omit hrest in
/-- The digits of the mantissa cut by a point, with an exponent that accounts for the cut. -/
theorem parseMagnitude_cut {count : ℕ} (hcount : 0 < count)
    (htail : FractionEnd tail) (hexp : parseExponent tail = some (exponent, rest))
    (hcut : exponent - ((natText decimal.mantissa).length - count : ℕ) = decimal.exponent) :
    parseMagnitude decimal.negative ((natText decimal.mantissa).take count ++
      (fractionText ((natText decimal.mantissa).drop count) ++ tail)) = some (decimal, rest) := by
  have hlead : ¬ (((natText decimal.mantissa).take count).head? = some (digitUnit 0) ∧
      ((natText decimal.mantissa).take count).length ≠ 1) := by
    rw [head?_take, if_neg (by omega)]
    exact fun h ↦ natText_head?_ne hne h.1
  have hnonempty : (natText decimal.mantissa).take count ≠ [] := by
    simp [natText_ne_nil]
    omega
  rw [parseMagnitude_cutLiteral decimal.negative _ _ hnonempty
    (fun unit hunit ↦ isDigit_of_mem_natText (mem_of_mem_take hunit)) hlead
    (fun unit hunit ↦ isDigit_of_mem_natText (mem_of_mem_drop hunit)) htail hexp,
    take_append_drop, readNat_natText, length_drop, hcut, decimal.ofParts_self hne]

theorem parseMagnitude_small {zeros : ℕ}
    (h : -((zeros + (natText decimal.mantissa).length : ℕ) : ℤ) = decimal.exponent) :
    parseMagnitude decimal.negative
      ([digitUnit 0] ++ (fractionText (zeroUnits zeros ++ natText decimal.mantissa) ++ rest)) =
        some (decimal, rest) := by
  have hdigits : ∀ unit ∈ zeroUnits zeros ++ natText decimal.mantissa, isDigit unit :=
    forall_mem_append.mpr ⟨fun _ ↦ isDigit_of_mem_zeroUnits, fun _ ↦ isDigit_of_mem_natText⟩
  have hvalue : readNat ([digitUnit 0] ++ (zeroUnits zeros ++ natText decimal.mantissa)) =
      decimal.mantissa := by
    rw [← append_assoc, readNat_append, readNat_natText]
    change readNat (zeroUnits (zeros + 1)) * _ + _ = _
    rw [readNat_zeroUnits, zero_mul, zero_add]
  rw [parseMagnitude_cutLiteral decimal.negative _ _ (by simp) (by simp [isDigit_digitUnit])
    (by simp) hdigits hrest.fractionEnd (parseExponent_of_numberEnd hrest), hvalue, length_append,
    zeroUnits_length, zero_sub, h, decimal.ofParts_self hne]

/-- Each of the four notations of a positive decimal is read back to it. -/
theorem parseMagnitude_magnitudeText :
    parseMagnitude decimal.negative (magnitudeText decimal.mantissa decimal.exponent ++ rest) =
      some (decimal, rest) := by
  have hlength : 0 < (natText decimal.mantissa).length :=
    length_pos_iff.mpr (natText_ne_nil decimal.mantissa)
  unfold magnitudeText
  dsimp only
  split_ifs with hplain hpoint hsmall
  · exact parseMagnitude_plain decimal hne hrest hplain.1
  · rw [append_assoc]
    apply parseMagnitude_cut decimal hne (by omega) hrest.fractionEnd (parseExponent_of_numberEnd hrest)
    omega
  · rw [append_assoc]
    apply parseMagnitude_small decimal hne hrest
    omega
  · rw [append_assoc, append_assoc]
    apply parseMagnitude_cut decimal hne one_pos _ (parseExponent_exponentText _ hrest.digitsEnd)
    · omega
    · intro unit hunit
      cases hunit
      decide

end

/-- An unsigned literal starts with a digit, so it is not taken for a signed one. -/
theorem parseNumber_eq_parseMagnitude {text : JsString} {result : Decimal × JsString}
    (h : parseMagnitude false text = some result) : parseNumber text = some result := by
  cases text with
  | nil => simp [parseMagnitude, takeDigits] at h
  | cons unit =>
    have hunit : unit ≠ minusUnit := by
      intro hminus
      subst hminus
      simp [parseMagnitude, takeDigits, show isDigit minusUnit = false by decide] at h
    rw [parseNumber, if_neg hunit, h]

/-- The text of a number is read back to it, whatever follows that cannot continue it. -/
theorem parseNumber_numberText (decimal : Decimal) (hrest : NumberEnd rest) :
    parseNumber (numberText decimal ++ rest) = some (decimal, rest) := by
  unfold numberText
  split_ifs with hzero hnegative
  · have hdecimal : decimal = .zero := by
      obtain ⟨negative, mantissa, exponent, canonical⟩ := decimal
      have hmantissa : mantissa = 0 := hzero
      subst hmantissa
      simpa [Decimal.zero] using canonical
    rw [hdecimal]
    apply parseNumber_eq_parseMagnitude
    have hparse := parseMagnitude_cutLiteral false [digitUnit 0] [] (by simp)
      (by simp [isDigit_digitUnit]) (by simp) (by simp) hrest.fractionEnd (parseExponent_of_numberEnd hrest)
    have hvalue : Decimal.ofParts false (readNat [digitUnit 0]) (0 - (([] : JsString).length : ℤ)) =
        .zero := by decide
    simpa only [fractionText, if_true, nil_append, append_nil, hvalue] using hparse
  · rw [append_assoc, singleton_append, parseNumber, if_pos rfl]
    have hparse := parseMagnitude_magnitudeText decimal hzero hrest
    rwa [hnegative] at hparse
  · apply parseNumber_eq_parseMagnitude
    have hparse := parseMagnitude_magnitudeText decimal hzero hrest
    rwa [Bool.eq_false_of_not_eq_true hnegative] at hparse

end GajaeCode.Json
