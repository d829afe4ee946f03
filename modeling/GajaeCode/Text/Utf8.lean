import GajaeCode.Text.Utf16

/-!
# UTF-8 buffers

`Buffer.from(text, "utf8")` writes the scalar values of a string, so an unpaired surrogate
is stored as U+FFFD. `buffer.toString("utf8")` is the WHATWG decoder: a byte that cannot
continue the current sequence ends it with U+FFFD and is read again as a first byte. Decoding
an encoded string therefore gives the repaired string, and gives the string itself exactly
when it was well formed.
-/

namespace GajaeCode.Text

open List

abbrev Bytes := List UInt8

/-- The bytes of one scalar value. -/
def scalarBytes (scalar : ℕ) : Bytes :=
  if scalar < 0x80 then [UInt8.ofNat scalar]
  else if scalar < 0x800 then
    [UInt8.ofNat (0xC0 + scalar / 0x40), UInt8.ofNat (0x80 + scalar % 0x40)]
  else if scalar < 0x10000 then
    [UInt8.ofNat (0xE0 + scalar / 0x1000), UInt8.ofNat (0x80 + scalar / 0x40 % 0x40),
      UInt8.ofNat (0x80 + scalar % 0x40)]
  else
    [UInt8.ofNat (0xF0 + scalar / 0x40000), UInt8.ofNat (0x80 + scalar / 0x1000 % 0x40),
      UInt8.ofNat (0x80 + scalar / 0x40 % 0x40), UInt8.ofNat (0x80 + scalar % 0x40)]

variable (text : JsString)

/-- `Buffer.from(text, "utf8")`. -/
def encodeUtf8 : Bytes := (scalars text).flatMap scalarBytes

/-- The decoder between two bytes: how many continuation bytes are missing, the value read so
far, and the range the next byte has to lie in. -/
structure Utf8State where
  needed : ℕ
  value : ℕ
  lower : ℕ
  upper : ℕ

/-- No sequence is open. -/
def Utf8State.initial : Utf8State := ⟨0, 0, 0x80, 0xBF⟩

/-- The first byte of a sequence; the narrowed ranges rule out overlong forms and surrogates. -/
def leadByte (byte : ℕ) : List ℕ × Utf8State :=
  if byte < 0x80 then ([byte], .initial)
  else if 0xC2 ≤ byte ∧ byte ≤ 0xDF then ([], ⟨1, byte - 0xC0, 0x80, 0xBF⟩)
  else if 0xE0 ≤ byte ∧ byte ≤ 0xEF then
    ([], ⟨2, byte - 0xE0, if byte = 0xE0 then 0xA0 else 0x80, if byte = 0xED then 0x9F else 0xBF⟩)
  else if 0xF0 ≤ byte ∧ byte ≤ 0xF4 then
    ([], ⟨3, byte - 0xF0, if byte = 0xF0 then 0x90 else 0x80, if byte = 0xF4 then 0x8F else 0xBF⟩)
  else ([0xFFFD], .initial)

/-- One byte: the scalar values it emits and the next state. -/
def feedByte (state : Utf8State) (byte : ℕ) : List ℕ × Utf8State :=
  if state.needed = 0 then leadByte byte
  else if state.lower ≤ byte ∧ byte ≤ state.upper then
    let value := state.value * 0x40 + (byte - 0x80)
    if state.needed = 1 then ([value], .initial)
    else ([], ⟨state.needed - 1, value, 0x80, 0xBF⟩)
  else (0xFFFD :: (leadByte byte).1, (leadByte byte).2)

/-- The WHATWG UTF-8 decoder, as the scalar values it emits. -/
def decodeScalars (state : Utf8State) : Bytes → List ℕ
  | [] => if state.needed = 0 then [] else [0xFFFD]
  | byte :: rest => (feedByte state byte.toNat).1 ++ decodeScalars (feedByte state byte.toNat).2 rest

/-- `buffer.toString("utf8")`. -/
def decodeUtf8 (bytes : Bytes) : JsString := (decodeScalars .initial bytes).flatMap scalarUnits

theorem toNat_ofNat_byte {value : ℕ} (h : value < 0x100) : (UInt8.ofNat value).toNat = value := by
  simpa using h

/-- A continuation byte in range either closes the sequence or is added to the value. -/
theorem feedByte_continuation {needed value lower upper byte : ℕ} (hlower : lower ≤ byte)
    (hupper : byte ≤ upper) :
    feedByte ⟨needed + 1, value, lower, upper⟩ byte =
      if needed = 0 then ([value * 0x40 + (byte - 0x80)], .initial)
      else ([], ⟨needed, value * 0x40 + (byte - 0x80), 0x80, 0xBF⟩) := by
  simp [feedByte, hlower, hupper]

/-- The decoder reads one encoded scalar value and continues behind it. -/
theorem decodeScalars_scalarBytes_append {scalar : ℕ} (h : IsScalar scalar) (rest : Bytes) :
    decodeScalars .initial (scalarBytes scalar ++ rest) =
      scalar :: decodeScalars .initial rest := by
  obtain ⟨hlt, hsurr⟩ := h
  have hinitial : ∀ byte, feedByte .initial byte = leadByte byte := fun _ ↦ rfl
  have htrail : ∀ value, (UInt8.ofNat (0x80 + value % 0x40)).toNat = 0x80 + value % 0x40 :=
    fun value ↦ toNat_ofNat_byte (by omega)
  unfold scalarBytes
  split_ifs with h1 h2 h3
  · simp [decodeScalars, hinitial, leadByte, toNat_ofNat_byte (show scalar < 0x100 by omega), h1]
  · have hlead : leadByte (0xC0 + scalar / 0x40) = ([], ⟨1, scalar / 0x40, 0x80, 0xBF⟩) := by
      rw [leadByte, if_neg (by omega), if_pos (by omega), Nat.add_sub_cancel_left]
    simp only [cons_append, nil_append, decodeScalars, hinitial, hlead, htrail,
      toNat_ofNat_byte (show 0xC0 + scalar / 0x40 < 0x100 by omega)]
    rw [feedByte_continuation (by omega) (by omega), if_pos rfl]
    simp only [cons_append, nil_append, cons.injEq, and_true]
    omega
  · have hlead : leadByte (0xE0 + scalar / 0x1000) = ([], ⟨2, scalar / 0x1000,
        if scalar / 0x1000 = 0 then 0xA0 else 0x80, if scalar / 0x1000 = 0xD then 0x9F else 0xBF⟩) := by
      rw [leadByte, if_neg (by omega), if_neg (by omega), if_pos (by omega), Nat.add_sub_cancel_left]
      congr 2 <;> grind
    simp only [cons_append, nil_append, decodeScalars, hinitial, hlead, htrail,
      toNat_ofNat_byte (show 0xE0 + scalar / 0x1000 < 0x100 by omega)]
    rw [feedByte_continuation (by split_ifs <;> omega) (by split_ifs <;> omega), if_neg (by omega)]
    rw [feedByte_continuation (by omega) (by omega), if_pos rfl]
    simp only [cons_append, nil_append, cons.injEq, and_true]
    omega
  · have hlead : leadByte (0xF0 + scalar / 0x40000) = ([], ⟨3, scalar / 0x40000,
        if scalar / 0x40000 = 0 then 0x90 else 0x80, if scalar / 0x40000 = 4 then 0x8F else 0xBF⟩) := by
      rw [leadByte, if_neg (by omega), if_neg (by omega), if_neg (by omega), if_pos (by omega),
        Nat.add_sub_cancel_left]
      congr 2 <;> grind
    simp only [cons_append, nil_append, decodeScalars, hinitial, hlead, htrail,
      toNat_ofNat_byte (show 0xF0 + scalar / 0x40000 < 0x100 by omega)]
    rw [feedByte_continuation (by split_ifs <;> omega) (by split_ifs <;> omega), if_neg (by omega)]
    rw [feedByte_continuation (by omega) (by omega), if_neg (by omega)]
    rw [feedByte_continuation (by omega) (by omega), if_pos rfl]
    simp only [cons_append, nil_append, cons.injEq, and_true]
    omega

theorem decodeScalars_flatMap_scalarBytes (values : List ℕ) (h : ∀ value ∈ values, IsScalar value) :
    decodeScalars .initial (values.flatMap scalarBytes) = values := by
  induction values with
  | nil => rfl
  | cons value rest ih =>
    have hrest : ∀ value ∈ rest, IsScalar value := fun value hv ↦ h value (mem_cons_of_mem _ hv)
    rw [flatMap_cons, decodeScalars_scalarBytes_append (h value (mem_cons_self ..)), ih hrest]

/-- Storing a string as UTF-8 and reading it back repairs its unpaired surrogates. -/
theorem decodeUtf8_encodeUtf8 : decodeUtf8 (encodeUtf8 text) = toWellFormed text := by
  rw [decodeUtf8, encodeUtf8, decodeScalars_flatMap_scalarBytes _ (isScalar_of_mem_scalars text),
    flatMap_scalarUnits_scalars]

/-- The UTF-8 round trip is exact on well-formed strings and on no others. -/
theorem decodeUtf8_encodeUtf8_eq_self_iff :
    decodeUtf8 (encodeUtf8 text) = text ↔ isWellFormed text := by
  rw [decodeUtf8_encodeUtf8, toWellFormed_eq_self_iff]

/-- Two strings have the same bytes exactly when they are repaired to the same string. -/
theorem encodeUtf8_eq_encodeUtf8_iff (left right : JsString) :
    encodeUtf8 left = encodeUtf8 right ↔ toWellFormed left = toWellFormed right := by
  constructor
  · intro h
    rw [← decodeUtf8_encodeUtf8, ← decodeUtf8_encodeUtf8, h]
  · intro h
    rw [encodeUtf8, encodeUtf8, ← scalars_toWellFormed left, h, scalars_toWellFormed]

/-- No other string has the same UTF-8 bytes. -/
def Utf8Faithful : Prop := isWellFormed text = true ∧ replacementUnit ∉ text

instance (text : JsString) : Decidable (Utf8Faithful text) := inferInstanceAs (Decidable (_ ∧ _))

/-- The bytes determine the string exactly when it is well formed and holds no U+FFFD. -/
theorem utf8Faithful_iff :
    Utf8Faithful text ↔ ∀ other, encodeUtf8 other = encodeUtf8 text → other = text := by
  simp only [encodeUtf8_eq_encodeUtf8_iff]
  constructor
  · rintro ⟨hwell, hmem⟩ other h
    rw [(toWellFormed_eq_self_iff text).mpr hwell] at h
    rw [← h]
    exact (toWellFormed_eq_self_of_notMem (h ▸ hmem)).symm
  · intro h
    have hself : toWellFormed text = text := by
      apply h
      rw [← encodeUtf8_eq_encodeUtf8_iff, encodeUtf8, encodeUtf8, scalars_toWellFormed]
    have hwell := (toWellFormed_eq_self_iff text).mp hself
    refine ⟨hwell, fun hmem ↦ ?_⟩
    -- the string with surrogates for its U+FFFD has the same bytes
    have hmap := h (unrepair text) (by rw [toWellFormed_unrepair hwell, hself])
    have hlost : replacementUnit ∉ unrepair text := by
      simp only [unrepair, mem_map, not_exists, not_and]
      intro unit _
      split_ifs with hu
      · decide
      · exact hu
    exact hlost (hmap.symm ▸ hmem)

theorem isWellFormed_of_ascii {text : JsString} (h : ∀ unit ∈ text, unit.toNat < 0x80) :
    isWellFormed text := by
  fun_induction isWellFormed text with
  | case1 => rfl
  | case2 unit =>
    have := h unit (by simp)
    simp [isHighSurrogate, isLowSurrogate]
    omega
  | case3 unit next rest hh =>
    have := h unit (by simp)
    simp [isHighSurrogate] at hh
    omega
  | case4 unit next rest hh ih =>
    have := h unit (by simp)
    simp only [ih fun unit hu ↦ h unit (mem_cons_of_mem _ hu), isLowSurrogate, Bool.and_true,
      Bool.not_eq_true', Bool.and_eq_false_iff, decide_eq_false_iff_not]
    omega

theorem utf8Faithful_of_ascii {text : JsString} (h : ∀ unit ∈ text, unit.toNat < 0x80) :
    Utf8Faithful text := by
  refine ⟨isWellFormed_of_ascii h, fun hmem ↦ ?_⟩
  exact absurd (h _ hmem) (by decide)

end GajaeCode.Text
