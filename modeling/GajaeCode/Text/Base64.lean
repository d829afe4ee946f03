import GajaeCode.Text.Utf8

/-!
# Base64 buffers

`buffer.toString("base64")` writes three bytes as four letters and pads the last group.
`Buffer.from(text, "base64")` never fails: it takes both alphabets, skips what is in neither and
stops at the padding. Decoding is left inverse to encoding; a text survives the other round trip
exactly when it is the encoding of some buffer.
-/

namespace GajaeCode.Text

open List

/-- The letter of a six-bit value. -/
def sextetUnit (sextet : ℕ) : UInt16 :=
  UInt16.ofNat
    (if sextet < 26 then 0x41 + sextet
    else if sextet < 52 then 0x61 + (sextet - 26)
    else if sextet < 62 then 0x30 + (sextet - 52)
    else if sextet = 62 then 0x2B
    else 0x2F)

/-- The value of a letter of the standard or of the URL-safe alphabet. -/
def unitSextet (unit : UInt16) : Option ℕ :=
  let code := unit.toNat
  if 0x41 ≤ code ∧ code ≤ 0x5A then some (code - 0x41)
  else if 0x61 ≤ code ∧ code ≤ 0x7A then some (code - 0x61 + 26)
  else if 0x30 ≤ code ∧ code ≤ 0x39 then some (code - 0x30 + 52)
  else if code = 0x2B ∨ code = 0x2D then some 62
  else if code = 0x2F ∨ code = 0x5F then some 63
  else none

def paddingUnit : UInt16 := 0x3D

/-- The six-bit values of a buffer. -/
def sextets : Bytes → List ℕ
  | [] => []
  | [first] => [first.toNat / 4, first.toNat % 4 * 16]
  | [first, second] =>
      [first.toNat / 4, first.toNat % 4 * 16 + second.toNat / 16, second.toNat % 16 * 4]
  | first :: second :: third :: rest =>
      first.toNat / 4 :: (first.toNat % 4 * 16 + second.toNat / 16) ::
        (second.toNat % 16 * 4 + third.toNat / 64) :: third.toNat % 64 :: sextets rest

/-- How many padding letters complete the last group. -/
def paddingCount (bytes : Bytes) : ℕ := (3 - bytes.length % 3) % 3

/-- `buffer.toString("base64")`. -/
def base64Encode (bytes : Bytes) : JsString :=
  (sextets bytes).map sextetUnit ++ List.replicate (paddingCount bytes) paddingUnit

/-- Whole bytes of a list of six-bit values; bits that do not fill a byte are dropped. -/
def packSextets : List ℕ → Bytes
  | first :: second :: third :: fourth :: rest =>
      UInt8.ofNat (first * 4 + second / 16) :: UInt8.ofNat (second % 16 * 16 + third / 4) ::
        UInt8.ofNat (third % 4 * 64 + fourth) :: packSextets rest
  | [first, second, third] =>
      [UInt8.ofNat (first * 4 + second / 16), UInt8.ofNat (second % 16 * 16 + third / 4)]
  | [first, second] => [UInt8.ofNat (first * 4 + second / 16)]
  | _ => []

/-- `Buffer.from(text, "base64")`. -/
def base64Decode (text : JsString) : Bytes :=
  packSextets ((text.takeWhile fun unit ↦ unit ≠ paddingUnit).filterMap unitSextet)

theorem unitSextet_sextetUnit {sextet : ℕ} (h : sextet < 64) :
    unitSextet (sextetUnit sextet) = some sextet := by
  revert h
  revert sextet
  decide

theorem sextetUnit_ne_paddingUnit {sextet : ℕ} (h : sextet < 64) :
    sextetUnit sextet ≠ paddingUnit := by
  revert h
  revert sextet
  decide

theorem lt_of_mem_sextets (bytes : Bytes) : ∀ sextet ∈ sextets bytes, sextet < 64 := by
  fun_induction sextets bytes with
  | case1 => simp
  | case2 first =>
    have := first.toNat_lt
    simp only [mem_cons, not_mem_nil, or_false, forall_eq_or_imp, forall_eq]
    omega
  | case3 first second =>
    have := first.toNat_lt
    have := second.toNat_lt
    simp only [mem_cons, not_mem_nil, or_false, forall_eq_or_imp, forall_eq]
    omega
  | case4 first second third rest ih =>
    have := first.toNat_lt
    have := second.toNat_lt
    have := third.toNat_lt
    simp only [mem_cons, forall_eq_or_imp]
    exact ⟨by omega, by omega, by omega, by omega, ih⟩

theorem packSextets_sextets (bytes : Bytes) : packSextets (sextets bytes) = bytes := by
  have hbyte {byte} {value} (h : value = byte.toNat) : UInt8.ofNat value = byte := by
    rw [h, UInt8.ofNat_toNat]
  fun_induction sextets bytes with
  | case1 => rfl
  | case2 =>
    simp only [packSextets, cons.injEq, and_true]
    exact hbyte (by omega)
  | case3 first second =>
    have := second.toNat_lt
    simp only [packSextets, cons.injEq, and_true]
    exact ⟨hbyte (by omega), hbyte (by omega)⟩
  | case4 first second third rest ih =>
    have := second.toNat_lt
    have := third.toNat_lt
    simp only [packSextets, cons.injEq]
    exact ⟨hbyte (by omega), hbyte (by omega), hbyte (by omega), ih⟩

/-- Decoding what was encoded gives the buffer back. -/
theorem base64Decode_base64Encode (bytes : Bytes) : base64Decode (base64Encode bytes) = bytes := by
  have hletters : ((sextets bytes).map sextetUnit ++
      replicate (paddingCount bytes) paddingUnit).takeWhile (fun unit ↦ unit ≠ paddingUnit) =
        (sextets bytes).map sextetUnit := by
    rw [takeWhile_append_of_pos]
    · cases paddingCount bytes <;> simp [replicate_succ]
    · intro unit hunit
      obtain ⟨sextet, hsextet, rfl⟩ := mem_map.mp hunit
      simpa using sextetUnit_ne_paddingUnit (lt_of_mem_sextets bytes sextet hsextet)
  have hvalues : ((sextets bytes).map sextetUnit).filterMap unitSextet = sextets bytes := by
    rw [filterMap_map]
    have hsome : ∀ sextet ∈ sextets bytes, (unitSextet ∘ sextetUnit) sextet = some sextet :=
      fun sextet hsextet ↦ unitSextet_sextetUnit (lt_of_mem_sextets bytes sextet hsextet)
    rw [filterMap_congr hsome, filterMap_some]
  rw [base64Decode, base64Encode, hletters, hvalues, packSextets_sextets]

/-- The text is the encoding of a buffer. -/
def IsBase64 (text : JsString) : Prop := ∃ bytes, base64Encode bytes = text

/-- Encoding what was decoded gives exactly the encodings back. -/
theorem base64Encode_base64Decode_eq_self_iff (text : JsString) :
    base64Encode (base64Decode text) = text ↔ IsBase64 text := by
  constructor
  · intro h
    exact ⟨base64Decode text, h⟩
  · intro h
    obtain ⟨bytes, hbytes⟩ := h
    rw [← hbytes, base64Decode_base64Encode]

end GajaeCode.Text
