import GajaeCode.Text.Characters
import GajaeCode.Text.Decimal

/-!
# Hexadecimal digests

A SHA-256 digest is written as 64 lower-case hexadecimal letters. Readers check this form with
`/^[0-9a-f]{64}$/` before they trust a digest.
-/

namespace GajaeCode.Text

/-- `/^[0-9a-f]{64}$/` -/
def isHexDigest (text : JsString) : Bool :=
  text.length == 64 &&
    text.all fun unit ↦ isDigit unit || (0x61 ≤ unit.toNat && unit.toNat ≤ 0x66)

theorem isAscii_of_isHexDigest {text : JsString} (h : isHexDigest text) : IsAscii text := by
  intro unit hunit
  simp only [isHexDigest, Bool.and_eq_true, List.all_eq_true] at h
  have hletter := h.2 unit hunit
  simp only [isDigit, Bool.or_eq_true, Bool.and_eq_true, decide_eq_true_eq] at hletter
  omega

end GajaeCode.Text
