import Mathlib.Data.Nat.Digits.Lemmas
import GajaeCode.Text.Utf16

/-!
# Decimal text of integers

`String(n)` for an integer, and the value of a run of decimal digits. Reading is left inverse
to writing, also behind leading or in front of trailing zeros, which is the form in which
longer number formats use it.
-/

namespace GajaeCode.Text

open List Function

def digitUnit (digit : ℕ) : UInt16 := UInt16.ofNat (0x30 + digit)

def isDigit (unit : UInt16) : Bool := 0x30 ≤ unit.toNat && unit.toNat ≤ 0x39

def minusUnit : UInt16 := 0x2D

/-- Decimal digits of `n`, most significant first; `0` is written as one digit. -/
def natText (n : ℕ) : JsString :=
  if n = 0 then [digitUnit 0] else (Nat.digits 10 n).reverse.map digitUnit

/-- `String(n)` for an integer `n`. -/
def intText (n : ℤ) : JsString := if n < 0 then minusUnit :: natText n.natAbs else natText n.natAbs

/-- The number denoted by a run of decimal digits. -/
def readNat (text : JsString) : ℕ := text.foldl (fun value unit ↦ value * 10 + (unit.toNat - 0x30)) 0

theorem toNat_digitUnit {digit : ℕ} (h : digit < 10) : (digitUnit digit).toNat = 0x30 + digit := by
  rw [digitUnit, UInt16.toNat_ofNat_of_lt' (by simp [UInt16.size]; omega)]

theorem isDigit_digitUnit {digit : ℕ} (h : digit < 10) : isDigit (digitUnit digit) := by
  simp only [isDigit, toNat_digitUnit h, Bool.and_eq_true, decide_eq_true_eq]
  omega

theorem foldl_readNat (text : JsString) (start : ℕ) :
    text.foldl (fun value unit ↦ value * 10 + (unit.toNat - 0x30)) start =
      start * 10 ^ text.length + readNat text := by
  induction text generalizing start with
  | nil => simp [readNat]
  | cons unit rest ih =>
    rw [readNat, foldl_cons, foldl_cons, ih, ih (0 * 10 + _), length_cons, pow_succ]
    ring

theorem readNat_append (front back : JsString) :
    readNat (front ++ back) = readNat front * 10 ^ back.length + readNat back := by
  rw [readNat, foldl_append, foldl_readNat]
  rfl

theorem readNat_map_digitUnit (digits : List ℕ) (h : ∀ digit ∈ digits, digit < 10) :
    readNat (digits.reverse.map digitUnit) = Nat.ofDigits 10 digits := by
  induction digits with
  | nil => rfl
  | cons digit rest ih =>
    have hrest : ∀ digit ∈ rest, digit < 10 := fun d hd ↦ h d (mem_cons_of_mem _ hd)
    rw [reverse_cons, map_append, readNat_append, ih hrest, Nat.ofDigits_cons]
    simp only [map_cons, map_nil, length_singleton, pow_one, readNat,
      foldl_cons, foldl_nil, toNat_digitUnit (h digit (mem_cons_self ..))]
    omega

theorem readNat_natText (n : ℕ) : readNat (natText n) = n := by
  unfold natText
  split_ifs with h
  · subst h
    decide
  · rw [readNat_map_digitUnit _ fun digit hd ↦ Nat.digits_lt_base (by norm_num) hd,
      Nat.ofDigits_digits]

theorem natText_injective : Injective natText :=
  LeftInverse.injective readNat_natText

theorem isDigit_of_mem_natText {n : ℕ} {unit : UInt16} (h : unit ∈ natText n) : isDigit unit := by
  unfold natText at h
  split_ifs at h
  · rw [mem_singleton.mp h]
    decide
  · obtain ⟨digit, hdigit, rfl⟩ := mem_map.mp h
    exact isDigit_digitUnit (Nat.digits_lt_base (by norm_num) (mem_reverse.mp hdigit))

theorem natText_ne_nil (n : ℕ) : natText n ≠ [] := by
  unfold natText
  split_ifs with h
  · simp
  · simpa [Nat.digits_eq_nil_iff_eq_zero] using h

theorem minusUnit_notMem_natText (n : ℕ) : minusUnit ∉ natText n := by
  intro h
  exact absurd (isDigit_of_mem_natText h) (by decide)

/-- Two integers with one decimal text are equal. -/
theorem intText_injective : Injective intText := by
  intro m n h
  unfold intText at h
  split_ifs at h with hm hn hn
  · have := natText_injective (cons.inj h).2
    omega
  · exact absurd (h ▸ mem_cons_self ..) (minusUnit_notMem_natText n.natAbs)
  · exact absurd (h ▸ mem_cons_self ..) (minusUnit_notMem_natText m.natAbs)
  · have := natText_injective h
    omega

end GajaeCode.Text
