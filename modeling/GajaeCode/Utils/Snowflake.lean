import Mathlib.Data.Nat.Digits.Lemmas

/-!
# Snowflake identifiers

A snowflake is a text of 16 hexadecimal letters. It is read as a number of 64 bits, of which the
upper 42 are a time after the epoch and the lower 22 a sequence number.
-/

namespace GajaeCode.Utils

open List

/-! ## Hexadecimal text -/

def hexLetters : List Char := "0123456789abcdef".toList

/-- `Number.parseInt(text, 16)` of hexadecimal letters. -/
def parseHex (text : List Char) : ℕ := Nat.ofDigits 16 (text.reverse.map hexLetters.idxOf)

variable {text other : List Char}

theorem parseHex_append (front back : List Char) :
    parseHex (front ++ back) = parseHex back + 16 ^ back.length * parseHex front := by
  rw [parseHex, reverse_append, map_append, Nat.ofDigits_append, length_map, length_reverse]
  rfl

theorem parseHex_cons (letter : Char) (text : List Char) :
    parseHex (letter :: text) = parseHex text + 16 ^ text.length * hexLetters.idxOf letter := by
  rw [← singleton_append, parseHex_append]
  simp [parseHex]

theorem parseHex_lt (h : text ⊆ hexLetters) : parseHex text < 16 ^ text.length := by
  have hdigits : ∀ digit ∈ text.reverse.map hexLetters.idxOf, digit < 16 := by
    rw [forall_mem_map]
    exact fun letter hletter ↦ idxOf_lt_length_of_mem (h (mem_reverse.mp hletter))
  simpa [parseHex] using Nat.ofDigits_lt_base_pow_length (by decide) hdigits

/-- Texts of one length are ordered as the numbers they denote. -/
theorem lt_iff_parseHex_lt (h : text ⊆ hexLetters) (hother : other ⊆ hexLetters)
    (hlength : text.length = other.length) : text < other ↔ parseHex text < parseHex other := by
  have horder : hexLetters.all fun letter ↦ hexLetters.all fun first ↦
      (letter < first ↔ hexLetters.idxOf letter < hexLetters.idxOf first) ∧
        (letter = first ↔ hexLetters.idxOf letter = hexLetters.idxOf first) := by decide
  simp only [all_eq_true, decide_eq_true_eq] at horder
  induction text generalizing other with
  | nil => cases other <;> simp_all
  | cons letter text ih =>
    obtain - | ⟨first, other⟩ := other
    · simp at hlength
    · rw [cons_subset] at h hother
      rw [length_cons, length_cons, Nat.add_right_cancel_iff] at hlength
      have hih := ih h.2 hother.2 hlength
      have hrest := parseHex_lt h.2
      have hrest' := parseHex_lt hother.2
      obtain ⟨hlt, heq⟩ := horder letter h.1 first hother.1
      simp only [cons_lt_cons_iff, hih, hlt, heq, parseHex_cons, parseHex_cons, hlength]
      rw [hlength] at hrest
      rcases lt_trichotomy (hexLetters.idxOf letter) (hexLetters.idxOf first) with hless | hsame | hmore
      · simp only [hless, true_or, true_iff]
        nlinarith
      · simp [hsame]
      · simp only [hmore.not_gt, hmore.ne', false_and, or_self, false_iff]
        nlinarith

/-- `HEX4[i]`, the four letters of a number of 16 bits. -/
def hex4 (i : ℕ) : List Char := [i / 4096, i / 256 % 16, i / 16 % 16, i % 16].map Nat.digitChar

/-- The letters of the upper and of the lower half of a word. -/
def hexWord (word : BitVec 32) : List Char :=
  hex4 ((word >>> 16) &&& 0xFFFF#32).toNat ++ hex4 (word &&& 0xFFFF#32).toNat

theorem hex4_spec {i : ℕ} (h : i < 65536) : hex4 i ⊆ hexLetters ∧ parseHex (hex4 i) = i := by
  have hdigit : ∀ digit < 16, digit.digitChar ∈ hexLetters ∧ hexLetters.idxOf digit.digitChar = digit := by decide
  have h1 := hdigit (i / 4096) (by omega)
  have h2 := hdigit (i / 256 % 16) (by omega)
  have h3 := hdigit (i / 16 % 16) (by omega)
  have h4 := hdigit (i % 16) (by omega)
  simp [hex4, parseHex, Nat.ofDigits, *]
  omega

theorem hexWord_spec (word : BitVec 32) : hexWord word ⊆ hexLetters ∧ parseHex (hexWord word) = word.toNat := by
  have hword := word.isLt
  have hlower (word : BitVec 32) : (word &&& 0xFFFF#32).toNat = word.toNat % 65536 :=
    Nat.and_two_pow_sub_one_eq_mod _ 16
  have hupper : ((word >>> 16) &&& 0xFFFF#32).toNat = word.toNat / 65536 := by
    rw [hlower, BitVec.toNat_ushiftRight, Nat.shiftRight_eq_div_pow]
    omega
  obtain ⟨hfront, hhigh⟩ := hex4_spec (i := word.toNat / 65536) (by omega)
  obtain ⟨hback, hlow⟩ := hex4_spec (i := word.toNat % 65536) (by omega)
  rw [hexWord, hupper, hlower word, parseHex_append, hhigh, hlow]
  refine ⟨append_subset.mpr ⟨hfront, hback⟩, ?_⟩
  rw [show (hex4 _).length = 4 from rfl]
  omega

/-! ## Snowflakes -/

/-- The texts of `PATTERN`. -/
abbrev Snowflake := { text : List Char // text.length = 16 ∧ text ⊆ hexLetters }

namespace Snowflake

def epoch : ℕ := 1420070400000

def maxSeq : ℕ := 0x3FFFFF

def formatParts (dt seq : ℤ) : Snowflake :=
  let dtLo := dt.tmod 1024
  let hi := BitVec.ofInt 32 ((dt - dtLo) / 1024)
  let lo := BitVec.ofInt 32 dtLo <<< 22 ||| BitVec.ofInt 32 seq
  ⟨hexWord hi ++ hexWord lo, rfl, append_subset.mpr ⟨(hexWord_spec hi).1, (hexWord_spec lo).1⟩⟩

inductive Timelike
  | date (time : ℤ)
  | number (time : ℤ)
  | id (value : Snowflake)

def bound (seq : ℕ) : Timelike → Snowflake
  | .date time => formatParts (time - epoch) seq
  | .number time => formatParts (time - epoch) seq
  | .id value => value

def lowerbound : Timelike → Snowflake := bound 0

def upperbound : Timelike → Snowflake := bound maxSeq

variable (value : Snowflake)

def toBigInt : ℕ := parseHex (value.1.take 8) <<< 32 ||| parseHex (value.1.drop 8)

def getSequence : ℕ := (BitVec.ofNat 32 (parseHex (value.1.drop 8)) &&& 0x3FFFFF#32).toNat

def getTimestamp : ℕ := (toBigInt value >>> 22) + epoch

/-- The parts of a snowflake are those of the number it denotes. -/
theorem getParts_eq : getTimestamp value = parseHex value.1 / 2 ^ 22 + epoch ∧
    getSequence value = parseHex value.1 % 2 ^ 22 := by
  have hlow : parseHex (value.1.drop 8) < 2 ^ 32 := by
    simpa [value.2.1] using parseHex_lt fun letter h ↦ value.2.2 (mem_of_mem_drop (i := 8) h)
  have hvalue := parseHex_append (value.1.take 8) (value.1.drop 8)
  rw [take_append_drop, length_drop, value.2.1] at hvalue
  have hmask : getSequence value = (BitVec.ofNat 32 (parseHex (value.1.drop 8))).toNat % 2 ^ 22 :=
    Nat.and_two_pow_sub_one_eq_mod _ 22
  rw [hmask, BitVec.toNat_ofNat, getTimestamp, toBigInt, ← Nat.shiftLeft_add_eq_or_of_lt hlow, Nat.shiftLeft_eq,
    Nat.shiftRight_eq_div_pow, hvalue]
  omega

theorem parseHex_formatParts {dt seq : ℕ} (hdt : dt < 2 ^ 42) (hseq : seq ≤ maxSeq) :
    parseHex (formatParts dt seq).1 = dt * 2 ^ 22 + seq := by
  have hseq' : seq < 2 ^ 22 := Nat.lt_succ_of_le hseq
  have hlow : (dt : ℤ).tmod 1024 = (dt % 1024 : ℕ) := rfl
  have hhigh : ((dt : ℤ) - (dt % 1024 : ℕ)) / 1024 = (dt / 1024 : ℕ) := by omega
  have hlo : (BitVec.ofNat 32 (dt % 1024) <<< 22 ||| BitVec.ofNat 32 seq).toNat = dt % 1024 * 2 ^ 22 + seq := by
    rw [BitVec.toNat_or, BitVec.toNat_shiftLeft, BitVec.toNat_ofNat, BitVec.toNat_ofNat,
      Nat.mod_eq_of_lt (a := seq) (by omega), Nat.mod_eq_of_lt (a := dt % 1024) (by omega),
      Nat.mod_eq_of_lt (by rw [Nat.shiftLeft_eq]; omega), ← Nat.shiftLeft_add_eq_or_of_lt hseq', Nat.shiftLeft_eq]
  simp only [formatParts, hlow, hhigh, BitVec.ofInt_natCast, parseHex_append, hexWord_spec, hlo]
  rw [BitVec.toNat_ofNat, show (hexWord _).length = 8 from rfl]
  omega

theorem lt_iff (other : Snowflake) : value.1 < other.1 ↔ parseHex value.1 < parseHex other.1 :=
  lt_iff_parseHex_lt value.2.2 other.2.2 (value.2.1.trans other.2.1.symm)

/-- Parts in range are read back, the texts are ordered as the parts, and the bounds of a time
bracket the snowflakes with that time. -/
theorem formatParts_layout (dt : Fin (2 ^ 42)) (seq : Fin (maxSeq + 1)) :
    getTimestamp (formatParts dt seq) = dt + epoch ∧ getSequence (formatParts dt seq) = seq ∧
      (∀ (dt' : Fin (2 ^ 42)) (seq' : Fin (maxSeq + 1)),
        (formatParts dt seq).1 < (formatParts dt' seq').1 ↔ dt < dt' ∨ dt = dt' ∧ seq < seq') ∧
      ∀ value : Snowflake, ∀ time ∈ [Timelike.date (dt + epoch), .number (dt + epoch)],
        ¬ value.1 < (lowerbound time).1 ∧ ¬ (upperbound time).1 < value.1 ↔
          getTimestamp value = dt + epoch := by
  have hmax : maxSeq = 2 ^ 22 - 1 := rfl
  have hparts (dt : Fin (2 ^ 42)) (seq : Fin (maxSeq + 1)) := parseHex_formatParts dt.2 (Nat.le_of_lt_succ seq.2)
  rw [(getParts_eq _).1, (getParts_eq _).2, hparts]
  refine ⟨by omega, by omega, fun dt' seq' ↦ ?_, fun value time htime ↦ ?_⟩
  · rw [lt_iff, hparts, hparts, Fin.ext_iff]
    omega
  · have hbound (seq : ℕ) : bound seq time = formatParts dt seq := by
      rcases List.mem_pair.mp htime with rfl | rfl <;> simp [bound]
    rw [lt_iff, lt_iff, (getParts_eq value).1, lowerbound, upperbound, hbound, hbound,
      parseHex_formatParts dt.2 maxSeq.zero_le, parseHex_formatParts dt.2 le_rfl]
    omega

end Snowflake

end GajaeCode.Utils
