import GajaeCode.Machine.Returns
import GajaeCode.Query.StringEncoding

/-!
# Decoding a string from its bytes

The window of the reader stands for what is left of the range. Whatever the window holds, each unit
that is read is one character of the string, with the exception of a byte order mark, which the
decoder drops.
-/

namespace GajaeCode.Query

open Text Json Chain Machine List

variable {unit : UInt16} {rest : List JsString} {first : UInt8} {text piece : JsString}
  {window : Window} {bytes : Bytes} {rev : StoredBytes}

/-- What is left of the range, and how many bytes of it are in the source at least. -/
structure Window.Stands (bytes : Bytes) (stop : ℕ) (window : Window) (point : Bytes × ℕ) : Prop where
  started : window.sourceStart ≤ window.position
  inside : window.position ≤ stop
  left : point.1 = slice window.position stop bytes
  ahead : window.ahead <+: point.1
  held : point.2 ≤ window.ahead.length

section

variable {limits : StoreLimits} {rev : StoredBytes} {bytes left : Bytes} {stop held : ℕ}

theorem Window.Stands.length_left {point : Bytes × ℕ}
    (h : window.Stands bytes stop point) (hstop : stop ≤ bytes.length) :
    window.position + point.1.length = stop := by
  have hinside := h.inside
  rw [h.left, slice, length_drop, length_take]
  omega

theorem returns_peek {count : ℕ} (hcount : count ≤ held) :
    Returns (Window.Stands bytes stop) (peek count) (left, held) (left.take count) (left, held) := by
  intro window h
  refine ⟨window, ?_, h⟩
  have htake : window.ahead.take count = left.take count := by
    obtain ⟨rest, hrest⟩ : window.ahead <+: left := h.ahead
    rw [← hrest, take_append_of_le_length (hcount.trans h.held)]
  rw [← htake]
  rfl

theorem returns_skip {count : ℕ} (hcount : count ≤ held) (hstop : stop ≤ bytes.length) :
    Returns (Window.Stands bytes stop) (skip count) (left, held) () (left.drop count, held - count) := by
  intro window h
  have hlength : window.position + left.length = stop := h.length_left hstop
  have hheld : held ≤ window.ahead.length := h.held
  have hahead : window.ahead.length ≤ left.length := h.ahead.length_le
  have hleft : left = slice window.position stop bytes := h.left
  have hstarted := h.started
  have hdrop : ({ window with position := window.position + count } : Window).ahead =
      window.ahead.drop count := by
    rw [Window.ahead, Window.ahead, drop_drop, Nat.sub_add_comm hstarted]
  refine ⟨{ window with position := window.position + count }, rfl, ?_⟩
  constructor
  · exact Nat.le_add_right_of_le hstarted
  · dsimp only
    omega
  · dsimp only
    rw [hleft, slice, slice, drop_drop]
  · rw [hdrop]
    exact h.ahead.drop count
  · rw [hdrop, length_drop]
    exact Nat.sub_le_sub_right hheld count

theorem returns_fill_false {needed : ℕ} (hstop : stop ≤ bytes.length) (hlt : left.length < needed) :
    Returns (Window.Stands bytes stop) (fill limits rev stop needed) (left, held) false
      (left, held) := by
  intro window h
  have hlength : window.position + left.length = stop := h.length_left hstop
  have hover : stop < window.position + needed := by omega
  refine ⟨window, ?_, h⟩
  simp only [fill, StateT.run_bind, StateT.run_get, pure_bind, if_pos hover]
  rfl

theorem returns_atEnd (hstop : stop ≤ bytes.length) :
    Returns (Window.Stands bytes stop) (atEnd stop) (left, held) left.isEmpty (left, held) := by
  intro window h
  have hlength : window.position + left.length = stop := h.length_left hstop
  refine ⟨window, ?_, h⟩
  have hiff : (window.position == stop) = left.isEmpty := by
    rw [Bool.eq_iff_iff, beq_iff_eq, List.isEmpty_iff, ← length_eq_zero_iff]
    omega
  rw [← hiff]
  rfl

variable (limits) (hholds : rev.Holds bytes) (hstop : stop ≤ bytes.length)

include hholds hstop

theorem returns_fill {needed : ℕ} (hneeded : 0 < needed) (hle : needed ≤ left.length) :
    Returns (Window.Stands bytes stop) (fill limits rev stop needed) (left, held) true
      (left, needed) := by
  intro window h
  have hlength : window.position + left.length = stop := h.length_left hstop
  have hstarted := h.started
  have hahead : window.ahead.length = _ := length_drop
  have hleft : left = slice window.position stop bytes := h.left
  have hfits : ¬ stop < window.position + needed := by omega
  by_cases hin : window.sourceStart ≤ window.position ∧
      window.position + needed ≤ window.sourceStart + window.source.length
  · refine ⟨window, ?_, { h with held := ?_ }⟩
    · simp only [fill, StateT.run_bind, StateT.run_get, pure_bind, if_neg hfits, if_pos hin]
      rfl
    · dsimp only
      omega
  · have hsource : rev.readBytes window.position
        (min stop (window.position + max limits.stringReadBytes needed)) =
          left.take (max limits.stringReadBytes needed) := by
      rw [hholds.readBytes_eq, hleft, slice, slice, take_drop, take_take, Nat.min_comm]
    have hread : needed ≤ (left.take (max limits.stringReadBytes needed)).length := by
      rw [length_take]
      omega
    have hprefix := take_prefix (max limits.stringReadBytes needed) left
    generalize left.take (max limits.stringReadBytes needed) = read at *
    refine ⟨⟨window.position, window.position, read⟩, ?_, ?_⟩
    · simp only [fill, StateT.run_bind, StateT.run_get, pure_bind, if_neg hfits, if_neg hin, hsource,
        decide_eq_true hread]
      rfl
    · have hall : (⟨window.position, window.position, read⟩ : Window).ahead = read := by
        rw [Window.ahead, Nat.sub_self, drop_zero]
      refine ⟨Nat.le_refl _, h.inside, h.left, ?_, ?_⟩
      · rwa [hall]
      · rwa [hall]

theorem returns_takeByte (byte : UInt8) :
    Returns (Window.Stands bytes stop) (takeByte limits rev stop) (byte :: left, held) byte
      (left, 0) := by
  apply Returns.bind (returns_fill limits hholds hstop Nat.one_pos (by simp))
  rw [if_pos rfl]
  apply Returns.bind (returns_peek (Nat.le_refl 1))
  exact Returns.bind (returns_skip (Nat.le_refl 1) hstop) (returns_pure _ _)

theorem returns_readUnicodeEscape {second third fourth : UInt8}
    (hquad : hexQuad (byteUnit first) (byteUnit second) (byteUnit third) (byteUnit fourth) = some unit) :
    Returns (Window.Stands bytes stop) (readUnicodeEscape limits rev stop)
      (first :: second :: third :: fourth :: left, held) unit (left, 0) := by
  apply Returns.bind (returns_takeByte limits hholds hstop first)
  apply Returns.bind (returns_takeByte limits hholds hstop second)
  apply Returns.bind (returns_takeByte limits hholds hstop third)
  apply Returns.bind (returns_takeByte limits hholds hstop fourth)
  rw [hquad]
  exact returns_pure _ _

theorem returns_hasEscapedLowSurrogate_false (hnone : isEscapedLowSurrogate (left.take 6) = false) :
    Returns (Window.Stands bytes stop) (hasEscapedLowSurrogate limits rev stop) (left, 0) false
      (left, 0) := by
  rcases Nat.lt_or_ge left.length 6 with hlt | hge
  · apply Returns.bind (returns_fill_false hstop hlt)
    exact returns_pure _ _
  · apply Returns.bind (returns_fill limits hholds hstop (by decide) hge)
    rw [if_pos rfl]
    apply Returns.bind (returns_peek (Nat.le_refl 6))
    rw [hnone]
    exact (returns_pure _ _).weaken fun window h ↦ { h with held := Nat.zero_le _ }

theorem returns_readSequence {tail : Bytes} (hwidth : sequenceWidth first = tail.length + 1)
    (htail : tail.all isContinuation) (htext : decodeFatal (first :: tail) = some text) :
    Returns (Window.Stands bytes stop) (readSequence limits rev stop first)
      (first :: tail ++ left, held) text (left, 0) := by
  have htake : (first :: tail ++ left).take (sequenceWidth first) = first :: tail := by
    rw [hwidth, ← length_cons, take_left]
  have hdrop : (first :: tail ++ left).drop (sequenceWidth first) = left := by
    rw [hwidth, ← length_cons, drop_left]
  unfold readSequence
  rw [if_neg (by omega)]
  apply Returns.bind (returns_fill limits hholds hstop (by omega) (by simp [hwidth]))
  rw [if_pos rfl]
  apply Returns.bind (returns_peek (Nat.le_refl _))
  rw [htake, tail_cons, if_pos htail]
  apply Returns.bind (returns_skip (Nat.le_refl _) hstop)
  rw [hdrop, Nat.sub_self, htext]
  exact returns_pure _ _

/-! ## Units -/

/-- What `readUnit` does is determined by the next byte. -/
theorem returns_readUnit_of_first {unit : Option JsString} {rest : Bytes}
    (hnext : Returns (Window.Stands bytes stop) (if first = 0x22 then do
        skip 1
        pure none
      else if first = 0x5C then do
        skip 1
        let unit ← readEscape limits rev stop
        pure (some unit)
      else if first.toNat < 0x20 then
        throw (.syntaxError "unescaped control character in JSON snapshot")
      else if first.toNat < 0x80 then do
        skip 1
        pure (some [byteUnit first])
      else do
        let unit ← readSequence limits rev stop first
        pure (some unit)) (first :: left, 1) unit (rest, 0)) :
    Returns (Window.Stands bytes stop) (readUnit limits rev stop) (first :: left, held) unit
      (rest, 0) := by
  apply Returns.bind (returns_fill limits hholds hstop Nat.one_pos (by simp))
  exact Returns.bind (returns_peek (Nat.le_refl 1)) hnext

theorem returns_readUnit_quote :
    Returns (Window.Stands bytes stop) (readUnit limits rev stop) (0x22 :: left, held) none
      (left, 0) := by
  apply returns_readUnit_of_first limits hholds hstop
  exact Returns.bind (returns_skip (Nat.le_refl 1) hstop) (returns_pure _ _)

theorem returns_readUnit_escape {rest : Bytes}
    (hescape : Returns (Window.Stands bytes stop) (readEscape limits rev stop) (left, 0) text
      (rest, 0)) :
    Returns (Window.Stands bytes stop) (readUnit limits rev stop) (0x5C :: left, held) (some text)
      (rest, 0) := by
  apply returns_readUnit_of_first limits hholds hstop
  rw [if_neg (by decide), if_pos rfl]
  apply Returns.bind (returns_skip (Nat.le_refl 1) hstop)
  exact Returns.bind hescape (returns_pure _ _)

end

/-! ## Bytes of characters -/

theorem encodeUtf8_of_isAscii (h : IsAscii text) :
    encodeUtf8 text = text.map fun unit ↦ UInt8.ofNat unit.toNat := by
  induction text with
  | nil => rfl
  | cons unit rest ih =>
    obtain ⟨hunit, hrest⟩ := (isAscii_cons _ _).mp h
    have hhigh : isHighSurrogate unit = false := by
      simp [isHighSurrogate]
      omega
    have hlow : isLowSurrogate unit = false := by
      simp [isLowSurrogate]
      omega
    have ih := ih hrest
    rw [encodeUtf8] at ih
    rw [encodeUtf8, scalars_cons hhigh hlow, flatMap_cons, ih, scalarBytes, if_pos hunit, map_cons]
    rfl

theorem byteUnit_ofNat (h : unit.toNat < 0x80) :
    byteUnit (UInt8.ofNat unit.toNat) = unit ∧ asciiUnit (UInt8.ofNat unit.toNat) = unit := by
  have hbyte : (UInt8.ofNat unit.toNat).toNat = unit.toNat := toNat_ofNat_byte (by omega)
  constructor
  · rw [byteUnit, hbyte, UInt16.ofNat_toNat]
  · rw [asciiUnit, hbyte, Nat.mod_eq_of_lt h, UInt16.ofNat_toNat]

/-- The four digits of an escape, as bytes, are read as the code unit. -/
theorem characterBytes_unicodeEscape (unit : UInt16) :
    ∃ first second third fourth, encodeUtf8 (unicodeEscape unit) =
        [0x5C, 0x75, first, second, third, fourth] ∧
      hexQuad (byteUnit first) (byteUnit second) (byteUnit third) (byteUnit fourth) = some unit ∧
      hexQuad (asciiUnit first) (asciiUnit second) (asciiUnit third) (asciiUnit fourth) = some unit := by
  have hdigit (value) (hvalue : value < 16) := byteUnit_ofNat (isPrintable_hexUnit hvalue).2
  have hunit := unit.toNat_lt
  refine ⟨_, _, _, _, encodeUtf8_of_isAscii (isPrintable_unicodeEscape unit).isAscii, ?_, ?_⟩
  · rw [(hdigit _ (by omega)).1, (hdigit _ (by omega)).1, (hdigit _ (by omega)).1,
      (hdigit _ (by omega)).1]
    exact hexQuad_hexUnit unit
  · rw [(hdigit _ (by omega)).2, (hdigit _ (by omega)).2, (hdigit _ (by omega)).2,
      (hdigit _ (by omega)).2]
    exact hexQuad_hexUnit unit

theorem scalarBytes_sequence {scalar : ℕ} (h : scalar < 0x110000) (hlarge : 0x80 ≤ scalar) :
    ∃ first tail, scalarBytes scalar = first :: tail ∧ 0x80 ≤ first.toNat ∧
      sequenceWidth first = tail.length + 1 := by
  unfold scalarBytes
  split_ifs with h1 h2 h3
  · omega
  all_goals
    refine ⟨_, _, rfl, ?_, ?_⟩
    · rw [toNat_ofNat_byte (by omega)]
      omega
    · rw [sequenceWidth, toNat_ofNat_byte (by omega)]
      split_ifs <;> first | rfl | omega

/-- The byte order mark. -/
def markUnit : UInt16 := 0xFEFF

/-- What the reader makes of a character: the decoder drops a byte order mark. -/
def decodedUnit (character : JsString) : JsString := if character = [markUnit] then [] else character

theorem withoutMark_eq_self (h : bytes.take 3 ≠ [0xEF, 0xBB, 0xBF]) : withoutMark bytes = bytes := by
  unfold withoutMark
  split
  · exact absurd rfl h
  · rfl

/-- The ways in which a character is written. -/
inductive CharacterForm : JsString → Bytes → Prop where
  | unicode {unit : UInt16} (hmark : unit ≠ markUnit) :
      CharacterForm [unit] (encodeUtf8 (unicodeEscape unit))
  | letter {unit : UInt16} {letter : UInt8} (hmark : unit ≠ markUnit) (hletter : letter ≠ 0x75)
      (hunit : unescapeLetter (byteUnit letter) = some unit) (hhigh : isHighSurrogate unit = false) :
      CharacterForm [unit] [0x5C, letter]
  | ascii {byte : UInt8} (hquote : byte ≠ 0x22) (hbackslash : byte ≠ 0x5C)
      (hcontrol : ¬ byte.toNat < 0x20) (hascii : byte.toNat < 0x80) :
      CharacterForm [byteUnit byte] [byte]
  | several {character : JsString} {first : UInt8} {tail : Bytes} (hfirst : 0x80 ≤ first.toNat)
      (hwidth : sequenceWidth first = tail.length + 1) (htail : tail.all isContinuation = true)
      (htext : decodeFatal (first :: tail) = some (decodedUnit character))
      (hwell : isWellFormed character = true) : CharacterForm character (first :: tail)

/-- A character of several bytes. -/
theorem characterForm_sequence {char : JsString} (hwell : isWellFormed char)
    (hchar : IsCharacter char) (hascii : ¬ IsAscii char) : CharacterForm char (encodeUtf8 char) := by
  obtain ⟨scalar, hscalar, hsingle⟩ := hchar.scalars
  have hbytes : encodeUtf8 char = scalarBytes scalar := by
    rw [encodeUtf8, hsingle, flatMap_singleton]
  have hlarge : 0x80 ≤ scalar := by
    by_contra hsmall
    apply hascii
    apply (byteLength_character hchar).2.mp
    have hpositive := length_pos_iff.mpr hchar.ne_nil
    have hle := (byteLength_character hchar).1
    rw [byteLength, hbytes, scalarBytes, if_pos (by omega), length_singleton] at hle ⊢
    omega
  obtain ⟨first, tail, hsplit, hfirst, hwidth⟩ := scalarBytes_sequence hscalar.1 hlarge
  obtain ⟨head, tail', hblock, -, htail⟩ := (isBlock_scalarBytes hscalar.1).1
  rw [hsplit, cons.injEq] at hblock
  have hall : tail.all isContinuation := by
    rw [hblock.2, all_eq_true]
    exact htail
  have hdecoded : decodeFatal (first :: tail) = some (decodedUnit char) := by
    rw [← hsplit, ← hbytes, decodedUnit]
    split_ifs with hmark
    · rw [hmark]
      decide
    · have hmark' : (encodeUtf8 char).take 3 ≠ [0xEF, 0xBB, 0xBF] := by
        intro hstart
        apply hmark
        rw [hbytes, hsplit] at hstart
        -- a first byte 0xEF starts a character of three bytes
        have hlen : tail.length + 1 = 3 := by
          rw [← hwidth, (cons.inj hstart).1]
          decide
        rw [take_of_length_le (by rw [length_cons, hlen]), ← hsplit, ← hbytes] at hstart
        have hsame : encodeUtf8 char = encodeUtf8 [markUnit] := by
          rw [hstart]
          decide
        rwa [encodeUtf8_eq_encodeUtf8_iff, (toWellFormed_eq_self_iff _).mpr hwell] at hsame
      rw [decodeFatal, withoutMark_eq_self hmark', (decodeUtf8_encodeUtf8_eq_self_iff _).mpr hwell,
        if_pos rfl]
  rw [hbytes, hsplit]
  exact .several hfirst hwidth hall hdecoded hwell

theorem ne_markUnit_of_lt (h : unit.toNat < 0xE000) : unit ≠ markUnit := by
  rintro rfl
  exact absurd h (by decide)

theorem characterForm_escapeUnit (hhigh : isHighSurrogate unit = false)
    (hlow : isLowSurrogate unit = false) : CharacterForm [unit] (encodeUtf8 (escapeUnit unit)) := by
  unfold escapeUnit
  cases hshort : shortEscape unit with
  | some letter =>
    have hascii : letter.toNat < 0x80 ∧ unit.toNat < 0x80 := by
      unfold shortEscape at hshort
      split_ifs at hshort <;> (cases hshort; subst_vars; decide)
    obtain ⟨hletter, hunit⟩ := unescapeLetter_of_shortEscape hshort
    have hpair : IsAscii [backslashUnit, letter] :=
      (isAscii_cons _ _).mpr ⟨by decide, (isAscii_cons _ _).mpr ⟨hascii.1, isAscii_nil⟩⟩
    rw [encodeUtf8_of_isAscii hpair]
    refine .letter (ne_markUnit_of_lt (by omega)) ?_ ?_ hhigh
    · intro hbyte
      apply hletter
      calc letter = byteUnit (UInt8.ofNat letter.toNat) := (byteUnit_ofNat hascii.1).1.symm
        _ = byteUnit 0x75 := congrArg byteUnit hbyte
        _ = 0x75 := by decide
    · dsimp only
      rwa [(byteUnit_ofNat hascii.1).1]
  | none =>
    split_ifs with hcontrol
    · exact .unicode (ne_markUnit_of_lt (by omega))
    · by_cases hascii : unit.toNat < 0x80
      · have hsingle : IsAscii [unit] := (isAscii_cons _ _).mpr ⟨hascii, isAscii_nil⟩
        have hbyte : (UInt8.ofNat unit.toNat).toNat = unit.toNat := toNat_ofNat_byte (by omega)
        have hne (byte) (hescaped : shortEscape (byteUnit byte) ≠ none) :
            UInt8.ofNat unit.toNat ≠ byte := by
          rintro rfl
          rw [(byteUnit_ofNat hascii).1] at hescaped
          exact hescaped hshort
        rw [encodeUtf8_of_isAscii hsingle]
        have hform : CharacterForm [byteUnit (UInt8.ofNat unit.toNat)] [UInt8.ofNat unit.toNat] :=
          .ascii (hne 0x22 (by decide)) (hne 0x5C (by decide)) (by rwa [hbyte]) (by rwa [hbyte])
        rwa [(byteUnit_ofNat hascii).1] at hform
      · have hwell : isWellFormed [unit] := by simp [isWellFormed, hhigh, hlow]
        have hmore : ¬ IsAscii [unit] := fun h ↦ hascii ((isAscii_cons _ _).mp h).1
        exact characterForm_sequence hwell (.inl ⟨unit, rfl⟩) hmore

theorem characterForm_characterBytes {char : JsString} (h : IsCharacter char) :
    CharacterForm char (characterBytes char) := by
  unfold characterBytes
  rcases h with ⟨unit, rfl⟩ | ⟨high, low, rfl, hhigh, hlow⟩
  · rw [quoteBody]
    split_ifs with hsurr
    · apply CharacterForm.unicode
      apply ne_markUnit_of_lt
      simp only [isHighSurrogate, isLowSurrogate, Bool.or_eq_true, Bool.and_eq_true,
        decide_eq_true_eq] at hsurr
      omega
    · rw [Bool.not_eq_true, Bool.or_eq_false_iff] at hsurr
      exact characterForm_escapeUnit hsurr.1 hsurr.2
  · have hpair : quoteBody [high, low] = [high, low] := by simp [quoteBody, hhigh, hlow]
    have hwell : isWellFormed [high, low] := by simp [isWellFormed, hhigh, hlow]
    have hmore : ¬ IsAscii [high, low] := by
      simp only [isHighSurrogate, Bool.and_eq_true, decide_eq_true_eq] at hhigh
      intro h
      have := ((isAscii_cons _ _).mp h).1
      omega
    rw [hpair]
    exact characterForm_sequence hwell (.inr ⟨high, low, rfl, hhigh, hlow⟩) hmore

/-! ## Characters in front of others -/

/-- Behind an unpaired high surrogate, there is no escape of a low one. -/
theorem isEscapedLowSurrogate_characterBytes (hhigh : isHighSurrogate unit)
    {next : JsString} (hnext : IsCharacter next) (hcut : splitsPair [unit] next = false) (left : Bytes) :
    isEscapedLowSurrogate ((characterBytes next ++ left).take 6) = false := by
  unfold isEscapedLowSurrogate
  split
  next hbytes =>
    rw [Bool.eq_false_iff, ne_eq, Bool.and_eq_true, Bool.and_eq_true, beq_iff_eq, beq_iff_eq]
    rintro ⟨⟨rfl, rfl⟩, hany⟩
    have hform := characterForm_characterBytes hnext
    generalize characterBytes next = written at hform hbytes
    cases hform with
    | @unicode other hmark =>
      have hlow : isLowSurrogate other = false := by simpa [splitsPair, hhigh] using hcut
      obtain ⟨a, b, c, d, hwritten, -, hquad⟩ := characterBytes_unicodeEscape other
      rw [hwritten] at hbytes
      obtain ⟨rfl, rfl, rfl, rfl⟩ := hbytes
      rw [hquad, Option.any_some, hlow] at hany
      exact absurd hany (by decide)
    | letter hmark hletter =>
      rw [cons_append, take_succ_cons, cons_append, take_succ_cons, cons.injEq, cons.injEq] at hbytes
      exact hletter hbytes.2.1
    | ascii hquote hbackslash =>
      rw [cons_append, take_succ_cons, cons.injEq] at hbytes
      exact hbackslash hbytes.1
    | several hfirst =>
      rw [cons_append, take_succ_cons, cons.injEq] at hbytes
      rw [hbytes.1] at hfirst
      exact absurd hfirst (by decide)
  next => rfl

/-- The bytes of some characters up to the closing quote. -/
def closingBytes (pieces : List JsString) : Bytes := pieces.flatMap characterBytes ++ [0x22]

theorem closingBytes_cons (piece : JsString) (rest : List JsString) :
    closingBytes (piece :: rest) = characterBytes piece ++ closingBytes rest := by
  rw [closingBytes, closingBytes, flatMap_cons, append_assoc]

/-- Characters that follow each other in a string. -/
structure Unpaired (pieces : List JsString) : Prop where
  characters : ∀ piece ∈ pieces, IsCharacter piece
  chain : pieces.IsChain fun left right ↦ splitsPair left right = false

theorem unpaired_characters (value : JsString) : Unpaired (characters value) :=
  ⟨fun _ hpiece ↦ isCharacter_of_mem_characters hpiece, isChain_characters value⟩

theorem Unpaired.tail (h : Unpaired (piece :: rest)) : Unpaired rest :=
  ⟨fun other hother ↦ h.characters other (mem_cons_of_mem _ hother), (isChain_cons.mp h.chain).2⟩

theorem Unpaired.right {front : List JsString} (h : Unpaired (front ++ rest)) : Unpaired rest :=
  ⟨fun other hother ↦ h.characters other (mem_append_right _ hother),
    (isChain_append.mp h.chain).2.1⟩

theorem Unpaired.isEscapedLowSurrogate_false
    (h : Unpaired ([unit] :: rest)) (hhigh : isHighSurrogate unit) :
    isEscapedLowSurrogate ((closingBytes rest).take 6) = false := by
  cases rest with
  | nil => rfl
  | cons next =>
    have hcut := (isChain_cons.mp h.chain).1 next rfl
    rw [closingBytes_cons]
    exact isEscapedLowSurrogate_characterBytes hhigh (h.characters next (by simp)) hcut _

/-- A round of the reader reads one character. -/
theorem returns_readUnit (limits : StoreLimits) {stop held : ℕ}
    (hholds : rev.Holds bytes) (hstop : stop ≤ bytes.length) (h : Unpaired (piece :: rest)) :
    Returns (Window.Stands bytes stop) (readUnit limits rev stop) (closingBytes (piece :: rest), held)
      (some (decodedUnit piece)) (closingBytes rest, 0) := by
  have hform := characterForm_characterBytes (h.characters piece mem_cons_self)
  rw [closingBytes_cons]
  generalize characterBytes piece = written at hform
  have hdecoded {unit} (hmark : unit ≠ markUnit) : decodedUnit [unit] = [unit] := by
    rw [decodedUnit, if_neg]
    simpa using hmark
  cases hform with
  | @unicode unit hmark =>
    obtain ⟨first, second, third, fourth, hwritten, hquad, -⟩ := characterBytes_unicodeEscape unit
    rw [hwritten, hdecoded hmark]
    apply returns_readUnit_escape limits hholds hstop
    apply Returns.bind (returns_takeByte limits hholds hstop 0x75)
    rw [if_pos rfl]
    apply Returns.bind (returns_readUnicodeEscape limits hholds hstop hquad)
    -- the unit is read alone, unless it is the first half of a pair of escapes
    split_ifs with hhigh
    · apply Returns.bind (returns_hasEscapedLowSurrogate_false limits hholds hstop
        (h.isEscapedLowSurrogate_false hhigh))
      exact returns_pure _ _
    · exact returns_pure _ _
  | letter hmark hletter hunit =>
    rw [hdecoded hmark]
    apply returns_readUnit_escape limits hholds hstop
    apply Returns.bind (returns_takeByte limits hholds hstop _)
    rw [if_neg hletter, hunit]
    exact returns_pure _ _
  | @ascii byte hquote hbackslash hctrl hascii =>
    have hmark : byteUnit byte ≠ markUnit := by
      apply ne_markUnit_of_lt
      rw [byteUnit, UInt16.toNat_ofNat']
      omega
    rw [hdecoded hmark]
    apply returns_readUnit_of_first limits hholds hstop
    rw [if_neg hquote, if_neg hbackslash, if_neg hctrl, if_pos hascii]
    exact Returns.bind (returns_skip (Nat.le_refl 1) hstop) (returns_pure _ _)
  | @several _ first _ hfirst hwidth htail htext =>
    have hne (byte) (hbyte : byte.toNat < 0x80) : first ≠ byte := by
      rintro rfl
      omega
    apply returns_readUnit_of_first limits hholds hstop
    rw [if_neg (hne _ (by decide)), if_neg (hne _ (by decide)), if_neg (by omega), if_neg (by omega)]
    exact Returns.bind (returns_readSequence limits hholds hstop hwidth htail htext) (returns_pure _ _)

end GajaeCode.Query
