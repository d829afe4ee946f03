import GajaeCode.Text.Utf8
import Mathlib.Data.List.Chain

/-!
# Characters of a string

A string is cut into its characters: a surrogate pair, or one code unit that is not part of a
pair. Encoders that look at one character at a time are determined by what they do on each
piece, so that facts about a whole text come from facts about pieces of at most two units.
-/

namespace GajaeCode.Text

open List Bool

variable {text char right left : JsString} {pieces : List JsString}

/-- The characters of a text: surrogate pairs and single code units. -/
def characters : JsString → List JsString
  | [] => []
  | [unit] => [[unit]]
  | unit :: next :: rest =>
      if isHighSurrogate unit && isLowSurrogate next then [unit, next] :: characters rest
      else [unit] :: characters (next :: rest)

/-- A surrogate pair or a single code unit. -/
def IsCharacter (character : JsString) : Prop :=
  (∃ unit, character = [unit]) ∨
    ∃ high low, character = [high, low] ∧ isHighSurrogate high = true ∧ isLowSurrogate low = true

theorem flatten_characters (text : JsString) : (characters text).flatten = text := by
  fun_induction characters text with
  | case1 => rfl
  | case2 => rfl
  | case3 unit next rest h ih => simp [ih]
  | case4 unit next rest h ih => simp [ih]

theorem isCharacter_of_mem_characters (h : char ∈ characters text) : IsCharacter char := by
  fun_induction characters text with
  | case1 => simp at h
  | case2 unit => exact .inl ⟨unit, by simpa using h⟩
  | case3 unit next rest hpair ih =>
    rw [and_eq_true] at hpair
    rcases mem_cons.mp h with rfl | h
    · exact .inr ⟨unit, next, rfl, hpair⟩
    · exact ih h
  | case4 unit next rest hpair ih =>
    rcases mem_cons.mp h with rfl | h
    · exact .inl ⟨unit, rfl⟩
    · exact ih h

theorem isCharacter_of_append {front rest : List JsString} (h : characters text = front ++ rest) :
    (∀ piece ∈ front, IsCharacter piece) ∧ ∀ piece ∈ rest, IsCharacter piece := by
  rw [← forall_mem_append, ← h]
  exact fun piece hpiece ↦ isCharacter_of_mem_characters hpiece

theorem IsCharacter.ne_nil (h : IsCharacter char) : char ≠ [] := by
  rcases h with ⟨unit, rfl⟩ | ⟨high, low, rfl, -⟩ <;> simp

/-- UTF-8 encodes one character at a time. -/
theorem scalars_eq_flatMap_characters (text : JsString) :
    scalars text = (characters text).flatMap scalars := by
  fun_induction characters text with
  | case1 => rfl
  | case2 => simp [scalars]
  | case3 unit next rest h ih =>
    rw [and_eq_true] at h
    simp [scalars, h.1, h.2, ih]
  | case4 unit next rest h ih =>
    rw [flatMap_cons, ← ih, scalars, scalars]
    cases hhigh : isHighSurrogate unit with
    | false => cases isLowSurrogate unit <;> simp
    | true =>
      have hlow : isLowSurrogate next = false := by simpa [hhigh] using h
      simp [hlow]

theorem encodeUtf8_eq_flatMap_characters (text : JsString) :
    encodeUtf8 text = (characters text).flatMap encodeUtf8 := by
  rw [encodeUtf8, scalars_eq_flatMap_characters, flatMap_assoc]
  rfl

/-- A character is written as one scalar value. -/
theorem IsCharacter.scalars (h : IsCharacter char) :
    ∃ scalar, IsScalar scalar ∧ Text.scalars char = [scalar] := by
  have hmem := isScalar_of_mem_scalars char
  rcases h with ⟨unit, rfl⟩ | ⟨high, low, rfl, hhigh, hlow⟩
  · exact ⟨_, hmem _ mem_cons_self, rfl⟩
  · exact ⟨pairScalar high low, isScalar_pairScalar hhigh hlow, by simp [Text.scalars, hhigh, hlow]⟩

/-! ## Cuts -/

/-- The cut between the two parts lies inside a surrogate pair. -/
def splitsPair (left right : JsString) : Bool :=
  left.getLast?.any isHighSurrogate && right.head?.any isLowSurrogate

theorem characters_append (h : splitsPair left right = false) :
    characters (left ++ right) = characters left ++ characters right := by
  fun_induction characters left with
  | case1 => rfl
  | case2 unit =>
    cases right with
    | nil => rfl
    | cons next =>
      have hpair : (isHighSurrogate unit && isLowSurrogate next) = false := by
        simpa [splitsPair] using h
      simp [characters, hpair]
  | case3 unit next rest hpair ih =>
    have hrest : splitsPair rest right = false := by
      cases rest with
      | nil =>
        simp [splitsPair]
      | cons => simpa [splitsPair] using h
    rw [cons_append, cons_append, characters, if_pos hpair, ih hrest, cons_append]
  | case4 unit next rest hpair ih =>
    have hrest : splitsPair (next :: rest) right = false := by simpa [splitsPair] using h
    have hcons := ih hrest
    rw [cons_append] at hcons
    rw [cons_append, cons_append, characters, if_neg hpair, hcons, cons_append]

/-- Characters that follow each other do not make up a pair. -/
theorem isChain_characters (text : JsString) :
    (characters text).IsChain fun left right ↦ splitsPair left right = false := by
  fun_induction characters text with
  | case1 => exact isChain_nil
  | case2 => exact isChain_singleton _
  | case3 unit next rest hpair ih =>
    rw [and_eq_true] at hpair
    refine isChain_cons.mpr ⟨fun other _ ↦ ?_, ih⟩
    simp [splitsPair, isHighSurrogate_of_isLowSurrogate hpair.2]
  | case4 unit next rest hpair ih =>
    refine isChain_cons.mpr ⟨fun other hother ↦ ?_, ih⟩
    have hhead : other.head? = some next := by
      cases rest with
      | nil =>
        cases hother
        rfl
      | cons =>
        rw [characters] at hother
        split_ifs at hother <;> cases hother <;> rfl
    simpa [splitsPair, hhead] using hpair

/-- Characters that do not make up pairs are the characters of their text. -/
theorem characters_flatten (hpieces : ∀ piece ∈ pieces, IsCharacter piece)
    (hchain : pieces.IsChain fun left right ↦ splitsPair left right = false) :
    characters pieces.flatten = pieces := by
  induction pieces with
  | nil => rfl
  | cons piece rest ih =>
    obtain ⟨hnext, hrest⟩ := isChain_cons.mp hchain
    have hcut : splitsPair piece rest.flatten = false := by
      cases rest with
      | nil => simp [splitsPair]
      | cons other =>
        have hne := (hpieces other (by simp)).ne_nil
        obtain ⟨unit, tail, rfl⟩ := exists_cons_of_ne_nil hne
        simpa [splitsPair] using hnext (unit :: tail) rfl
    have hsingle : characters piece = [piece] := by
      rcases hpieces piece mem_cons_self with ⟨unit, rfl⟩ | ⟨high, low, rfl, hhigh, hlow⟩
      · rfl
      · simp [characters, hhigh, hlow]
    rw [flatten_cons, characters_append hcut, hsingle,
      ih (fun other hother ↦ hpieces other (mem_cons_of_mem _ hother)) hrest]
    rfl

/-- A stretch of the characters of a text is the characters of its own text. -/
theorem characters_flatten_of_within
    (h : pieces <:+: characters text) : characters pieces.flatten = pieces := by
  apply characters_flatten
  · exact fun piece hpiece ↦ isCharacter_of_mem_characters (h.subset hpiece)
  · obtain ⟨front, back, hsplit⟩ := h
    have hchain := isChain_characters text
    rw [← hsplit] at hchain
    exact (isChain_append.mp (isChain_append.mp hchain).1).2.1

theorem encodeUtf8_append (h : splitsPair left right = false) :
    encodeUtf8 (left ++ right) = encodeUtf8 left ++ encodeUtf8 right := by
  rw [encodeUtf8_eq_flatMap_characters, characters_append h, flatMap_append,
    ← encodeUtf8_eq_flatMap_characters, ← encodeUtf8_eq_flatMap_characters]

/-! ## Byte lengths -/

/-- `Buffer.byteLength(text, "utf8")`. -/
def byteLength (text : JsString) : ℕ := (encodeUtf8 text).length

/-- Every character of the text takes one byte. -/
def IsAscii (text : JsString) : Prop := ∀ unit ∈ text, unit.toNat < 0x80

theorem isAscii_append (left right : JsString) :
    IsAscii (left ++ right) ↔ IsAscii left ∧ IsAscii right :=
  forall_mem_append

theorem isAscii_cons (unit : UInt16) (rest : JsString) :
    IsAscii (unit :: rest) ↔ unit.toNat < 0x80 ∧ IsAscii rest :=
  forall_mem_cons

theorem isAscii_nil : IsAscii [] := by simp [IsAscii]

instance (text : JsString) : Decidable (IsAscii text) :=
  inferInstanceAs (Decidable (∀ unit ∈ text, _))

/-- A single code unit takes at least one byte, and exactly one when it is an ASCII character. -/
theorem byteLength_singleton (unit : UInt16) :
    1 ≤ byteLength [unit] ∧ (byteLength [unit] = 1 ↔ unit.toNat < 0x80) := by
  have hscalar : encodeUtf8 [unit] =
      scalarBytes (if isHighSurrogate unit || isLowSurrogate unit then 0xFFFD else unit.toNat) := by
    simp [encodeUtf8, scalars]
  unfold byteLength
  rw [hscalar]
  by_cases hsurr : isHighSurrogate unit || isLowSurrogate unit
  · rw [if_pos hsurr]
    simp only [isHighSurrogate, isLowSurrogate, or_eq_true, and_eq_true, decide_eq_true_eq] at hsurr
    have : (scalarBytes 0xFFFD).length = 3 := by decide
    omega
  · rw [if_neg hsurr]
    unfold scalarBytes
    split_ifs <;> simp <;> omega

theorem byteLength_pair {high low : UInt16} (hhigh : isHighSurrogate high)
    (hlow : isLowSurrogate low) : byteLength [high, low] = 4 := by
  have hscalar : 0x10000 ≤ pairScalar high low := by
    unfold pairScalar
    omega
  unfold byteLength
  simp only [encodeUtf8, scalars, hhigh, hlow, if_true, flatMap_cons, flatMap_nil, append_nil]
  unfold scalarBytes
  rw [if_neg (by omega), if_neg (by omega), if_neg (by omega)]
  rfl

theorem byteLength_character (h : IsCharacter char) : char.length ≤ byteLength char ∧
      (byteLength char = char.length ↔ IsAscii char) := by
  rcases h with ⟨unit, rfl⟩ | ⟨high, low, rfl, hhigh, hlow⟩
  · have := byteLength_singleton unit
    simpa [IsAscii] using this
  · rw [byteLength_pair hhigh hlow]
    simp only [isHighSurrogate, and_eq_true, decide_eq_true_eq] at hhigh
    simp [IsAscii]
    omega

theorem byteLength_flatten_iff (h : ∀ piece ∈ pieces, piece.length ≤ byteLength piece ∧
      (byteLength piece = piece.length ↔ IsAscii piece)) :
    pieces.flatten.length ≤ (pieces.flatMap encodeUtf8).length ∧
      ((pieces.flatMap encodeUtf8).length = pieces.flatten.length ↔ IsAscii pieces.flatten) := by
  induction pieces with
  | nil => simp [IsAscii]
  | cons piece rest ih =>
    obtain ⟨hle, hiff⟩ := ih fun item hitem ↦ h item (mem_cons_of_mem _ hitem)
    obtain ⟨hle', hiff'⟩ := h piece mem_cons_self
    unfold byteLength at hle' hiff'
    rw [flatten_cons, flatMap_cons, length_append, length_append, isAscii_append, ← hiff, ← hiff']
    omega

/-- A text has as many bytes as code units exactly when it is ASCII, and never fewer. -/
theorem length_le_byteLength_and (text : JsString) :
    text.length ≤ byteLength text ∧ (byteLength text = text.length ↔ IsAscii text) := by
  have h := byteLength_flatten_iff fun piece (hpiece : piece ∈ characters text) ↦
    byteLength_character (isCharacter_of_mem_characters hpiece)
  rwa [← encodeUtf8_eq_flatMap_characters, flatten_characters] at h

theorem length_le_byteLength (text : JsString) : text.length ≤ byteLength text :=
  (length_le_byteLength_and text).1

theorem byteLength_eq_length_iff (text : JsString) : byteLength text = text.length ↔ IsAscii text :=
  (length_le_byteLength_and text).2

/-! ## Bytes of a beginning or an end -/

theorem byteLength_append (h : splitsPair left right = false) :
    byteLength (left ++ right) = byteLength left + byteLength right := by
  rw [byteLength, encodeUtf8_append h, length_append, byteLength, byteLength]

/-- The halves of a pair take three bytes each, the pair takes four. -/
theorem byteLength_append_of_splitsPair (h : splitsPair left right) :
    byteLength (left ++ right) + 2 = byteLength left + byteLength right ∧
      3 ≤ byteLength left ∧ 3 ≤ byteLength right := by
  have hhalf {unit} (hunit : isHighSurrogate unit ∨ isLowSurrogate unit) :
      byteLength [unit] = 3 := by
    have hscalars : scalars [unit] = [0xFFFD] := by simp [scalars, hunit]
    rw [byteLength, encodeUtf8, hscalars]
    decide
  cases left using reverseRecOn with
  | nil => simp [splitsPair] at h
  | append_singleton front high =>
    cases right with
    | nil => simp [splitsPair] at h
    | cons low rest =>
      obtain ⟨hhigh, hlow⟩ : isHighSurrogate high ∧ isLowSurrogate low := by
        simpa [splitsPair] using h
      have hnotLow := isLowSurrogate_of_isHighSurrogate hhigh
      have hnotHigh := isHighSurrogate_of_isLowSurrogate hlow
      have hfront (rest) := @byteLength_append (high :: rest) front (by simp [splitsPair, hnotLow])
      have hrest := @byteLength_append rest [low] (by simp [splitsPair, hnotHigh])
      have hpair := @byteLength_append rest [high, low] (by simp [splitsPair, hnotHigh])
      rw [byteLength_pair hhigh hlow] at hpair
      rw [hhalf (.inr hlow)] at hrest
      rw [append_assoc, singleton_append, hfront, hfront, hhalf (.inl hhigh)]
      simp only [cons_append, nil_append] at hrest hpair
      omega

theorem byteLength_le_append (left right : JsString) :
    byteLength left ≤ byteLength (left ++ right) ∧ byteLength right ≤ byteLength (left ++ right) := by
  cases hcut : splitsPair left right with
  | false =>
    rw [byteLength_append hcut]
    exact ⟨Nat.le_add_right _ _, Nat.le_add_left _ _⟩
  | true =>
    have hbytes := byteLength_append_of_splitsPair hcut
    omega

theorem byteLength_take_mono (text : JsString) {count count' : ℕ} (h : count ≤ count') :
    byteLength (text.take count) ≤ byteLength (text.take count') := by
  have htake : text.take count' = text.take count ++ (text.drop count).take (count' - count) := by
    rw [← take_add, Nat.add_sub_cancel' h]
  rw [htake]
  exact (byteLength_le_append _ _).1

theorem byteLength_le_of_suffix {ending : JsString} (h : ending <:+ text) :
    byteLength ending ≤ byteLength text := by
  obtain ⟨front, rfl⟩ := h
  exact (byteLength_le_append front ending).2

/-! ## Well-formed texts -/

/-- A well-formed text does not begin inside a pair. -/
theorem splitsPair_of_isWellFormed (left : JsString) (h : isWellFormed right) :
    splitsPair left right = false := by
  cases right with
  | nil => simp [splitsPair]
  | cons => simp [splitsPair, isLowSurrogate_head_of_isWellFormed h]

theorem isWellFormed_iff : isWellFormed text ↔ ∀ char ∈ characters text, isWellFormed char := by
  fun_induction characters text with
  | case1 => simp [isWellFormed]
  | case2 => simp
  | case3 unit next rest hpair ih =>
    rw [and_eq_true] at hpair
    simp [isWellFormed, hpair, ih]
  | case4 unit next rest hpair ih =>
    rw [forall_mem_cons, ← ih]
    cases hhigh : isHighSurrogate unit with
    | true => simp_all [isWellFormed]
    | false => simp [isWellFormed, hhigh]

theorem isWellFormed_of_mem_characters (h : isWellFormed text) :
    ∀ char ∈ characters text, isWellFormed char :=
  isWellFormed_iff.mp h

theorem isWellFormed_append (hleft : isWellFormed left)
    (hright : isWellFormed right) : isWellFormed (left ++ right) := by
  rw [isWellFormed_iff, characters_append (splitsPair_of_isWellFormed left hright), forall_mem_append]
  exact ⟨isWellFormed_of_mem_characters hleft, isWellFormed_of_mem_characters hright⟩

theorem isWellFormed_flatMap {α : Type} {pieces : List α} {text : α → JsString}
    (h : ∀ piece ∈ pieces, isWellFormed (text piece)) :
    isWellFormed (pieces.flatMap text) := by
  induction pieces with
  | nil => rfl
  | cons piece rest ih =>
    exact isWellFormed_append (h piece mem_cons_self)
      (ih fun item hitem ↦ h item (mem_cons_of_mem _ hitem))

/-- An end of a well-formed text may begin with the second half of a pair. -/
theorem isWellFormed_drop (h : isWellFormed text) (count : ℕ) : isWellFormed (text.drop count) ∨
      ∃ low rest, text.drop count = low :: rest ∧ isLowSurrogate low ∧ isWellFormed rest := by
  fun_induction isWellFormed text generalizing count with
  | case1 => simp [isWellFormed]
  | case2 =>
    cases count with
    | zero => exact .inl h
    | succ => simp [isWellFormed]
  | case3 unit next rest hhigh ih =>
    have hparts := and_eq_true_iff.mp h
    rcases count with _ | _ | count
    · exact .inl (by rw [drop_zero, isWellFormed, if_pos hhigh, h])
    · exact .inr ⟨next, rest, rfl, hparts⟩
    · exact ih hparts.2 count
  | case4 unit next rest hhigh ih =>
    have hparts := and_eq_true_iff.mp h
    cases count with
    | zero => exact .inl (by rw [drop_zero, isWellFormed, if_neg hhigh, h])
    | succ count => exact ih hparts.2 count

end GajaeCode.Text
