import GajaeCode.Text.Utf8
import GajaeCode.Text.Lines

/-!
# Files of lines

A file that is read as UTF-8 and cut at its newlines. Behind a newline, or at the start, a line is
appended without touching the lines before it, whatever bytes the file holds. A line of which
only some bytes reached the file reads as a part of its text, possibly with a replacement
character behind it.
-/

namespace GajaeCode.Text

open List

variable {torn bytes : Bytes}

/-! ## Decoding in pieces -/

/-- What the decoder emits for some bytes, and the state it is left in. -/
def feedBytes (state : Utf8State) : Bytes → List ℕ × Utf8State
  | [] => ([], state)
  | byte :: rest =>
      ((feedByte state byte.toNat).1 ++ (feedBytes (feedByte state byte.toNat).2 rest).1,
        (feedBytes (feedByte state byte.toNat).2 rest).2)

section

variable (state : Utf8State)

theorem decodeScalars_append (left right : Bytes) : decodeScalars state (left ++ right) =
      (feedBytes state left).1 ++ decodeScalars (feedBytes state left).2 right := by
  induction left generalizing state with
  | nil => rfl
  | cons byte rest ih => simp [decodeScalars, feedBytes, ih]

theorem decodeScalars_eq (bytes : Bytes) : decodeScalars state bytes = (feedBytes state bytes).1 ++
      if (feedBytes state bytes).2.needed = 0 then [] else [0xFFFD] := by
  have happend := decodeScalars_append state bytes []
  rwa [append_nil, decodeScalars] at happend

/-- A byte that emits nothing leaves a sequence open. -/
theorem feedByte_emits (byte : ℕ) (h : (feedByte state byte).1 = []) :
    (feedByte state byte).2.needed ≠ 0 := by
  have hlead (h : (leadByte byte).1 = []) : (leadByte byte).2.needed ≠ 0 := by
    unfold leadByte at h ⊢
    split_ifs at h ⊢ <;> simp_all
  unfold feedByte at h ⊢
  split_ifs at h ⊢ with hneeded hrange hlast
  · exact hlead h
  · change state.needed - 1 ≠ 0
    omega

theorem feedBytes_emits (hne : bytes ≠ [])
    (h : (feedBytes state bytes).1 = []) : (feedBytes state bytes).2.needed ≠ 0 := by
  induction bytes generalizing state with
  | nil => exact absurd rfl hne
  | cons byte rest ih =>
    rw [feedBytes, append_eq_nil_iff] at h
    cases rest with
    | nil => exact feedByte_emits state byte.toNat h.1
    | cons next others => exact ih _ (cons_ne_nil next others) h.2

theorem decodeScalars_ne_nil (hne : bytes ≠ []) : decodeScalars state bytes ≠ [] := by
  rw [decodeScalars_eq]
  intro h
  obtain ⟨houtput, hend⟩ := append_eq_nil_iff.mp h
  rw [if_neg (feedBytes_emits state hne houtput)] at hend
  simp at hend

end

/-- The first bytes of a scalar value read as one replacement character. -/
theorem decodeScalars_torn_scalar {scalar : ℕ} (h : IsScalar scalar) {rest : Bytes}
    (hsplit : scalarBytes scalar = torn ++ rest) (hrest : rest ≠ []) (htorn : torn ≠ []) :
    decodeScalars .initial torn = [0xFFFD] := by
  have hwhole : (feedBytes .initial torn).1 ++ decodeScalars (feedBytes .initial torn).2 rest =
      [scalar] := by
    rw [← decodeScalars_append, ← hsplit]
    simpa [decodeScalars, Utf8State.initial] using decodeScalars_scalarBytes_append h []
  -- the rest emits the one scalar value, so nothing was emitted before
  have hsilent : (feedBytes .initial torn).1 = [] := by
    have hlength := congrArg length hwhole
    have hpos := length_pos_iff.mpr (decodeScalars_ne_nil (feedBytes .initial torn).2 hrest)
    rw [length_append, length_singleton] at hlength
    exact length_eq_zero_iff.mp (by omega)
  rw [decodeScalars_eq, hsilent, if_neg (feedBytes_emits _ htorn hsilent), nil_append]

theorem decodeScalars_torn {values : List ℕ} (h : ∀ value ∈ values, IsScalar value)
    (htorn : torn <+: values.flatMap scalarBytes) :
    ∃ head junk, head <+: values ∧ (junk = [] ∨ junk = [0xFFFD]) ∧
      decodeScalars .initial torn = head ++ junk := by
  induction values generalizing torn with
  | nil =>
    rw [flatMap_nil, prefix_nil] at htorn
    exact ⟨[], [], nil_prefix, Or.inl rfl, by rw [htorn]; rfl⟩
  | cons value rest ih =>
    have hvalue := h value mem_cons_self
    obtain ⟨cut, hcut⟩ := htorn
    rw [flatMap_cons, append_eq_append_iff] at hcut
    rcases hcut with ⟨missing, hsplit, -⟩ | ⟨more, rfl, hmore⟩
    · by_cases htorn : torn = []
      · exact ⟨[], [], nil_prefix, Or.inl rfl, by rw [htorn]; rfl⟩
      by_cases hmissing : missing = []
      · refine ⟨[value], [], cons_prefix_cons.mpr ⟨rfl, nil_prefix⟩, Or.inl rfl, ?_⟩
        rw [hmissing, append_nil] at hsplit
        simpa [hsplit, decodeScalars, Utf8State.initial] using
          decodeScalars_scalarBytes_append hvalue []
      · exact ⟨[], [0xFFFD], nil_prefix, Or.inr rfl,
          decodeScalars_torn_scalar hvalue hsplit hmissing htorn⟩
    · obtain ⟨head, junk, hhead, hjunk, hdecode⟩ :=
        ih (fun value hv ↦ h value (mem_cons_of_mem _ hv)) ⟨cut, hmore.symm⟩
      refine ⟨value :: head, junk, cons_prefix_cons.mpr ⟨rfl, hhead⟩, hjunk, ?_⟩
      rw [decodeScalars_scalarBytes_append hvalue, hdecode, cons_append]

/-- The first bytes of a text read as the start of the text, up to a torn character. -/
theorem decodeUtf8_torn {text : JsString} (hwell : isWellFormed text)
    (htorn : torn <+: encodeUtf8 text) :
    ∃ head junk, head <+: text ∧ (junk = [] ∨ junk = [replacementUnit]) ∧
      decodeUtf8 torn = head ++ junk := by
  obtain ⟨head, junk, ⟨cut, hcut⟩, hjunk, hdecode⟩ :=
    decodeScalars_torn (isScalar_of_mem_scalars text) htorn
  refine ⟨head.flatMap scalarUnits, junk.flatMap scalarUnits, ⟨cut.flatMap scalarUnits, ?_⟩, ?_, ?_⟩
  · calc
      head.flatMap scalarUnits ++ cut.flatMap scalarUnits = (scalars text).flatMap scalarUnits := by
        rw [← flatMap_append, hcut]
      _ = text := by
        rw [flatMap_scalarUnits_scalars]
        exact (toWellFormed_eq_self_iff text).mpr hwell
  · rcases hjunk with rfl | rfl
    · exact Or.inl rfl
    · exact .inr (by simp [scalarUnits_replacement])
  · rw [decodeUtf8, hdecode, flatMap_append]

/-! ## Newlines -/

/-- The byte of a newline. -/
def lineBreak : UInt8 := 0x0A

/-- While a sequence is open, no byte of the ASCII range continues it. -/
theorem feedByte_lower (state : Utf8State) (byte : ℕ) : 0x80 ≤ (feedByte state byte).2.lower := by
  have hlead : 0x80 ≤ (leadByte byte).2.lower := by
    unfold leadByte
    split_ifs <;> simp [Utf8State.initial]
  unfold feedByte
  split_ifs <;> simp_all [Utf8State.initial]

theorem feedBytes_lower (state : Utf8State) (bytes : Bytes) (h : 0x80 ≤ state.lower) :
    0x80 ≤ (feedBytes state bytes).2.lower := by
  induction bytes generalizing state with
  | nil => exact h
  | cons byte rest ih => exact ih _ (feedByte_lower state byte.toNat)

theorem decodeScalars_lineBreak {state : Utf8State} (h : 0x80 ≤ state.lower) (rest : Bytes) :
    decodeScalars state (lineBreak :: rest) =
      decodeScalars state [] ++ 0x0A :: decodeScalars .initial rest := by
  have hbyte : lineBreak.toNat = 0x0A := rfl
  have hlead : leadByte 0x0A = ([0x0A], .initial) := rfl
  have hrange : ¬ (state.lower ≤ 0x0A ∧ 0x0A ≤ state.upper) := by omega
  rw [decodeScalars, decodeScalars, hbyte, feedByte, hlead, if_neg hrange]
  split_ifs <;> rfl

theorem decodeUtf8_lineBreak (left right : Bytes) :
    decodeUtf8 (left ++ lineBreak :: right) = decodeUtf8 left ++ newlineUnit :: decodeUtf8 right := by
  have hlower : 0x80 ≤ (feedBytes .initial left).2.lower :=
    feedBytes_lower .initial left (by decide)
  have hleft : decodeScalars .initial left = (feedBytes .initial left).1 ++
      decodeScalars (feedBytes .initial left).2 [] := by
    rw [← decodeScalars_append, append_nil]
  have hunits : scalarUnits 0x0A = [newlineUnit] := by decide
  simp only [decodeUtf8]
  rw [decodeScalars_append, decodeScalars_lineBreak hlower, ← append_assoc, ← hleft,
    flatMap_append, flatMap_cons, hunits, singleton_append]

/-! ## Lines -/

/-- The file is empty or its last line is closed. -/
def isTerminated (file : Bytes) : Bool := file = [] || file.getLast? = some lineBreak

/-- The lines of a file, without the empty ones. -/
def fileLines (file : Bytes) : List JsString :=
  (splitLines (decodeUtf8 file)).filter fun line ↦ line ≠ []

theorem fileLines_nil : fileLines [] = [] := by decide

/-- Bytes behind a closed line add lines and change none. -/
theorem fileLines_append {file : Bytes} (h : isTerminated file) (tail : Bytes) :
    fileLines (file ++ tail) = fileLines file ++ fileLines tail := by
  simp only [isTerminated, Bool.or_eq_true, decide_eq_true_eq] at h
  rcases h with rfl | hlast
  · rw [fileLines_nil, nil_append, nil_append]
  · obtain ⟨front, rfl⟩ := getLast?_eq_some_iff.mp hlast
    have hsplit (right) (left) :
        splitLines (decodeUtf8 left ++ newlineUnit :: right) =
          splitLines (decodeUtf8 left) ++ splitLines right :=
      splitOn_append_cons_self (decodeUtf8 left) right
    have hempty : decodeUtf8 [] = [] := by decide
    rw [fileLines, fileLines, fileLines, append_assoc, singleton_append,
      decodeUtf8_lineBreak, decodeUtf8_lineBreak, hsplit, hsplit, hempty, filter_append,
      filter_append]
    simp [splitLines]

/-- The bytes of a line. -/
def lineBytes (text : JsString) : Bytes := encodeUtf8 (text ++ [newlineUnit])

theorem scalars_concat_newline (text : JsString) :
    scalars (text ++ [newlineUnit]) = scalars text ++ [0x0A] := by
  have hend : scalars [newlineUnit] = [0x0A] := by decide
  have hlow : isLowSurrogate newlineUnit = false := by decide
  fun_induction scalars text with
  | case1 => exact hend
  | case2 =>
    rw [singleton_append, scalars, hend]
    split_ifs <;> simp_all
  | case3 unit next rest hhigh hlow ih => simp [scalars, hhigh, hlow, ih]
  | case4 unit next rest hhigh hlow ih =>
    rw [cons_append] at ih
    simp [scalars, hhigh, hlow, ih]
  | case5 unit next rest hhigh hlow ih | case6 unit next rest hhigh hlow ih =>
    rw [cons_append] at ih
    simp [scalars, hhigh, hlow, ih]

theorem lineBytes_eq (text : JsString) : lineBytes text = encodeUtf8 text ++ [lineBreak] := by
  rw [lineBytes, encodeUtf8, scalars_concat_newline, flatMap_append]
  rfl

section

variable {text : JsString} (hwell : isWellFormed text = true) (hline : newlineUnit ∉ text)

include hwell hline

/-- A written line is read back. -/
theorem fileLines_lineBytes (hne : text ≠ []) : fileLines (lineBytes text) = [text] := by
  have hdecode : decodeUtf8 (lineBytes text) = text ++ [newlineUnit] := by
    rw [lineBytes_eq, decodeUtf8_lineBreak, (decodeUtf8_encodeUtf8_eq_self_iff text).mpr hwell]
    rfl
  have hsplit : splitLines (text ++ [newlineUnit]) = splitLines text ++ splitLines [] :=
    splitOn_append_cons_self text []
  rw [fileLines, hdecode, hsplit, splitLines_eq_singleton hline]
  simp [splitLines, hne]

/-- Some first bytes of a line read as nothing, or as one line that starts it. -/
theorem fileLines_torn (hne : text ≠ []) (htorn : torn <+: lineBytes text) :
    fileLines torn = [] ∨ ∃ head junk, head <+: text ∧ (junk = [] ∨ junk = [replacementUnit]) ∧
      fileLines torn = [head ++ junk] := by
  rw [lineBytes_eq, prefix_concat_iff] at htorn
  rcases htorn with rfl | htorn
  · rw [← lineBytes_eq]
    exact .inr ⟨text, [], prefix_rfl, Or.inl rfl,
      by rw [fileLines_lineBytes hwell hline hne, append_nil]⟩
  · obtain ⟨head, junk, hhead, hjunk, hdecode⟩ := decodeUtf8_torn hwell htorn
    have hnone : newlineUnit ∉ head ++ junk := by
      rw [mem_append, not_or]
      refine ⟨fun hmem ↦ hline (hhead.subset hmem), ?_⟩
      rcases hjunk with rfl | rfl <;> decide
    rw [fileLines, hdecode, splitLines_eq_singleton hnone]
    by_cases hempty : head ++ junk = []
    · exact .inl (by simp [hempty])
    · exact .inr ⟨head, junk, hhead, hjunk, by simp [hempty]⟩

end

end GajaeCode.Text
