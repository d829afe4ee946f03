import GajaeCode.Query.StringIndex

/-!
# What the serialiser writes for a string

The bytes of a string are the encodings of its characters between two quotes, whatever the sizes of
the pieces that the serialiser appends. Every checkpoint of the index is a boundary between
characters, given by its offset in the string and by its offset in the bytes.
-/

namespace GajaeCode.Query

open Text Json Chain List ChunkWriter

variable {limits : StoreLimits} {pieces : List JsString}

/-! ## Characters -/

/-- A text without unpaired surrogates is not cut inside a pair at its end. -/
theorem splitsPair_left_of_isWellFormed {left : JsString} (h : isWellFormed left) (right : JsString) :
    splitsPair left right = false := by
  cases left using reverseRecOn with
  | nil => rfl
  | append_singleton front unit =>
    have hlast : isHighSurrogate unit = false := by
      have hdrop := isWellFormed_drop h front.length
      rw [drop_left] at hdrop
      rcases hdrop with hunit | ⟨low, rest, ⟨⟩, hlow, -⟩
      · simp_all [isWellFormed]
      · exact isHighSurrogate_of_isLowSurrogate hlow
    simp [splitsPair, hlast]

theorem encodeUnit_eq_quoteBody (unit : UInt16) : encodeUnit unit = quoteBody [unit] := by
  have hshort : isHighSurrogate unit || isLowSurrogate unit → shortEscape unit = none := by
    intro hsurr
    unfold shortEscape
    split_ifs with h1 h2 h3 h4 h5 h6 h7
    all_goals first | rfl | (exfalso; subst_vars; revert hsurr; decide)
  rw [encodeUnit, quoteBody, escapeUnit, Bool.or_assoc]
  cases hsurr : isHighSurrogate unit || isLowSurrogate unit with
  | true => simp [hshort hsurr]
  | false =>
    cases shortEscape unit with
    | some => rfl
    | none => simp

/-- The loop goes through the characters of the value. -/
theorem encodeLoop_eq_foldl (limits : StoreLimits) (state : EncodeState) (value : JsString) :
    encodeLoop limits state value =
      (characters value).foldl (fun state char ↦ state.emit limits (quoteBody char) char)
        state := by
  fun_induction characters value generalizing state with
  | case1 => rfl
  | case2 => rw [encodeLoop, encodeUnit_eq_quoteBody, foldl_cons, foldl_nil]
  | case3 unit next rest hpair ih =>
    have hquote : quoteBody [unit, next] = [unit, next] := by
      rw [Bool.and_eq_true] at hpair
      simp [quoteBody, hpair.1, hpair.2]
    rw [encodeLoop, if_pos hpair, ih, foldl_cons, hquote]
  | case4 unit next rest hpair ih =>
    rw [encodeLoop, if_neg hpair, ih, foldl_cons, encodeUnit_eq_quoteBody]

/-! ## Bytes -/

/-- The bytes of a character between the quotes. -/
def characterBytes (character : JsString) : Bytes := encodeUtf8 (quoteBody character)

/-- The bytes written so far, those of the pending output included. -/
def EncodeState.bytes (state : EncodeState) : Bytes := state.writer.bytes ++ encodeUtf8 state.output

theorem EncodeState.emit_bytes (hlimits : 4 ≤ limits.chunkBytes)
    {state : EncodeState} (hstate : isWellFormed state.output) {character : JsString}
    (h : IsCharacter character) :
    (state.emit limits (quoteBody character) character).bytes = state.bytes ++ characterBytes character ∧
      isWellFormed (state.emit limits (quoteBody character) character).output := by
  have houtput : encodeUtf8 (state.output ++ quoteBody character) =
      encodeUtf8 state.output ++ characterBytes character :=
    encodeUtf8_append (splitsPair_left_of_isWellFormed hstate _)
  unfold EncodeState.emit EncodeState.bytes
  dsimp only
  split_ifs
  · have hempty : encodeUtf8 [] = [] := rfl
    rw [bytes_append hlimits, houtput, hempty, append_nil, append_assoc]
    exact ⟨rfl, rfl⟩
  · rw [houtput, append_assoc]
    exact ⟨rfl, isWellFormed_append hstate (isOneLine_quoteBody_character h).1⟩

theorem foldl_emit_bytes (hlimits : 4 ≤ limits.chunkBytes) {state : EncodeState}
    (hstate : isWellFormed state.output) (h : ∀ piece ∈ pieces, IsCharacter piece) :
    (pieces.foldl (fun state piece ↦ state.emit limits (quoteBody piece) piece) state).bytes =
      state.bytes ++ pieces.flatMap characterBytes := by
  induction pieces generalizing state with
  | nil => exact (append_nil _).symm
  | cons piece rest ih =>
    obtain ⟨hbytes, houtput⟩ := EncodeState.emit_bytes hlimits hstate (h piece mem_cons_self)
    rw [foldl_cons, ih houtput fun other hother ↦ h other (mem_cons_of_mem _ hother), hbytes,
      append_assoc, flatMap_cons]

/-- A string is written as its characters between two quotes. -/
theorem encodeString_bytes (hlimits : 4 ≤ limits.chunkBytes) (writer : ChunkWriter)
    (value : JsString) (indexEscapedString : Bool) :
    (encodeString limits writer value indexEscapedString).1.bytes =
      writer.bytes ++ (0x22 :: ((characters value).flatMap characterBytes ++ [0x22])) := by
  have hquote : encodeUtf8 [quoteUnit] = [0x22] := by decide
  rw [encodeString, encodeLoop_eq_foldl]
  generalize hopened : EncodeState.mk _ _ _ _ = opened
  have hbytes : opened.bytes = writer.bytes ++ [0x22] := by
    rw [← hopened, EncodeState.bytes, bytes_append hlimits, hquote]
    exact append_nil _
  have hempty : isWellFormed opened.output := by
    rw [← hopened]
    rfl
  have hpieces : ∀ piece ∈ characters value, IsCharacter piece :=
    fun piece hpiece ↦ isCharacter_of_mem_characters hpiece
  have hfold := foldl_emit_bytes hlimits hempty hpieces
  generalize (characters value).foldl _ opened = state at hfold ⊢
  have hwritten : (if state.output = [] then state.writer
      else state.writer.append limits.chunkBytes state.output).bytes = state.bytes := by
    rw [EncodeState.bytes]
    split_ifs with hempty
    · rw [hempty]
      exact (append_nil _).symm
    · exact bytes_append hlimits _ _
  rw [bytes_append hlimits, hwritten, hfold, hbytes, hquote]
  simp

/-! ## The index -/

/-- A boundary between characters, with its offset in the string and in the bytes. -/
def IsCheckpoint (pieces : List JsString) (checkpoint : StringCheckpoint) : Prop :=
  ∃ front rest, pieces = front ++ rest ∧ checkpoint.decodedOffset = totalSize byteLength front ∧
    checkpoint.serializedOffset = 1 + (front.flatMap characterBytes).length

theorem IsCheckpoint.append {checkpoint : StringCheckpoint}
    (h : IsCheckpoint pieces checkpoint) (more : List JsString) :
    IsCheckpoint (pieces ++ more) checkpoint := by
  obtain ⟨front, rest, rfl, hoffsets⟩ := h
  exact ⟨front, rest ++ more, append_assoc _ _ _, hoffsets⟩

/-- The index of some characters. -/
structure EscapedStringIndex.Covers (index : EscapedStringIndex) (pieces : List JsString) : Prop where
  byteLength : index.byteLength = totalSize Text.byteLength pieces
  first : index.checkpoints.head? = some ⟨0, 1⟩
  checkpoints : ∀ checkpoint ∈ index.checkpoints, IsCheckpoint pieces checkpoint

namespace EscapedStringIndex.Covers

variable {idx : EscapedStringIndex} {pieces : List JsString}

theorem push (h : idx.Covers pieces) :
    (idx.push (1 + (pieces.flatMap characterBytes).length)).Covers pieces where
  byteLength := h.byteLength
  first := by
    rw [EscapedStringIndex.push, head?_append, h.first]
    rfl
  checkpoints := by
    intro check hcheck
    rcases mem_append.mp hcheck with hold | hnew
    · exact h.checkpoints check hold
    · rw [mem_singleton] at hnew
      rw [hnew]
      exact ⟨pieces, [], (append_nil _).symm, h.byteLength, rfl⟩

theorem advance (h : idx.Covers pieces) (limits : StoreLimits) (piece : JsString) :
    (idx.advance limits (Text.byteLength piece)
      (1 + ((pieces ++ [piece]).flatMap characterBytes).length)).Covers (pieces ++ [piece]) := by
  have hlonger : EscapedStringIndex.Covers
      { idx with byteLength := idx.byteLength + Text.byteLength piece } (pieces ++ [piece]) :=
    { byteLength := by
        rw [h.byteLength, totalSize_append, totalSize_cons, totalSize_nil]
        rfl
      first := h.first
      checkpoints := fun check hcheck ↦ (h.checkpoints check hcheck).append _ }
  unfold EscapedStringIndex.advance
  dsimp only
  split_ifs
  · exact hlonger.push
  · exact hlonger

theorem close (h : idx.Covers pieces) :
    (idx.close (1 + (pieces.flatMap characterBytes).length)).Covers pieces := by
  unfold EscapedStringIndex.close
  split_ifs
  · exact h.push
  · exact h

end EscapedStringIndex.Covers

/-- The loop's index covers the characters it has gone through. -/
theorem foldl_emit_covers (limits : StoreLimits) (state : EncodeState) (idx : EscapedStringIndex)
    (done pieces : List JsString) (hidx : state.stringIndex = some idx) (hcovers : idx.Covers done)
    (hoffset : state.serializedOffset = 1 + (done.flatMap characterBytes).length) :
    ∃ final, (pieces.foldl (fun state piece ↦ state.emit limits (quoteBody piece) piece)
        state).stringIndex = some final ∧ final.Covers (done ++ pieces) ∧
      (pieces.foldl (fun state piece ↦ state.emit limits (quoteBody piece) piece)
        state).serializedOffset = 1 + ((done ++ pieces).flatMap characterBytes).length := by
  induction pieces generalizing state idx done with
  | nil =>
    rw [append_nil]
    exact ⟨idx, hidx, hcovers, hoffset⟩
  | cons piece rest ih =>
    have hnext : state.serializedOffset + byteLength (quoteBody piece) =
        1 + ((done ++ [piece]).flatMap characterBytes).length := by
      rw [hoffset, flatMap_append, length_append, flatMap_singleton, Nat.add_assoc]
      rfl
    have hstep := ih (state.emit limits (quoteBody piece) piece)
      (idx.advance limits (byteLength piece) (state.serializedOffset + byteLength (quoteBody piece)))
      (done ++ [piece]) (by rw [EscapedStringIndex.advance, EncodeState.emit, hidx]; rfl)
      (by rw [hnext]; exact hcovers.advance limits piece) hnext
    rwa [append_assoc, singleton_append] at hstep

theorem totalSize_characters (value : JsString) : totalSize byteLength (characters value) = byteLength value := by
  rw [byteLength, encodeUtf8_eq_flatMap_characters, length_flatMap]
  rfl

/-- The index of a string covers its characters. -/
theorem encodeString_covers (limits : StoreLimits) (writer : ChunkWriter) (value : JsString) :
    ∃ idx, (encodeString limits writer value true).2 = some idx ∧
      idx.Covers (characters value) := by
  have hopened : EscapedStringIndex.opened.Covers [] :=
    { byteLength := rfl
      first := rfl
      checkpoints := by
        intro check hcheck
        rw [EscapedStringIndex.opened, mem_singleton] at hcheck
        rw [hcheck]
        exact ⟨[], [], rfl, rfl, rfl⟩ }
  obtain ⟨idx, hidx, hcovers, hoffset⟩ :=
    foldl_emit_covers limits ⟨writer.append limits.chunkBytes [quoteUnit], [], 1, some .opened⟩ _ []
      (characters value) rfl hopened rfl
  rw [encodeString, encodeLoop_eq_foldl, if_pos rfl]
  rw [hidx, hoffset]
  exact ⟨_, rfl, hcovers.close⟩

/-! ## Checkpoints -/

/-- The checkpoint that is found is one of the index, and not behind the offset. -/
theorem stringCheckpointAtOrBefore_spec {checkpoints : List StringCheckpoint}
    (hfirst : checkpoints.head? = some ⟨0, 1⟩) (offset : ℕ) :
    ∃ check ∈ checkpoints, stringCheckpointAtOrBefore checkpoints offset = some check ∧
      check.decodedOffset ≤ offset := by
  -- in front of `low` there is a checkpoint that is not behind the offset
  have hsearch : ∀ fuel low high, (low = 0 ∨ ∃ check, checkpoints[low - 1]? = some check ∧
        check.decodedOffset ≤ offset) →
      ∃ check, checkpoints[checkpointSearch checkpoints offset fuel low high - 1]? = some check ∧
        check.decodedOffset ≤ offset := by
    intro fuel
    induction fuel with
    | zero =>
      intro low high hlow
      rw [checkpointSearch]
      rcases hlow with rfl | hlow
      · exact ⟨⟨0, 1⟩, by rwa [← head?_eq_getElem?], Nat.zero_le _⟩
      · exact hlow
    | succ fuel ih =>
      intro low high hlow
      rw [checkpointSearch]
      split_ifs with hlt hmiddle
      · apply ih
        right
        rw [Option.any_eq_true] at hmiddle
        obtain ⟨check, hfound, hle⟩ := hmiddle
        exact ⟨check, hfound, by simpa using hle⟩
      · exact ih _ _ hlow
      · rcases hlow with rfl | hlow
        · exact ⟨⟨0, 1⟩, by rwa [← head?_eq_getElem?], Nat.zero_le _⟩
        · exact hlow
  obtain ⟨check, hfound, hle⟩ := hsearch checkpoints.length 0 checkpoints.length (Or.inl rfl)
  exact ⟨check, mem_of_getElem? hfound, hfound, hle⟩

end GajaeCode.Query
