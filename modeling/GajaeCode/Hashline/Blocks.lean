import GajaeCode.Hashline.Parser

/-!
# Blocks of a diff

A diff without markers is read as blocks, an operation line with the lines behind it, and the edits of
a diff are the edits of its blocks. Lines in front of the first operation of a diff are skipped when
they are blank, but behind another diff they belong to its last block.
-/

namespace GajaeCode.Hashline

open Text List HashlineEdit

variable {line : JsString} {lines payload : List JsString} {shapes : List EditShape}
  {blocks : List (JsString × List JsString)} {ε α : Type}

/-! ## Line numbers -/

theorem toOption_parseLid (raw : JsString) (lineNum : ℕ) (opSigil : OpSigil) :
    (parseLid raw lineNum opSigil).toOption = captureLid raw := by
  unfold parseLid
  cases captureLid raw with
  | some => rfl
  | none =>
    cases captureHashOnly raw with
    | some => rfl
    | none => cases captureBareLine raw <;> rfl

theorem toOption_error (error : ε) : (Except.error error : Except ε α).toOption = none := rfl

theorem toOption_bind {β : Type} (result : Except ε α) (next : α → Except ε β) :
    (result >>= next).toOption = result.toOption.bind fun value ↦ (next value).toOption := by
  cases result <;> rfl

theorem toOption_mapError {ε' : Type} (f : ε → ε') (result : Except ε α) :
    (result.mapError f).toOption = result.toOption := by
  cases result <;> rfl

theorem toOption_map {β : Type} (f : α → β) (result : Except ε α) :
    (result.map f).toOption = result.toOption.map f := by
  cases result <;> rfl

section

variable (lineNum lineNum' : ℕ)

/-- Line numbers only stand in errors. -/
theorem toOption_parseRange (raw : JsString) (opSigil : OpSigil) :
    (parseRange raw lineNum opSigil).toOption = (parseRange raw lineNum' opSigil).toOption := by
  have hends (startRaw endRaw) : (parseRangeEnds startRaw endRaw lineNum opSigil).toOption =
      (parseRangeEnds startRaw endRaw lineNum' opSigil).toOption := by
    simp only [parseRangeEnds, toOption_bind, toOption_mapError, toOption_parseLid]
    congr 1
    funext start
    congr 1
    funext stop
    split_ifs <;> simp only [toOption_error]
  have hparts : (parseRangeParts raw lineNum opSigil).toOption =
      (parseRangeParts raw lineNum' opSigil).toOption := by
    unfold parseRangeParts
    split
    · rw [toOption_map, toOption_map, toOption_parseLid, toOption_parseLid]
    · split_ifs
      · rfl
      · exact hends _ _
    · rfl
  unfold parseRange
  split_ifs
  · simp [toOption_bind, toOption_parseLid, hparts]
  · exact hparts

variable (computeLineHash : ℕ → JsString → JsString)

theorem toOption_parseInsert (opSigil : OpSigil) (target : JsString) (body : Option JsString) :
    (parseInsert computeLineHash opSigil lineNum target body).toOption =
      (parseInsert computeLineHash opSigil lineNum' target body).toOption := by
  have htarget : (parseInsertTarget target lineNum opSigil).toOption =
      (parseInsertTarget target lineNum' opSigil).toOption := by
    unfold parseInsertTarget
    split_ifs
    · rfl
    · rfl
    all_goals rw [toOption_map, toOption_map, toOption_parseLid, toOption_parseLid]
  rw [parseInsert, parseInsert, toOption_bind, toOption_bind, htarget]

theorem toOption_parseOpLine (line : JsString) :
    (parseOpLine computeLineHash lineNum line).toOption =
      (parseOpLine computeLineHash lineNum' line).toOption := by
  unfold parseOpLine
  cases captureInsert .insertBefore line with
  | some => exact toOption_parseInsert lineNum lineNum' computeLineHash _ _ _
  | none =>
    cases captureInsert .insertAfter line with
    | some => exact toOption_parseInsert lineNum lineNum' computeLineHash _ _ _
    | none =>
      cases captureReplace line with
      | some =>
        simp only [toOption_map]
        rw [toOption_parseRange lineNum lineNum']
      | none =>
        split_ifs <;> simp only [toOption_error]

end

/-! ## Blocks -/

/-- The line begins with the sigil of an operation. -/
def startsOp (line : JsString) : Bool := line.head?.any isOpUnit

/-- Neither a marker nor a header. -/
def IsPlain (line : JsString) : Prop :=
  isEnvelopeOrAbortMarkerLine line = false ∧ line.head? ≠ some filePrefixUnit

/-- The lines before the first operation, and every operation with the lines behind it. -/
def splitBlocks : List JsString → List JsString × List (JsString × List JsString)
  | [] => ([], [])
  | line :: rest =>
    if startsOp line then ([], (line, (splitBlocks rest).1) :: (splitBlocks rest).2)
    else (line :: (splitBlocks rest).1, (splitBlocks rest).2)

theorem splitBlocks_cons_op (h : startsOp line) (rest : List JsString) :
    splitBlocks (line :: rest) = ([], (line, (splitBlocks rest).1) :: (splitBlocks rest).2) :=
  if_pos h

theorem splitBlocks_cons_text (h : startsOp line = false) (rest : List JsString) :
    splitBlocks (line :: rest) = (line :: (splitBlocks rest).1, (splitBlocks rest).2) :=
  if_neg (by simp [h])

/-- The payload is what stands before the next operation. -/
theorem takeWhile_eq_splitBlocks (hplain : ∀ line ∈ lines, IsPlain line) :
    lines.takeWhile (!isPayloadTerminatorLine ·) = (splitBlocks lines).1 := by
  induction lines with
  | nil => rfl
  | cons line rest ih =>
    obtain ⟨hmarker, hfile⟩ := hplain line mem_cons_self
    have hline : isPayloadTerminatorLine line = startsOp line := by
      simp [isPayloadTerminatorLine, startsOp, hmarker, hfile]
    have hrest := ih fun other hother ↦ hplain other (mem_cons_of_mem _ hother)
    cases hop : startsOp line with
    | true => rw [splitBlocks_cons_op hop, takeWhile_cons, if_neg (by simp [hline, hop])]
    | false => rw [splitBlocks_cons_text hop, takeWhile_cons, if_pos (by simp [hline, hop]), hrest]

/-- Behind the lines before the first operation, the blocks are the same. -/
theorem splitBlocks_drop (lines : List JsString) :
    splitBlocks (lines.drop (splitBlocks lines).1.length) = ([], (splitBlocks lines).2) := by
  induction lines with
  | nil => rfl
  | cons line rest ih =>
    cases hline : startsOp line with
    | true => rw [splitBlocks_cons_op hline, length_nil, drop_zero, splitBlocks_cons_op hline]
    | false => rw [splitBlocks_cons_text hline, length_cons, drop_succ_cons, ih]

def HashlineOp.needsPayload : HashlineOp → Bool
  | .insert _ _ (some _) => true
  | .insert _ _ none => false
  | .replace _ => false

section

variable (computeLineHash : ℕ → JsString → JsString)

/-- The edits of one block. -/
def readBlock (block : JsString × List JsString) : Option (List EditShape) :=
  (parseOpLine computeLineHash 1 block.1).toOption.bind fun op ↦
    if op.needsPayload = true ∧ block.2 = [] then none else some (op.shapes block.2)

def readBlocks : List (JsString × List JsString) → Option (List EditShape)
  | [] => some []
  | block :: rest =>
    (readBlock computeLineHash block).bind fun first ↦ (readBlocks rest).map (first ++ ·)

/-- The edits of lines without markers: only blank lines may stand before the first operation. -/
def readShapes (lines : List JsString) : Option (List EditShape) :=
  if (splitBlocks lines).1.all isBlank then readBlocks computeLineHash (splitBlocks lines).2 else none

variable {computeLineHash}

theorem readBlocks_append (blocks blocks' : List (JsString × List JsString)) :
    readBlocks computeLineHash (blocks ++ blocks') =
      (readBlocks computeLineHash blocks).bind fun first ↦
        (readBlocks computeLineHash blocks').map (first ++ ·) := by
  induction blocks with
  | nil =>
    exact Option.map_id'.symm
  | cons block rest ih =>
    rw [cons_append, readBlocks, readBlocks, ih]
    simp only [Option.bind_assoc, Option.map_bind, Option.bind_map, Option.map_map,
      Function.comp_def, append_assoc]

theorem toOption_collectPayload (opLineNum : ℕ) (op : HashlineOp) {rest : List JsString}
    (hplain : ∀ line ∈ rest, IsPlain line) :
    (collectPayload opLineNum op rest).toOption =
      if op.needsPayload ∧ (splitBlocks rest).1 = [] then none else some (splitBlocks rest).1 := by
  unfold collectPayload
  rw [takeWhile_eq_splitBlocks hplain]
  cases (splitBlocks rest).1 with
  | nil =>
    cases op with
    | insert cursor inlineBody emptyInsert => cases emptyInsert <;> rfl
    | replace => rfl
  | cons => simp [Except.toOption]

theorem map_shape_toEdit (lineNum idx : ℕ) (shapes : List EditShape) :
    ((shapes.zipIdx idx).map (EditShape.toEdit lineNum)).map shape = shapes := by
  rw [map_map]
  have hshape : shape ∘ EditShape.toEdit lineNum = Prod.fst := by
    funext ⟨shape, idx⟩
    cases shape <;> rfl
  rw [hshape, zipIdx_map_fst]

theorem startsOp_of_isBlank (h : isBlank line) : startsOp line = false := by
  cases line with
  | nil => rfl
  | cons unit =>
    have hunit : isTrimmed unit := by
      rw [isBlank, all_cons, Bool.and_eq_true] at h
      exact h.1
    cases hop : isOpUnit unit with
    | false => simp [startsOp, hop]
    | true =>
      simp only [isOpUnit, Bool.or_eq_true, decide_eq_true_eq] at hop
      rcases hop with (rfl | rfl) | rfl <;> cases hunit

/-- Only a line with a sigil is read as an operation. -/
theorem toOption_parseOpLine_of_text (h : startsOp line = false) (lineNum : ℕ) :
    (parseOpLine computeLineHash lineNum line).toOption = none := by
  have hsigil (opSigil : OpSigil) (hop : isOpUnit opSigil.unit) : line.head? ≠ some opSigil.unit := by
    intro hhead
    rw [startsOp, hhead, Option.any_some, hop] at h
    contradiction
  have hinsert (opSigil) (hop : isOpUnit opSigil.unit) : captureInsert opSigil line = none := by
    cases line with
    | nil => rfl
    | cons first =>
      have hfirst : first ≠ opSigil.unit := fun heq ↦ hsigil opSigil hop (congrArg some heq)
      exact if_neg fun hboth ↦ hfirst hboth.1
  have hreplace : captureReplace line = none := by
    cases line with
    | nil => rfl
    | cons first =>
      have hfirst : first ≠ OpSigil.replace.unit := fun heq ↦
        hsigil .replace (by decide) (congrArg some heq)
      exact if_neg fun hall ↦ hfirst hall.1
  rw [parseOpLine, hinsert .insertBefore (by decide), hinsert .insertAfter (by decide), hreplace]
  split_ifs <;> simp only [toOption_error]

theorem ne_marker_of_isPlain {marker : JsString} (h : IsPlain line)
    (hmarker : isEnvelopeOrAbortMarkerLine marker) : line ≠ marker := by
  rintro rfl
  rw [h.1] at hmarker
  contradiction

/-- The parser reads blocks. -/
theorem parseLines_spec (hplain : ∀ line ∈ lines, IsPlain line)
    {rounds : ℕ} (hrounds : lines.length ≤ rounds) (lineNum editIndex : ℕ) :
    (parseLines computeLineHash rounds lineNum editIndex lines).toOption.map
        (fun parsed ↦ parsed.edits.map shape) =
      readShapes computeLineHash lines := by
  induction rounds generalizing lines lineNum editIndex with
  | zero =>
    obtain rfl := length_eq_zero_iff.mp (Nat.le_zero.mp hrounds)
    rfl
  | succ rounds ih =>
    cases lines with
    | nil => rfl
    | cons line rest =>
      have hrest : ∀ other ∈ rest, IsPlain other := fun other hother ↦
        hplain other (mem_cons_of_mem _ hother)
      rw [length_cons] at hrounds
      have hline := hplain line mem_cons_self
      rw [parseLines]
      by_cases hblank : isBlank line
      · rw [if_pos hblank, ih hrest (by omega), readShapes, readShapes,
          splitBlocks_cons_text (startsOp_of_isBlank hblank), all_cons, hblank, Bool.true_and]
      rw [if_neg hblank, if_neg (ne_marker_of_isPlain hline (by decide)),
        if_neg (ne_marker_of_isPlain hline (by decide)), if_neg (ne_marker_of_isPlain hline (by decide)),
        toOption_bind, toOption_parseOpLine lineNum 1]
      cases hop : startsOp line with
      | false =>
        have hnotBlank : isBlank line = false := by simpa using hblank
        rw [toOption_parseOpLine_of_text hop, readShapes, splitBlocks_cons_text hop, all_cons, hnotBlank]
        rfl
      | true =>
        have hread : readShapes computeLineHash (line :: rest) =
            readBlocks computeLineHash ((line, (splitBlocks rest).1) :: (splitBlocks rest).2) := by
          rw [readShapes, splitBlocks_cons_op hop]
          rfl
        rw [hread, readBlocks, readBlock]
        cases (parseOpLine computeLineHash 1 line).toOption with
        | none => rfl
        | some op =>
          simp only [Option.bind_some, toOption_bind, toOption_collectPayload lineNum op hrest]
          by_cases hempty : op.needsPayload ∧ (splitBlocks rest).1 = []
          · rw [if_pos hempty, if_pos hempty]
            rfl
          · rw [if_neg hempty, if_neg hempty, Option.bind_some, Option.bind_some]
            have hbehind (lineNum editIndex) :
                (parseLines computeLineHash rounds lineNum editIndex
                    (rest.drop (splitBlocks rest).1.length)).toOption.map
                  (fun parsed ↦ parsed.edits.map shape) =
                readBlocks computeLineHash (splitBlocks rest).2 := by
              rw [ih (fun other hother ↦ hrest other (mem_of_mem_drop hother))
                (by rw [length_drop]; omega), readShapes, splitBlocks_drop]
              rfl
            rw [← hbehind _ _, Option.map_map, Option.map_bind]
            cases (parseLines computeLineHash rounds _ _ _).toOption with
            | none => rfl
            | some =>
              rw [Option.bind_some, Option.map_some]
              simp only [Function.comp, Except.toOption, Option.map_some, map_append, map_shape_toEdit]

end

/-! ## Lines behind each other -/

section

variable {computeLineHash : ℕ → JsString → JsString}

theorem splitBlocks_append_of_text (h : (splitBlocks lines).2 = []) (lines' : List JsString) :
    splitBlocks (lines ++ lines') = (lines ++ (splitBlocks lines').1, (splitBlocks lines').2) := by
  induction lines with
  | nil => rfl
  | cons line rest ih =>
    cases hline : startsOp line with
    | true =>
      rw [splitBlocks_cons_op hline] at h
      contradiction
    | false =>
      rw [splitBlocks_cons_text hline] at h
      rw [cons_append, splitBlocks_cons_text hline, ih h, cons_append]

theorem splitBlocks_of_text (h : (splitBlocks lines).2 = []) : splitBlocks lines = (lines, []) := by
  simpa [splitBlocks] using splitBlocks_append_of_text h []

/-- The lines before the first operation of what follows belong to the last block. -/
theorem splitBlocks_append {op : JsString}
    (h : (splitBlocks lines).2 = blocks ++ [(op, payload)]) (lines' : List JsString) :
    splitBlocks (lines ++ lines') =
      ((splitBlocks lines).1, blocks ++ (op, payload ++ (splitBlocks lines').1) :: (splitBlocks lines').2) := by
  induction lines generalizing blocks with
  | nil => simp [splitBlocks] at h
  | cons line rest ih =>
    cases hline : startsOp line with
    | false =>
      rw [splitBlocks_cons_text hline] at h ⊢
      rw [cons_append, splitBlocks_cons_text hline, ih h]
    | true =>
      rw [splitBlocks_cons_op hline] at h ⊢
      rw [cons_append, splitBlocks_cons_op hline]
      cases blocks with
      | nil =>
        rw [nil_append, cons.injEq, Prod.mk.injEq] at h
        obtain ⟨⟨rfl, hpayload⟩, hrest⟩ := h
        rw [splitBlocks_of_text hrest] at hpayload
        rw [splitBlocks_append_of_text hrest, ← hpayload, nil_append]
      | cons =>
        rw [cons_append, cons.injEq] at h
        rw [ih h.2, h.1, cons_append]

theorem readShapes_eq_some_iff : readShapes computeLineHash lines = some shapes ↔
      (splitBlocks lines).1.all isBlank ∧
        readBlocks computeLineHash (splitBlocks lines).2 = some shapes := by
  rw [readShapes, Option.ite_none_right_eq_some]

theorem readBlock_eq_some_iff : readBlock computeLineHash (line, payload) = some shapes ↔
      ∃ op, (parseOpLine computeLineHash 1 line).toOption = some op ∧
        ¬ (op.needsPayload ∧ payload = []) ∧ op.shapes payload = shapes := by
  simp only [readBlock, Option.bind_eq_some_iff, Option.ite_none_left_eq_some, Option.some.injEq]

/-- The last of some blocks, with any payload that is not less than it has. -/
theorem readBlocks_concat
    (h : readBlocks computeLineHash (blocks ++ [(line, payload)]) = some shapes) :
    ∃ first op, shapes = first ++ HashlineOp.shapes op payload ∧
      ∀ payload' rest shapes', (payload ≠ [] → payload' ≠ []) →
        readBlocks computeLineHash rest = some shapes' →
        readBlocks computeLineHash (blocks ++ (line, payload') :: rest) =
          some (first ++ op.shapes payload' ++ shapes') := by
  rw [readBlocks_append, Option.bind_eq_some_iff] at h
  obtain ⟨first, hfirst, hlast⟩ := h
  rw [Option.map_eq_some_iff] at hlast
  obtain ⟨last, hlast, rfl⟩ := hlast
  rw [readBlocks, readBlocks, Option.bind_eq_some_iff] at hlast
  obtain ⟨shapes, hblock, hshapes⟩ := hlast
  rw [Option.map_some, append_nil, Option.some.injEq] at hshapes
  obtain ⟨op, hop, hempty, rfl⟩ := readBlock_eq_some_iff.mp hblock
  refine ⟨first, op, by rw [hshapes], fun payload' rest shapes' hpayload hrest ↦ ?_⟩
  have hmore : readBlock computeLineHash (line, payload') = some (op.shapes payload') := by
    apply readBlock_eq_some_iff.mpr ⟨op, hop, fun hnone ↦ ?_, rfl⟩
    apply hempty
    refine ⟨hnone.1, ?_⟩
    by_contra hne
    exact hpayload hne hnone.2
  rw [readBlocks_append, hfirst, Option.bind_some, readBlocks, hmore, Option.bind_some, hrest]
  simp

end

end GajaeCode.Hashline
