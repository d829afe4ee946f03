import GajaeCode.Hashline.Edit

/-!
# Absorbing duplicated boundary lines

A replacement whose payload repeats the file lines right above or right below the replaced range is
widened: those file lines are deleted as well, since the payload brings them back. Blocks of two
lines or more are matched exactly; a single line is matched only when it is a closing delimiter and
dropping it restores the delimiter balance of the deleted lines. Lines that another edit of the
batch anchors are never absorbed.

A run of pure inserts loses payload lines that repeat its neighbours instead; it deletes nothing.
-/

namespace GajaeCode.Hashline

open Text List Segment

/-! ## Matching blocks -/

/-- The largest count from `max` down to two that matches, or zero. -/
def largestBlock (matchesBlock : ℕ → Bool) : ℕ → ℕ
  | 0 => 0
  | count + 1 =>
    if count + 1 < 2 then 0
    else if matchesBlock (count + 1) then count + 1
    else largestBlock matchesBlock count

variable (fileLines : List JsString)

def countMatchingPrefixBlock (startLine : ℕ) (replacement : List JsString) : ℕ :=
  largestBlock
    (fun count ↦ (fileLines.drop (startLine - 1 - count)).take count = replacement.take count)
    (min replacement.length (startLine - 1))

def countMatchingSuffixBlock (endLine : ℕ) (replacement : List JsString) : ℕ :=
  largestBlock
    (fun count ↦ (fileLines.drop endLine).take count = replacement.drop (replacement.length - count))
    (min replacement.length (fileLines.length - endLine))

theorem largestBlock_spec {matchesBlock : ℕ → Bool} (hzero : matchesBlock 0) (max : ℕ) :
    largestBlock matchesBlock max ≤ max ∧ matchesBlock (largestBlock matchesBlock max) := by
  induction max with
  | zero => exact ⟨le_rfl, hzero⟩
  | succ count ih =>
    rw [largestBlock]
    split_ifs with hsmall hmatch
    · exact ⟨Nat.zero_le _, hzero⟩
    · exact ⟨le_rfl, hmatch⟩
    · exact ⟨ih.1.trans (Nat.le_succ count), ih.2⟩

/-! ## Structural closing lines -/

def isClosingUnit (unit : UInt16) : Bool := unit = 0x29 || unit = 0x5D || unit = 0x7D

def isTerminatorUnit (unit : UInt16) : Bool := unit = 0x3B || unit = 0x2C

/-- `/^\s*[\])}]+[;,]?\s*$/`; the three classes are disjoint, so the greedy reading is the only one. -/
def isStructuralClosingBoundaryLine (line : JsString) : Bool :=
  let body := line.dropWhile isTrimmed
  let tail := body.dropWhile isClosingUnit
  decide (tail.length < body.length) &&
    match tail with
    | [] => true
    | unit :: rest => if isTerminatorUnit unit then rest.all isTrimmed else tail.all isTrimmed

structure DelimiterBalance where
  paren : ℤ
  bracket : ℤ
  brace : ℤ
  deriving DecidableEq

def zeroDelimiterBalance : DelimiterBalance := ⟨0, 0, 0⟩

def DelimiterBalance.count (balance : DelimiterBalance) (unit : UInt16) : DelimiterBalance :=
  if unit = 0x28 then { balance with paren := balance.paren + 1 }
  else if unit = 0x29 then { balance with paren := balance.paren - 1 }
  else if unit = 0x5B then { balance with bracket := balance.bracket + 1 }
  else if unit = 0x5D then { balance with bracket := balance.bracket - 1 }
  else if unit = 0x7B then { balance with brace := balance.brace + 1 }
  else if unit = 0x7D then { balance with brace := balance.brace - 1 }
  else balance

/-- Naive: strings, templates and comments are counted like code. -/
def computeDelimiterBalance (lines : List JsString) : DelimiterBalance :=
  lines.foldl (fun balance line ↦ line.foldl DelimiterBalance.count balance) zeroDelimiterBalance

def shouldDropSingleStructuralBoundary (fullPayload keptPayload : List JsString)
    (expectedBalance : DelimiterBalance) : Bool :=
  computeDelimiterBalance keptPayload = expectedBalance &&
    computeDelimiterBalance fullPayload ≠ expectedBalance

def countMatchingSingleStructuralPrefixBoundary (startLine : ℕ)
    (replacement : List JsString) (expectedBalance : DelimiterBalance) : ℕ :=
  match replacement with
  | [] => 0
  | line :: rest =>
    if startLine ≤ 1 then 0
    else if isStructuralClosingBoundaryLine line = false then 0
    else if fileLines[startLine - 2]? ≠ some line then 0
    else if shouldDropSingleStructuralBoundary (line :: rest) rest expectedBalance then 1
    else 0

def countMatchingSingleStructuralSuffixBoundary (endLine : ℕ)
    (replacement : List JsString) (expectedBalance : DelimiterBalance) : ℕ :=
  match replacement.getLast? with
  | none => 0
  | some line =>
    if fileLines.length ≤ endLine then 0
    else if isStructuralClosingBoundaryLine line = false then 0
    else if fileLines[endLine]? ≠ some line then 0
    else if shouldDropSingleStructuralBoundary replacement replacement.dropLast expectedBalance then 1
    else 0

/-! ## Widening a replacement -/

/-- `first || second` on counts. -/
def orCount (first second : ℕ) : ℕ := if first = 0 then second else first

def hasExternalTargets (lines externalTargetLines : List ℕ) : Bool :=
  lines.any fun line ↦ externalTargetLines.contains line

namespace HashlineReplacementGroup

variable (fileLines : List JsString) (group : HashlineReplacementGroup)

def deletedBalance : DelimiterBalance :=
  computeDelimiterBalance (group.deletes.map fun edit ↦ fileLine fileLines edit.anchor.line)

/-- How many lines above the replaced range repeat the start of the payload. -/
def prefixCount : ℕ :=
  orCount (countMatchingPrefixBlock fileLines group.startLine group.replacement)
    (countMatchingSingleStructuralPrefixBoundary fileLines group.startLine group.replacement
      (group.deletedBalance fileLines))

/-- How many lines below the replaced range repeat the end of the payload. -/
def suffixCount : ℕ :=
  orCount (countMatchingSuffixBlock fileLines group.endLine group.replacement)
    (countMatchingSingleStructuralSuffixBoundary fileLines group.endLine group.replacement
      (group.deletedBalance fileLines))

variable (targetLines : List ℕ)

def safePrefixCount : ℕ :=
  let count := group.prefixCount fileLines
  if hasExternalTargets (List.range' (group.startLine - count) count) targetLines then 0 else count

def safeSuffixCount : ℕ :=
  let count := group.suffixCount fileLines
  if hasExternalTargets (List.range' (group.endLine + 1) count) targetLines then 0 else count

end HashlineReplacementGroup

/-! ## What the counts promise -/

/-- The last `count` lines before `startLine` are the first `count` payload lines. -/
def MatchesAbove (startLine : ℕ) (payload : List JsString) (count : ℕ) : Prop :=
  count ≤ payload.length ∧ count ≤ startLine - 1 ∧
    (fileLines.drop (startLine - 1 - count)).take count = payload.take count

/-- The first `count` lines after `endLine` are the last `count` payload lines. -/
def MatchesBelow (endLine : ℕ) (payload : List JsString) (count : ℕ) : Prop :=
  count ≤ payload.length ∧ count ≤ fileLines.length - endLine ∧
    (fileLines.drop endLine).take count = payload.drop (payload.length - count)

section

variable (fileLines payload : List JsString)

theorem matchesAbove_zero (startLine : ℕ) : MatchesAbove fileLines startLine payload 0 := by
  simp [MatchesAbove]

theorem matchesBelow_zero (endLine : ℕ) : MatchesBelow fileLines endLine payload 0 := by
  simp [MatchesBelow]

theorem matchesAbove_prefixBlock (startLine : ℕ) : MatchesAbove fileLines startLine payload
      (countMatchingPrefixBlock fileLines startLine payload) := by
  obtain ⟨hle, hmatch⟩ := @largestBlock_spec
    (fun count ↦ (fileLines.drop (startLine - 1 - count)).take count = payload.take count)
    (by simp) (min payload.length (startLine - 1))
  exact ⟨hle.trans (min_le_left _ _), hle.trans (min_le_right _ _), of_decide_eq_true hmatch⟩

theorem matchesBelow_suffixBlock (endLine : ℕ) : MatchesBelow fileLines endLine payload
      (countMatchingSuffixBlock fileLines endLine payload) := by
  obtain ⟨hle, hmatch⟩ := @largestBlock_spec
    (fun count ↦ (fileLines.drop endLine).take count = payload.drop (payload.length - count))
    (by simp) (min payload.length (fileLines.length - endLine))
  exact ⟨hle.trans (min_le_left _ _), hle.trans (min_le_right _ _), of_decide_eq_true hmatch⟩

end

theorem take_one_drop_of_getElem? {lines : List JsString} {idx : ℕ} {line : JsString}
    (h : lines[idx]? = some line) : (lines.drop idx).take 1 = [line] := by
  obtain ⟨hidx, hline⟩ := List.getElem?_eq_some_iff.mp h
  rw [drop_eq_getElem_cons hidx, hline]
  rfl

theorem matchesAbove_singleBoundary (startLine : ℕ)
    (payload : List JsString) (expected : DelimiterBalance) :
    MatchesAbove fileLines startLine payload
      (countMatchingSingleStructuralPrefixBoundary fileLines startLine payload expected) := by
  unfold countMatchingSingleStructuralPrefixBoundary
  cases payload with
  | nil => exact matchesAbove_zero _ _ _
  | cons line rest =>
    dsimp only
    split_ifs with hstart hclosing hline hdrop
    · exact matchesAbove_zero _ _ _
    · exact matchesAbove_zero _ _ _
    · exact matchesAbove_zero _ _ _
    · have hblock : (fileLines.drop (startLine - 1 - 1)).take 1 = (line :: rest).take 1 :=
        take_one_drop_of_getElem? (not_not.mp hline)
      exact ⟨by simp, by omega, hblock⟩
    · exact matchesAbove_zero _ _ _

theorem matchesBelow_singleBoundary (endLine : ℕ)
    (payload : List JsString) (expected : DelimiterBalance) : MatchesBelow fileLines endLine payload
      (countMatchingSingleStructuralSuffixBoundary fileLines endLine payload expected) := by
  unfold countMatchingSingleStructuralSuffixBoundary
  cases hlast : payload.getLast? with
  | none => exact matchesBelow_zero _ _ _
  | some line =>
    dsimp only
    split_ifs with hend hclosing hline hdrop
    · exact matchesBelow_zero _ _ _
    · exact matchesBelow_zero _ _ _
    · exact matchesBelow_zero _ _ _
    · have hpayload : payload = payload.dropLast ++ [line] :=
        (dropLast_append_getLast? line hlast).symm
      have htail : payload.drop (payload.length - 1) = [line] := by
        conv_lhs => rw [hpayload]
        simp
      have hpos : 1 ≤ payload.length := by
        rw [hpayload]
        simp
      exact ⟨hpos, by omega, (take_one_drop_of_getElem? (not_not.mp hline)).trans htail.symm⟩
    · exact matchesBelow_zero _ _ _

theorem of_orCount {p : ℕ → Prop} {first second : ℕ} (hfirst : p first) (hsecond : p second) :
    p (orCount first second) := by
  unfold orCount
  split_ifs
  · exact hsecond
  · exact hfirst

namespace HashlineReplacementGroup

variable (fileLines : List JsString) (targetLines : List ℕ) (group : HashlineReplacementGroup)

theorem matchesAbove_safePrefixCount : MatchesAbove fileLines group.startLine group.replacement
      (group.safePrefixCount fileLines targetLines) := by
  unfold safePrefixCount
  dsimp only
  split_ifs
  · exact matchesAbove_zero _ _ _
  · exact of_orCount (p := MatchesAbove fileLines group.startLine group.replacement)
      (matchesAbove_prefixBlock _ _ _) (matchesAbove_singleBoundary _ _ _ _)

theorem matchesBelow_safeSuffixCount : MatchesBelow fileLines group.endLine group.replacement
      (group.safeSuffixCount fileLines targetLines) := by
  unfold safeSuffixCount
  dsimp only
  split_ifs
  · exact matchesBelow_zero _ _ _
  · exact of_orCount (p := MatchesBelow fileLines group.endLine group.replacement)
      (matchesBelow_suffixBlock _ _ _) (matchesBelow_singleBoundary _ _ _ _)

end HashlineReplacementGroup
/-! ## Dropping payload lines of pure inserts -/

structure PureInsertAbsorbResult where
  keptPayload : List JsString
  absorbedLeading : ℕ
  absorbedTrailing : ℕ
  leadingFileRange : ℕ × ℕ
  trailingFileRange : ℕ × ℕ

def PureInsertAbsorbResult.absorbs (result : PureInsertAbsorbResult) : Bool :=
  decide (0 < result.absorbedLeading ∨ 0 < result.absorbedTrailing)

variable (cursor : HashlineCursor)

/-- The number of file lines above the insertion point and the index of the first one below it. -/
def pureInsertNeighborhood (fileLines : List JsString) : ℕ × ℕ :=
  match cursor with
  | .bof => (0, 0)
  | .eof => (fileLines.length, fileLines.length)
  | .beforeAnchor anchor => (anchor.line - 1, anchor.line - 1)
  | .afterAnchor anchor => (anchor.line, anchor.line)

def HashlineCursor.isAfterAnchor : HashlineCursor → Bool
  | .afterAnchor _ => true
  | _ => false

/-- Payload lines that repeat the lines above the insertion point. -/
def absorbLeading (payload fileLines : List JsString) (above : ℕ)
    (allowGenericBoundaryAbsorb : Bool) : ℕ :=
  let block := if allowGenericBoundaryAbsorb then
    countMatchingPrefixBlock fileLines (above + 1) payload else 0
  let line := payload.headD []
  let repeated := decide (payload ≠ [] ∧ 0 < above ∧ fileLines[above - 1]? = some line)
  if block ≠ 0 then block
  else if allowGenericBoundaryAbsorb && cursor.isAfterAnchor && repeated &&
      !isStructuralClosingBoundaryLine line then 1
  else if repeated && isStructuralClosingBoundaryLine line &&
      shouldDropSingleStructuralBoundary payload (payload.drop 1) zeroDelimiterBalance then 1
  else 0

/-- Payload lines that repeat the lines below the insertion point. -/
def absorbTrailing (payload fileLines : List JsString) (below : ℕ)
    (allowGenericBoundaryAbsorb : Bool) : ℕ :=
  let block := if allowGenericBoundaryAbsorb then
    countMatchingSuffixBlock fileLines below payload else 0
  let line := payload.getLastD []
  let repeated := decide (payload ≠ [] ∧ fileLines[below]? = some line)
  if block ≠ 0 then block
  else if allowGenericBoundaryAbsorb && cursor.isBeforeAnchor && repeated &&
      !isStructuralClosingBoundaryLine line then 1
  else if repeated && isStructuralClosingBoundaryLine line &&
      shouldDropSingleStructuralBoundary payload payload.dropLast zeroDelimiterBalance then 1
  else 0

/-- Trailing lines are looked for in what the leading ones have left of the payload. -/
def tryAbsorbPureInsertGroup (group : HashlinePureInsertGroup) (fileLines : List JsString)
    (allowGenericBoundaryAbsorb : Bool) : PureInsertAbsorbResult :=
  let neighborhood := pureInsertNeighborhood group.cursor fileLines
  let leading := absorbLeading group.cursor group.payload fileLines neighborhood.1
    allowGenericBoundaryAbsorb
  let remaining := group.payload.drop leading
  let trailing := absorbTrailing group.cursor remaining fileLines neighborhood.2
    allowGenericBoundaryAbsorb
  { keptPayload := remaining.take (remaining.length - trailing)
    absorbedLeading := leading
    absorbedTrailing := trailing
    leadingFileRange := (neighborhood.1 - leading + 1, neighborhood.1)
    trailingFileRange := (neighborhood.2 + 1, neighborhood.2 + trailing) }

theorem keptPayload_of_not_absorbs {group : HashlinePureInsertGroup} {fileLines : List JsString}
    {allow : Bool} (h : (tryAbsorbPureInsertGroup group fileLines allow).absorbs = false) :
    (tryAbsorbPureInsertGroup group fileLines allow).keptPayload = group.payload := by
  simp only [PureInsertAbsorbResult.absorbs, decide_eq_false_iff_not, not_or, not_lt,
    Nat.le_zero] at h
  obtain ⟨hleading, htrailing⟩ := h
  unfold tryAbsorbPureInsertGroup at hleading htrailing ⊢
  dsimp only at hleading htrailing ⊢
  rw [htrailing, hleading, Nat.sub_zero, take_length, drop_zero]

/-! ## The pass over a batch -/

inductive AbsorbSide
  | aboveReplacement
  | belowReplacement
  | startOfInsert
  | endOfInsert
  deriving DecidableEq

structure AbsorbNotice where
  side : AbsorbSide
  count : ℕ
  sourceLineNum : ℕ
  start : ℕ
  stop : ℕ
  deriving DecidableEq

/-- The key under which a notice is emitted once. -/
def AbsorbNotice.key (notice : AbsorbNotice) : AbsorbSide × ℕ × ℕ :=
  (notice.side, notice.start, notice.stop)

def AbsorbNotice.warning (notice : AbsorbNotice) : JsString :=
  let count := natText notice.count
  let line := natText notice.sourceLineNum
  let range := natText notice.start ++ utf16 ".." ++ natText notice.stop
  match notice.side with
  | .aboveReplacement =>
    utf16 "Auto-absorbed " ++ count ++ utf16 " duplicate line(s) above replacement at line " ++ line ++
      utf16 " (file lines " ++ range ++ utf16 " matched the payload's leading lines; " ++
      utf16 "widened the deletion to absorb them)."
  | .belowReplacement =>
    utf16 "Auto-absorbed " ++ count ++ utf16 " duplicate line(s) below replacement at line " ++ line ++
      utf16 " (file lines " ++ range ++ utf16 " matched the payload's trailing lines; " ++
      utf16 "widened the deletion to absorb them)."
  | .startOfInsert =>
    utf16 "Auto-dropped " ++ count ++ utf16 " duplicate line(s) at the start of insert at line " ++
      line ++ utf16 " (file lines " ++ range ++ utf16 " already match the payload's leading lines)."
  | .endOfInsert =>
    utf16 "Auto-dropped " ++ count ++ utf16 " duplicate line(s) at the end of insert at line " ++
      line ++ utf16 " (file lines " ++ range ++ utf16 " already match the payload's trailing lines)."

structure AbsorbState where
  nextSyntheticIndex : ℕ
  notices : List AbsorbNotice
  absorbed : List HashlineEdit

/-- Every emitted key belongs to a pushed notice, so the notices stand for the set of keys. -/
def AbsorbState.notify (state : AbsorbState) (notice : AbsorbNotice) : AbsorbState :=
  if notice.count = 0 ∨ notice.key ∈ state.notices.map AbsorbNotice.key then state
  else { state with notices := state.notices ++ [notice] }

def AbsorbState.push (state : AbsorbState) (edits : List HashlineEdit) : AbsorbState :=
  { state with absorbed := state.absorbed ++ edits }

/-- Pushes edits made by the pass, which take the next synthetic indices. -/
def AbsorbState.pushSynthetic (state : AbsorbState) (make : List (ℕ → HashlineEdit)) : AbsorbState :=
  { state with
    nextSyntheticIndex := state.nextSyntheticIndex + make.length
    absorbed := state.absorbed ++
      make.mapIdx fun offset edit ↦ edit (state.nextSyntheticIndex + offset) }

section

variable (computeLineHash : ℕ → JsString → JsString) (fileLines : List JsString)
  (targetLines : List ℕ) (options : HashlineApplyOptions)

def deleteEditForAutoAbsorbedLine (sourceLineNum line index : ℕ) : HashlineEdit :=
  .delete ⟨⟨line, computeLineHash line (fileLine fileLines line)⟩, sourceLineNum, index⟩

def absorbPureInsert (state : AbsorbState) (group : HashlinePureInsertGroup) : AbsorbState :=
  let result := tryAbsorbPureInsertGroup group fileLines options.autoDropPureInsertDuplicates
  if result.absorbs then
    (((state.notify ⟨.startOfInsert, result.absorbedLeading, group.sourceLineNum,
          result.leadingFileRange.1, result.leadingFileRange.2⟩).notify
        ⟨.endOfInsert, result.absorbedTrailing, group.sourceLineNum,
          result.trailingFileRange.1, result.trailingFileRange.2⟩).pushSynthetic
      (result.keptPayload.map fun text index ↦
        .insert ⟨group.cursor, text, group.sourceLineNum, index⟩))
  else state.push group.edits

def absorbReplacement (state : AbsorbState) (group : HashlineReplacementGroup) : AbsorbState :=
  let above := group.safePrefixCount fileLines targetLines
  let below := group.safeSuffixCount fileLines targetLines
  let widen := fun line index ↦
    deleteEditForAutoAbsorbedLine computeLineHash fileLines group.sourceLineNum line index
  ((((state.notify ⟨.aboveReplacement, above, group.sourceLineNum, group.startLine - above,
            group.startLine - 1⟩).notify
        ⟨.belowReplacement, below, group.sourceLineNum, group.endLine + 1,
          group.endLine + below⟩).pushSynthetic
      ((List.range' (group.startLine - above) above).map widen)).push group.edits).pushSynthetic
    ((List.range' (group.endLine + 1) below).map widen)

def absorbSegment (state : AbsorbState) : Segment → AbsorbState
  | .single edit => state.push [edit]
  | .pureInsert group => absorbPureInsert fileLines options state group
  | .replacement group => absorbReplacement computeLineHash fileLines targetLines state group

def absorbReplacementBoundaryDuplicates (edits : List HashlineEdit) : AbsorbState :=
  (segments edits).foldl
    (absorbSegment computeLineHash fileLines (collectAnchorTargetLines edits) options)
    ⟨edits.length, [], []⟩

end
/-! ## What the pass does to the lines -/

/-- An edit without the indices it carries for reporting. -/
inductive LineEffect
  | insert (cursor : HashlineCursor) (text : JsString)
  | delete (line : ℕ)
  deriving DecidableEq

def HashlineEdit.effect : HashlineEdit → LineEffect
  | .insert edit => .insert edit.cursor edit.text
  | .delete edit => .delete edit.anchor.line

theorem HashlinePureInsertGroup.map_effect_edits (group : HashlinePureInsertGroup) :
    group.edits.map HashlineEdit.effect = group.payload.map (LineEffect.insert group.cursor) := by
  rw [edits, payload, map_map, map_map]
  apply map_congr_left
  intro edit hedit
  simp [HashlineEdit.effect, group.inserts_cursor edit hedit]

section

variable (computeLineHash : ℕ → JsString → JsString) (fileLines : List JsString)
  (targetLines : List ℕ) (options : HashlineApplyOptions)

/-- A replacement deletes the absorbed lines besides its own edits. -/
def replacementEffects (group : HashlineReplacementGroup) : List LineEffect :=
  let above := group.safePrefixCount fileLines targetLines
  let below := group.safeSuffixCount fileLines targetLines
  (List.range' (group.startLine - above) above).map .delete ++ group.edits.map HashlineEdit.effect ++
    (List.range' (group.endLine + 1) below).map .delete

def Segment.effects : Segment → List LineEffect
  | .single edit => [edit.effect]
  | .pureInsert group =>
    (tryAbsorbPureInsertGroup group fileLines options.autoDropPureInsertDuplicates).keptPayload.map
      (LineEffect.insert group.cursor)
  | .replacement group => replacementEffects fileLines targetLines group

@[simp] theorem notify_absorbed (state : AbsorbState) (notice : AbsorbNotice) :
    (state.notify notice).absorbed = state.absorbed := by
  unfold AbsorbState.notify
  split_ifs <;> rfl

variable (state : AbsorbState)

theorem push_effects (edits : List HashlineEdit) :
    (state.push edits).absorbed.map HashlineEdit.effect =
      state.absorbed.map HashlineEdit.effect ++ edits.map HashlineEdit.effect := by
  rw [AbsorbState.push, map_append]

/-- Synthetic edits have an effect that does not depend on the index they get. -/
theorem pushSynthetic_effects {α : Type*} (items : List α)
    (make : α → ℕ → HashlineEdit) (effect : α → LineEffect)
    (h : ∀ item idx, (make item idx).effect = effect item) :
    (state.pushSynthetic (items.map make)).absorbed.map HashlineEdit.effect =
      state.absorbed.map HashlineEdit.effect ++ items.map effect := by
  rw [AbsorbState.pushSynthetic, map_append, append_cancel_left_eq]
  apply ext_getElem
  · simp
  · intro idx _ _
    simp [h]

theorem absorbSegment_effects (seg : Segment) :
    (absorbSegment computeLineHash fileLines targetLines options state seg).absorbed.map
        HashlineEdit.effect =
      state.absorbed.map HashlineEdit.effect ++ seg.effects fileLines targetLines options := by
  cases seg with
  | single edit => exact push_effects state [edit]
  | pureInsert group =>
    unfold absorbSegment absorbPureInsert effects
    dsimp only
    split_ifs with habsorbs
    · rw [pushSynthetic_effects _ _ _ (LineEffect.insert group.cursor) fun _ _ ↦ rfl,
        notify_absorbed, notify_absorbed]
    · rw [push_effects, group.map_effect_edits,
        keptPayload_of_not_absorbs (Bool.eq_false_iff.mpr habsorbs)]
  | replacement =>
    unfold absorbSegment absorbReplacement effects replacementEffects
    rw [pushSynthetic_effects _ _ _ LineEffect.delete fun _ _ ↦ rfl, push_effects,
      pushSynthetic_effects _ _ _ LineEffect.delete fun _ _ ↦ rfl, notify_absorbed,
      notify_absorbed]
    simp

theorem foldl_absorbSegment_effects (batch : List Segment) :
    (batch.foldl (absorbSegment computeLineHash fileLines targetLines options) state).absorbed.map
        HashlineEdit.effect =
      state.absorbed.map HashlineEdit.effect ++
        batch.flatMap (effects fileLines targetLines options) := by
  induction batch generalizing state with
  | nil => simp
  | cons seg rest ih =>
    rw [foldl_cons, ih, absorbSegment_effects, append_assoc, flatMap_cons]

theorem absorb_effects (edits : List HashlineEdit) :
    (absorbReplacementBoundaryDuplicates computeLineHash fileLines options edits).absorbed.map
        HashlineEdit.effect =
      (segments edits).flatMap (effects fileLines (collectAnchorTargetLines edits) options) := by
  unfold absorbReplacementBoundaryDuplicates
  rw [foldl_absorbSegment_effects]
  rfl

end

end GajaeCode.Hashline
