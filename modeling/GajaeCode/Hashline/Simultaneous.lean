import GajaeCode.Hashline.Untargeted

/-!
# A batch takes effect all at once

The splices run from the last line to the first, yet the file they leave is the one that all edits
together describe: the inserts of every line in batch order, then the line unless it is deleted. A
file that is one empty line gives way to the lines that are put at its start or at its end.
-/

namespace GajaeCode.Hashline

open Text Chain List HashlineEdit

variable {cursor : HashlineCursor}

/-- Where an edit takes effect; after a line is before the next one, or the end of the file. -/
inductive EditTarget
  | start
  | line (number : ℕ)
  | finish
  deriving DecidableEq

def HashlineEdit.target (lineCount : ℕ) : HashlineEdit → EditTarget
  | .insert edit =>
    match edit.cursor with
    | .bof => .start
    | .eof => .finish
    | .beforeAnchor anchor => .line anchor.line
    | .afterAnchor anchor => if lineCount ≤ anchor.line then .finish else .line (anchor.line + 1)
  | .delete edit => .line edit.anchor.line

section

variable (edits : List HashlineEdit)

/-- The edits of one target, in batch order. -/
def editsAt (lineCount : ℕ) (target : EditTarget) : List HashlineEdit :=
  edits.filter fun edit ↦ edit.target lineCount = target

def textsAt (lineCount : ℕ) (target : EditTarget) : List JsString :=
  (editsAt edits lineCount target).filterMap insertText

/-- The inserts of a line, and the line unless it is deleted. -/
def lineSlot (lineCount line : ℕ) (currentLine : JsString) : List JsString :=
  textsAt edits lineCount (.line line) ++
    if (editsAt edits lineCount (.line line)).any isDeleteEdit then [] else [currentLine]

/-- A file of one empty line gives way to lines that are inserted. -/
def unlessBlank (fileLines lines : List JsString) : List JsString :=
  if lines ≠ [] ∧ fileLines = [[]] then [] else fileLines

/-- Lines at the end go before an empty last line. -/
def beforeTrailingBlank (fileLines lines : List JsString) : List JsString :=
  if fileLines.getLast? = some [] then fileLines.dropLast ++ lines ++ [[]] else fileLines ++ lines

variable (fileLines : List JsString)

/-- The number of the first line that is inserted at the end. -/
def firstLineAtEnd : ℕ :=
  (if fileLines.getLast? = some [] then fileLines.length - 1 else fileLines.length) + 1

/-- Every line of the file with its inserts. -/
def editedLines : List JsString :=
  rebuild (lineSlot edits fileLines.length) 1 fileLines

/-- What stands before the lines that are inserted at the end. -/
def linesBeforeEnd : List JsString :=
  unlessBlank (textsAt edits fileLines.length .start ++
    unlessBlank (editedLines edits fileLines) (textsAt edits fileLines.length .start))
    (textsAt edits fileLines.length .finish)

def simultaneous : List JsString :=
  beforeTrailingBlank (linesBeforeEnd edits fileLines) (textsAt edits fileLines.length .finish)

/-- The lines that edits target, and the lines at which the start and the end are extended. -/
def IsAffected (line : ℕ) : Prop :=
  editsAt edits fileLines.length (.line line) ≠ [] ∨
    editsAt edits fileLines.length .start ≠ [] ∧ line = 1 ∨
      editsAt edits fileLines.length .finish ≠ [] ∧ line = firstLineAtEnd (linesBeforeEnd edits fileLines)

/-- Two batches have the same edits at every target, in the same order. -/
def SameTargets (lineCount : ℕ) (others : List HashlineEdit) : Prop :=
  ∀ target, editsAt edits lineCount target = editsAt others lineCount target

end

/-! ## Turned cursors and targets -/

section

variable (computeLineHash : ℕ → JsString → JsString) (fileLines : List JsString)

variable (edits : List HashlineEdit)

theorem filterMap_textAtCursor_normalizeEdit {target : EditTarget}
    (h : cursor = .bof ∧ target = .start ∨ cursor = .eof ∧ target = .finish) :
    (edits.map (normalizeEdit computeLineHash fileLines)).filterMap (textAtCursor cursor) =
      textsAt edits fileLines.length target := by
  rw [textsAt, editsAt, filterMap_map, filterMap_filter]
  apply filterMap_congr
  intro edit _
  rcases edit with ⟨source, text, lineNum, index⟩ | edit
  · rcases h with ⟨rfl, rfl⟩ | ⟨rfl, rfl⟩
    all_goals
      cases source with
      | afterAnchor anchor =>
        by_cases hlast : fileLines.length ≤ anchor.line <;>
          simp [normalizeEdit, normalizeCursor, textAtCursor, insertText, target, hlast]
      | _ => simp [normalizeEdit, normalizeCursor, textAtCursor, insertText, target]
  · rcases h with ⟨rfl, rfl⟩ | ⟨rfl, rfl⟩ <;> rfl

/-- The bucket of a line holds the edits whose target is the line. -/
theorem bucket_eq_map_editsAt (line : ℕ) :
    ((edits.map (normalizeEdit computeLineHash fileLines)).filter isAnchorEdit).filter
        (fun edit ↦ bucketLine edit = line) =
      (editsAt edits fileLines.length (.line line)).map (normalizeEdit computeLineHash fileLines) := by
  rw [filter_filter, filter_map, editsAt]
  congr 1
  apply filter_congr
  intro edit _
  rw [Bool.eq_iff_iff]
  simp only [Function.comp, Bool.and_eq_true, decide_eq_true_eq]
  rcases edit with ⟨cursor, text, lineNum, index⟩ | edit
  · cases cursor with
    | afterAnchor anchor =>
      by_cases hlast : fileLines.length ≤ anchor.line
      · simp [normalizeEdit, normalizeCursor, isAnchorEdit, target, hlast]
      · simp [normalizeEdit, normalizeCursor, isAnchorEdit, bucketLine, target, hlast]
    | _ => simp [normalizeEdit, normalizeCursor, isAnchorEdit, bucketLine, target]
  · simp [normalizeEdit, isAnchorEdit, bucketLine, target]

theorem bucketSlot_eq_lineSlot :
    bucketSlot ((edits.map (normalizeEdit computeLineHash fileLines)).filter isAnchorEdit) =
      lineSlot edits fileLines.length := by
  have hinsert : insertText ∘ normalizeEdit computeLineHash fileLines = insertText := by
    funext edit
    cases edit <;> rfl
  have hdelete : isDeleteEdit ∘ normalizeEdit computeLineHash fileLines = isDeleteEdit := by
    funext edit
    cases edit <;> rfl
  funext line currentLine
  rw [bucketSlot, bucket_eq_map_editsAt, filterMap_map, any_map, hinsert, hdelete, lineSlot, textsAt]
  split_ifs
  · rw [append_nil]
  · rfl

theorem mem_bucketLines_iff (line : ℕ) :
    line ∈ bucketLines ((edits.map (normalizeEdit computeLineHash fileLines)).filter isAnchorEdit) ↔
      editsAt edits fileLines.length (.line line) ≠ [] := by
  rw [mem_bucketLines, ne_eq, ← map_eq_nil_iff (f := normalizeEdit computeLineHash fileLines),
    ← bucket_eq_map_editsAt, filter_eq_nil_iff]
  simp [and_assoc]

theorem textsAt_eq_nil_iff {target : EditTarget} (h : ∀ line, target ≠ .line line) (lineCount : ℕ) :
    textsAt edits lineCount target = [] ↔ editsAt edits lineCount target = [] := by
  rw [textsAt, filterMap_eq_nil_iff, eq_nil_iff_forall_not_mem]
  apply forall_congr'
  intro edit
  refine ⟨fun hnone hmem ↦ ?_, fun hnot hmem ↦ absurd hmem hnot⟩
  cases edit with
  | insert => exact Option.some_ne_none _ (hnone hmem)
  | delete => exact h _ (of_decide_eq_true (mem_filter.mp hmem).2).symm

end

/-! ## The ends of the file -/

theorem insertAtStart_eq (fileLines lines : List JsString) :
    insertAtStart fileLines lines = lines ++ unlessBlank fileLines lines := by
  rw [insertAtStart, unlessBlank]
  split_ifs <;> simp_all

theorem insertAtEnd_eq (fileLines lines : List JsString) :
    insertAtEnd fileLines lines = (beforeTrailingBlank (unlessBlank fileLines lines) lines,
      if lines = [] then none else some (firstLineAtEnd (unlessBlank fileLines lines))) := by
  by_cases hnone : lines = []
  · subst hnone
    have hkeep : unlessBlank fileLines [] = fileLines := if_neg fun h ↦ h.1 rfl
    rw [hkeep, insertAtEnd, if_pos rfl, if_pos rfl, beforeTrailingBlank]
    split_ifs with hlast
    · obtain ⟨front, rfl⟩ := getLast?_eq_some_iff.mp hlast
      simp
    · rw [append_nil]
  · by_cases hblank : fileLines = [[]]
    · simp [insertAtEnd, unlessBlank, beforeTrailingBlank, firstLineAtEnd, hnone, hblank]
    · have hkeep : unlessBlank fileLines lines = fileLines := if_neg fun h ↦ hblank h.2
      rw [hkeep, insertAtEnd, if_neg hnone, if_neg hblank, if_neg hnone, beforeTrailingBlank, firstLineAtEnd]
      by_cases hlast : fileLines.getLast? = some []
      · obtain ⟨front, rfl⟩ := getLast?_eq_some_iff.mp hlast
        simp
      · simp [hlast]

theorem foldl_trackFirstChanged_eq_some_iff {first : Option ℕ} {lines : List ℕ} {least : ℕ} :
    lines.foldl trackFirstChanged first = some least ↔
      IsLeast {line | line ∈ first ∨ line ∈ lines} least := by
  induction lines generalizing first with
  | nil =>
    cases first with
    | none => simp [IsLeast]
    | some =>
      simp only [foldl_nil, Option.some.injEq, Option.mem_def, not_mem_nil, or_false]
      exact ⟨fun h ↦ ⟨h, fun _ hother ↦ (h.symm.trans hother).le⟩, fun h ↦ h.1⟩
  | cons line rest ih =>
    rw [foldl_cons, ih]
    cases first with
    | none => simp [trackFirstChanged, eq_comm]
    | some =>
      rw [trackFirstChanged]
      simp only [IsLeast, lowerBounds, Set.mem_ofPred_eq, Option.mem_def, mem_cons]
      split_ifs with hless <;> grind

/-! ## The whole batch -/

section

variable (computeLineHash : ℕ → JsString → JsString) {fileLines : List JsString} {edits : List HashlineEdit}

/-- The splices and the inserts at both ends, for edits that name lines of the file. -/
theorem applyNormalized_eq (hfile : ∀ line ∈ collectAnchorTargetLines edits, 1 ≤ line ∧ line ≤ fileLines.length) :
    (applyNormalized (edits.map (normalizeEdit computeLineHash fileLines)) fileLines).1 =
        simultaneous edits fileLines ∧
      ∀ line, (applyNormalized (edits.map (normalizeEdit computeLineHash fileLines)) fileLines).2 = some line ↔
        IsLeast {line | IsAffected edits fileLines line} line := by
  have hstart := filterMap_textAtCursor_normalizeEdit computeLineHash fileLines edits (.inl ⟨rfl, rfl⟩)
  have hfinish := filterMap_textAtCursor_normalizeEdit computeLineHash fileLines edits (.inr ⟨rfl, rfl⟩)
  have heffects : ∀ effect ∈ edits.map HashlineEdit.effect, effect.InFile fileLines.length := by
    rw [forall_mem_map]
    exact fun edit hedit ↦ effect_inFile_of_mem hfile hedit
  have hspliced := spliceBuckets_eq_rebuild (bucketLine_mem_file_of_normalize computeLineHash fileLines heffects)
  rw [bucketSlot_eq_lineSlot] at hspliced
  have hended : insertAtEnd (insertAtStart (editedLines edits fileLines)
        (textsAt edits fileLines.length .start)) (textsAt edits fileLines.length .finish) =
      (simultaneous edits fileLines, if textsAt edits fileLines.length .finish = [] then none
        else some (firstLineAtEnd (linesBeforeEnd edits fileLines))) := by
    rw [insertAtStart_eq, insertAtEnd_eq]
    rfl
  rw [applyNormalized, hstart, hfinish, hspliced]
  change (insertAtEnd (insertAtStart (editedLines edits fileLines) _) _).1 = _ ∧ _
  refine ⟨by rw [hended], fun line ↦ ?_⟩
  change (bucketLines _ ++ _ ++ (insertAtEnd (insertAtStart (editedLines edits fileLines) _) _).2.toList).foldl
    trackFirstChanged none = some line ↔ _
  rw [foldl_trackFirstChanged_eq_some_iff, hended]
  apply iff_of_eq
  congr 1
  ext other
  simp only [Option.not_mem_none, false_or, mem_append, Set.mem_ofPred_eq, mem_bucketLines_iff, IsAffected,
    ← textsAt_eq_nil_iff edits (fun line ↦ EditTarget.noConfusion : ∀ line, EditTarget.start ≠ .line line),
    ← textsAt_eq_nil_iff edits (fun line ↦ EditTarget.noConfusion : ∀ line, EditTarget.finish ≠ .line line), ne_eq]
  by_cases hnoStart : textsAt edits fileLines.length .start = [] <;>
    by_cases hnoFinish : textsAt edits fileLines.length .finish = [] <;>
      simp [hnoStart, hnoFinish, or_assoc]

theorem simultaneous_congr {others : List HashlineEdit} (h : SameTargets edits fileLines.length others) :
    simultaneous edits fileLines = simultaneous others fileLines ∧
      IsAffected edits fileLines = IsAffected others fileLines := by
  have htargets : editsAt edits fileLines.length = editsAt others fileLines.length := funext h
  have htexts : textsAt edits fileLines.length = textsAt others fileLines.length := by
    funext target
    rw [textsAt, textsAt, htargets]
  have hslot : lineSlot edits fileLines.length = lineSlot others fileLines.length := by
    funext line currentLine
    rw [lineSlot, lineSlot, htexts, htargets]
  have hbefore : linesBeforeEnd edits fileLines = linesBeforeEnd others fileLines := by
    rw [linesBeforeEnd, linesBeforeEnd, editedLines, editedLines, htexts, hslot]
  constructor
  · rw [simultaneous, simultaneous, hbefore, htexts]
  · funext line
    rw [IsAffected, IsAffected, hbefore, htargets]

/-- The pass over the batch hands it on as it is and has nothing to report. -/
def AbsorbsNothing (options : HashlineApplyOptions) (fileLines : List JsString) (edits : List HashlineEdit) :
    Prop :=
  absorbReplacementBoundaryDuplicates computeLineHash fileLines options edits = ⟨edits.length, [], edits⟩

theorem applyHashlineEdits_of_absorbsNothing {text : JsString} {opts : HashlineApplyOptions}
    (hvalid : validateHashlineAnchors computeLineHash edits (splitLines text) = .ok [])
    (habsorb : AbsorbsNothing computeLineHash opts (splitLines text) edits) :
    ∃ first after, applyHashlineEdits computeLineHash text edits opts =
        .ok (⟨joinLines (simultaneous edits (splitLines text)), first, []⟩, after) ∧
      ∀ line, first = some line ↔ IsLeast {line | IsAffected edits (splitLines text) line} line := by
  obtain ⟨hlines, hfirst⟩ :=
    applyNormalized_eq computeLineHash (targetLines_mem_file_of_validate computeLineHash hvalid)
  have hnormalized : normalizedEdits computeLineHash opts (splitLines text) edits =
      edits.map (normalizeEdit computeLineHash (splitLines text)) := by
    rw [normalizedEdits, habsorb]
  by_cases hempty : edits = []
  · subst hempty
    refine ⟨none, [], ?_, hfirst⟩
    rw [← hlines]
    change _ = Except.ok ((⟨joinLines (splitLines text), none, []⟩ : HashlineApplyResult), _)
    rw [joinLines_splitLines]
    rfl
  · refine ⟨_, editsAfterNormalization computeLineHash (splitLines text) opts edits, ?_, hfirst⟩
    rw [applyHashlineEdits, if_neg hempty, hvalid, ← hlines]
    rw [applyChecked, habsorb, hnormalized]
    rfl

/-- A batch with nothing to absorb takes effect all at once, whatever the order of the edits of
different targets. -/
theorem applyHashlineEdits_simultaneous (text : JsString) (edits : List HashlineEdit)
    (options : HashlineApplyOptions)
    (hvalid : validateHashlineAnchors computeLineHash edits (splitLines text) = .ok [])
    (habsorb : AbsorbsNothing computeLineHash options (splitLines text) edits) :
    ∃ first after, applyHashlineEdits computeLineHash text edits options =
        .ok (⟨joinLines (simultaneous edits (splitLines text)), first, []⟩, after) ∧
      (∀ line, first = some line ↔ IsLeast {line | IsAffected edits (splitLines text) line} line) ∧
      ∀ permuted, validateHashlineAnchors computeLineHash permuted (splitLines text) = .ok [] →
        AbsorbsNothing computeLineHash options (splitLines text) permuted →
        SameTargets edits (splitLines text).length permuted →
        ∃ after', applyHashlineEdits computeLineHash text permuted options =
          .ok (⟨joinLines (simultaneous edits (splitLines text)), first, []⟩, after') := by
  obtain ⟨first, after, happly, hfirst⟩ := applyHashlineEdits_of_absorbsNothing computeLineHash hvalid habsorb
  refine ⟨first, after, happly, hfirst, fun permuted hvalid' habsorb' hsame ↦ ?_⟩
  obtain ⟨first', after', happly', hfirst'⟩ :=
    applyHashlineEdits_of_absorbsNothing computeLineHash hvalid' habsorb'
  obtain ⟨hlines, haffected⟩ := simultaneous_congr hsame
  have hsameFirst : first' = first := by
    ext line
    rw [hfirst, hfirst', haffected]
  exact ⟨after', by rw [happly', hlines, hsameFirst]⟩

end

/-! ## An empty file gives way -/

/-- A line at the start of the file. -/
def startInsert : HashlineEdit := .insert { cursor := .bof, text := utf16 "a", lineNum := 1, index := 0 }

/-- The empty line of an empty file is dropped, not kept after the insert. -/
theorem empty_line_is_dropped : AbsorbsNothing (fun _ _ ↦ []) {} [[]] [startInsert] ∧
    (applyHashlineEdits (fun _ _ ↦ []) [] [startInsert] {}).toOption.map (fun outcome ↦ outcome.1.lines) =
      some (utf16 "a") ∧
    joinLines (beforeTrailingBlank (textsAt [startInsert] 1 .start ++ editedLines [startInsert] [[]])
      (textsAt [startInsert] 1 .finish)) = utf16 "a\n" := by
  refine ⟨?_, ?_, ?_⟩
  · rfl
  · decide
  · decide

/-- A line before the second one, and the first one deleted. -/
def sampleBatch : List HashlineEdit :=
  [.insert { cursor := .afterAnchor ⟨1, []⟩, text := utf16 "z", lineNum := 1, index := 0 },
    .delete { anchor := ⟨1, []⟩, lineNum := 2, index := 1 }]

theorem sampleBatch_simultaneous :
    ∃ first after, applyHashlineEdits (fun _ _ ↦ []) (utf16 "x\ny") sampleBatch {} =
        .ok (⟨joinLines (simultaneous sampleBatch (splitLines (utf16 "x\ny"))), first, []⟩, after) ∧
      joinLines (simultaneous sampleBatch (splitLines (utf16 "x\ny"))) = utf16 "z\ny" := by
  obtain ⟨first, after, happly, -⟩ :=
    applyHashlineEdits_simultaneous (fun _ _ ↦ []) (utf16 "x\ny") sampleBatch {} rfl rfl
  exact ⟨first, after, happly, by decide⟩

end GajaeCode.Hashline
