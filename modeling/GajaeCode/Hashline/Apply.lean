import GajaeCode.Chain.Splice
import GajaeCode.Hashline.Absorb

/-!
# Applying a batch of hashline edits

The anchors are checked, duplicated boundary lines are absorbed, inserts after a line are turned into
inserts before the next one, and the edits of each line are spliced in from the last line to the
first. Lines for the start and the end of the file come last.

The cursors are turned in place: an edit that the absorption passed on unchanged is the caller's own
object, so the caller's batch is part of the result.
-/

namespace GajaeCode.Hashline

open Text Chain List LineEffect

variable {anchorEdits edits : List HashlineEdit} {fileLines kept : List JsString} {line : ℕ}

structure HashlineApplyResult where
  lines : JsString
  firstChangedLine : Option ℕ
  warnings : List JsString
  deriving DecidableEq

section

variable (computeLineHash : ℕ → JsString → JsString) (fileLines : List JsString)
  (options : HashlineApplyOptions)

/-- After the last line is the end of the file; after any other line is before the next one. -/
def normalizeCursor : HashlineCursor → HashlineCursor
  | .afterAnchor anchor =>
    if fileLines.length ≤ anchor.line then .eof
    else .beforeAnchor ⟨anchor.line + 1,
      computeLineHash (anchor.line + 1) (fileLine fileLines (anchor.line + 1))⟩
  | cursor => cursor

def normalizeEdit : HashlineEdit → HashlineEdit
  | .insert edit => .insert { edit with cursor := normalizeCursor computeLineHash fileLines edit.cursor }
  | .delete edit => .delete edit

/-- Whether the pass hands on the caller's own edit objects; absorbed pure inserts are cloned. -/
def Segment.sharesEdits : Segment → Bool
  | .single _ => true
  | .pureInsert group =>
    !(tryAbsorbPureInsertGroup group fileLines options.autoDropPureInsertDuplicates).absorbs
  | .replacement _ => true

def Segment.editsAfter (segment : Segment) : List HashlineEdit :=
  if segment.sharesEdits fileLines options then
    segment.edits.map (normalizeEdit computeLineHash fileLines)
  else segment.edits

/-- The caller's batch once the cursors have been turned. -/
def editsAfterNormalization (edits : List HashlineEdit) : List HashlineEdit :=
  (segments edits).flatMap (Segment.editsAfter computeLineHash fileLines options)

end

/-! ## Splicing -/

def insertText : HashlineEdit → Option JsString
  | .insert edit => some edit.text
  | .delete _ => none

def isDeleteEdit : HashlineEdit → Bool
  | .insert _ => false
  | .delete _ => true

def textAtCursor (cursor : HashlineCursor) : HashlineEdit → Option JsString
  | .insert edit => if edit.cursor = cursor then some edit.text else none
  | .delete _ => none

def isAnchorEdit : HashlineEdit → Bool
  | .insert edit => edit.cursor ≠ .bof && edit.cursor ≠ .eof
  | .delete _ => true

def bucketLine : HashlineEdit → ℕ
  | .insert edit =>
    match edit.cursor with
    | .beforeAnchor anchor => anchor.line
    | _ => 0
  | .delete edit => edit.anchor.line

/-- The lines that have a bucket, from the last to the first. -/
def bucketLines (anchorEdits : List HashlineEdit) : List ℕ :=
  (anchorEdits.map bucketLine).dedup.insertionSort (· ≥ ·)

/-- What the bucket of a line puts in its place; the bucket is in batch order. -/
def bucketSlot (anchorEdits : List HashlineEdit) (line : ℕ) (currentLine : JsString) :
    List JsString :=
  let bucket := anchorEdits.filter fun edit ↦ bucketLine edit = line
  let beforeLines := bucket.filterMap insertText
  if bucket.any isDeleteEdit then beforeLines else beforeLines ++ [currentLine]

/-- No bucket is empty, so every one of them is spliced. -/
def spliceBuckets (anchorEdits : List HashlineEdit) (fileLines : List JsString) : List JsString :=
  (bucketLines anchorEdits).foldl
    (fun lines line ↦ spliceAt lines (line - 1) (bucketSlot anchorEdits line (fileLine lines line)))
    fileLines

def insertAtStart (fileLines lines : List JsString) : List JsString :=
  if lines = [] then fileLines
  else if fileLines = [[]] then lines
  else lines ++ fileLines

/-- A file that ends in a newline has an empty last line, which stays last. -/
def insertAtEnd (fileLines lines : List JsString) : List JsString × Option ℕ :=
  if lines = [] then (fileLines, none)
  else if fileLines = [[]] then (lines, some 1)
  else
    let insertIndex :=
      if fileLines.getLast? = some [] then fileLines.length - 1 else fileLines.length
    (fileLines.take insertIndex ++ lines ++ fileLines.drop insertIndex, some (insertIndex + 1))

def trackFirstChanged (firstChangedLine : Option ℕ) (line : ℕ) : Option ℕ :=
  match firstChangedLine with
  | none => some line
  | some first => if line < first then some line else some first

/-- The file after the edits with turned cursors, and the first line that changed. -/
def applyNormalized (normalizedEdits : List HashlineEdit) (fileLines : List JsString) :
    List JsString × Option ℕ :=
  let bofLines := normalizedEdits.filterMap (textAtCursor .bof)
  let eofLines := normalizedEdits.filterMap (textAtCursor .eof)
  let anchorEdits := normalizedEdits.filter isAnchorEdit
  let spliced := spliceBuckets anchorEdits fileLines
  let started := insertAtStart spliced bofLines
  let ended := insertAtEnd started eofLines
  let changedLines := bucketLines anchorEdits ++ (if bofLines = [] then [] else [1]) ++ ended.2.toList
  (ended.1, changedLines.foldl trackFirstChanged none)

section

variable (computeLineHash : ℕ → JsString → JsString)

/-- The edits of a batch with absorbed lines and turned cursors. -/
def normalizedEdits (options : HashlineApplyOptions) (fileLines : List JsString)
    (edits : List HashlineEdit) : List HashlineEdit :=
  (absorbReplacementBoundaryDuplicates computeLineHash fileLines options edits).absorbed.map
    (normalizeEdit computeLineHash fileLines)

/-- The result for a batch whose anchors have been checked. -/
def applyChecked (fileLines : List JsString) (edits : List HashlineEdit)
    (options : HashlineApplyOptions) : HashlineApplyResult :=
  let applied := applyNormalized (normalizedEdits computeLineHash options fileLines edits) fileLines
  let absorb := absorbReplacementBoundaryDuplicates computeLineHash fileLines options edits
  ⟨joinLines applied.1, applied.2, absorb.notices.map AbsorbNotice.warning⟩

/-- The result together with the caller's batch as the call leaves it. -/
def applyHashlineEdits (text : JsString) (edits : List HashlineEdit)
    (options : HashlineApplyOptions) :
    Except HashlineError (HashlineApplyResult × List HashlineEdit) :=
  if edits = [] then .ok (⟨text, none, []⟩, edits)
  else
    match validateHashlineAnchors computeLineHash edits (splitLines text) with
    | .error error => .error error
    | .ok [] =>
      .ok (applyChecked computeLineHash (splitLines text) edits options,
        editsAfterNormalization computeLineHash (splitLines text) options edits)
    | .ok (mismatch :: mismatches) =>
      .error (.mismatch (mismatch :: mismatches) (splitLines text))

/-- A batch is accepted when it is empty or all its anchors pass. -/
theorem applyHashlineEdits_cases {text : JsString}
    {options : HashlineApplyOptions} {outcome : HashlineApplyResult × List HashlineEdit}
    (h : applyHashlineEdits computeLineHash text edits options = .ok outcome) :
    (edits = [] ∧ outcome = (⟨text, none, []⟩, [])) ∨
      (validateHashlineAnchors computeLineHash edits (splitLines text) = .ok [] ∧
        outcome = (applyChecked computeLineHash (splitLines text) edits options,
          editsAfterNormalization computeLineHash (splitLines text) options edits)) := by
  unfold applyHashlineEdits at h
  split_ifs at h with hempty
  · left
    rw [hempty] at h
    exact ⟨hempty, (Except.ok.inj h).symm⟩
  · right
    split at h
    · cases h
    · rename_i hvalid
      exact ⟨hvalid, (Except.ok.inj h).symm⟩
    · cases h

end
/-! ## The spliced file, slot by slot -/

theorem mem_bucketLines :
    line ∈ bucketLines anchorEdits ↔ ∃ edit ∈ anchorEdits, bucketLine edit = line := by
  unfold bucketLines
  rw [(perm_insertionSort _ _).mem_iff, mem_dedup, mem_map]

theorem pairwise_bucketLines (anchorEdits : List HashlineEdit) :
    (bucketLines anchorEdits).Pairwise (· > ·) := by
  have hsorted : (bucketLines anchorEdits).Pairwise (· ≥ ·) := pairwise_insertionSort _ _
  have hnodup : (bucketLines anchorEdits).Nodup :=
    (perm_insertionSort _ _).nodup_iff.mpr (nodup_dedup _)
  apply (hsorted.and hnodup).imp
  rintro left right ⟨hge, hne⟩
  exact lt_of_le_of_ne hge (Ne.symm hne)

theorem bucketSlot_of_notMem (h : line ∉ bucketLines anchorEdits) (currentLine : JsString) :
    bucketSlot anchorEdits line currentLine = [currentLine] := by
  have hbucket : anchorEdits.filter (fun edit ↦ bucketLine edit = line) = [] := by
    rw [filter_eq_nil_iff]
    intro edit hedit
    simpa using fun hline ↦ h (mem_bucketLines.mpr ⟨edit, hedit, hline⟩)
  simp [bucketSlot, hbucket]

/-- The splices fill the slot of every line of the file. -/
theorem spliceBuckets_eq_rebuild
    (h : ∀ edit ∈ anchorEdits, 1 ≤ bucketLine edit ∧ bucketLine edit ≤ fileLines.length) :
    spliceBuckets anchorEdits fileLines = rebuild (bucketSlot anchorEdits) 1 fileLines := by
  have hrange : ∀ line ∈ bucketLines anchorEdits, 1 ≤ line ∧ line ≤ fileLines.length := by
    intro line hline
    obtain ⟨edit, hedit, rfl⟩ := mem_bucketLines.mp hline
    exact h edit hedit
  have hsplice := foldl_spliceAt (bucketSlot anchorEdits) [] []
    (pairwise_bucketLines anchorEdits) hrange
  calc
    spliceBuckets anchorEdits fileLines =
        rebuild (slotAt (bucketSlot anchorEdits) (bucketLines anchorEdits)) 1 fileLines := by
      rw [append_nil, append_nil] at hsplice
      exact hsplice
    _ = rebuild (bucketSlot anchorEdits) 1 fileLines := by
      apply rebuild_congr
      intro pos item _ _
      unfold slotAt
      split_ifs with hmem
      · rfl
      · exact (bucketSlot_of_notMem hmem item).symm

/-- The text an effect puts before a line. -/
def LineEffect.textBefore (line : ℕ) : LineEffect → Option JsString
  | .insert (.beforeAnchor anchor) text => if anchor.line = line then some text else none
  | _ => none

/-- The slot of a line as the effects of a batch determine it. -/
def effectSlot (effects : List LineEffect) (line : ℕ) (currentLine : JsString) : List JsString :=
  effects.filterMap (LineEffect.textBefore line) ++
    if LineEffect.delete line ∈ effects then [] else [currentLine]

theorem bucket_texts (hline : 1 ≤ line) (edits : List HashlineEdit) :
    ((edits.filter isAnchorEdit).filter fun edit ↦ bucketLine edit = line).filterMap insertText =
      (edits.map HashlineEdit.effect).filterMap (textBefore line) := by
  have hzero : 0 ≠ line := by omega
  rw [filter_filter, filterMap_filter, filterMap_map]
  apply filterMap_congr
  intro edit _
  rcases edit with ⟨cursor, text, lineNum, index⟩ | edit
  · cases cursor with
    | bof | eof => simp [isAnchorEdit, HashlineEdit.effect, textBefore]
    | beforeAnchor anchor =>
      by_cases hanchor : anchor.line = line
      · simp [isAnchorEdit, bucketLine, insertText, HashlineEdit.effect, textBefore, hanchor]
      · simp [bucketLine, HashlineEdit.effect, textBefore, hanchor]
    | afterAnchor =>
      simp [bucketLine, hzero, HashlineEdit.effect, textBefore]
  · simp [insertText, HashlineEdit.effect, textBefore]

theorem bucket_any_isDeleteEdit (line : ℕ) (edits : List HashlineEdit) :
    ((edits.filter isAnchorEdit).filter fun edit ↦ bucketLine edit = line).any isDeleteEdit ↔
      delete line ∈ edits.map HashlineEdit.effect := by
  simp only [any_eq_true, mem_filter, mem_map, decide_eq_true_eq]
  constructor
  · rintro ⟨edit, ⟨⟨hmem, _⟩, hline⟩, hdelete⟩
    cases edit with
    | insert => cases hdelete
    | delete edit => exact ⟨.delete edit, hmem, congrArg delete hline⟩
  · rintro ⟨edit, hmem, heffect⟩
    cases edit with
    | insert => cases heffect
    | delete edit =>
      exact ⟨.delete edit, ⟨⟨hmem, rfl⟩, delete.inj heffect⟩, rfl⟩

theorem bucketSlot_eq_effectSlot (hline : 1 ≤ line) (edits : List HashlineEdit)
    (currentLine : JsString) :
    bucketSlot (edits.filter isAnchorEdit) line currentLine =
      effectSlot (edits.map HashlineEdit.effect) line currentLine := by
  unfold bucketSlot effectSlot
  dsimp only
  rw [bucket_texts hline]
  by_cases hdelete : delete line ∈ edits.map HashlineEdit.effect
  · rw [if_pos ((bucket_any_isDeleteEdit line edits).mpr hdelete), if_pos hdelete, append_nil]
  · rw [if_neg (mt (bucket_any_isDeleteEdit line edits).mp hdelete), if_neg hdelete]
/-! ## Turned cursors -/

section

variable (computeLineHash : ℕ → JsString → JsString) (fileLines : List JsString)

def LineEffect.normalize : LineEffect → LineEffect
  | .insert cursor text => .insert (normalizeCursor computeLineHash fileLines cursor) text
  | .delete line => .delete line

theorem delete_mem_of_normalize {effects : List LineEffect}
    (h : delete line ∈ effects.map (normalize computeLineHash fileLines)) :
    delete line ∈ effects := by
  obtain ⟨effect, hmem, heffect⟩ := mem_map.mp h
  cases effect with
  | insert => cases heffect
  | delete => rwa [← heffect]

/-- Turning cursors keeps every text that already stood before a line. -/
theorem textsBefore_sublist_normalize (line : ℕ) (effects : List LineEffect) :
    (effects.filterMap (textBefore line)).Sublist
      ((effects.map (normalize computeLineHash fileLines)).filterMap (textBefore line)) := by
  induction effects with
  | nil => exact Sublist.refl _
  | cons effect rest ih =>
    rcases effect with ⟨cursor, text⟩ | other
    · cases cursor with
      | bof => exact ih
      | eof => exact ih
      | beforeAnchor anchor =>
        by_cases hanchor : anchor.line = line
        · simpa [textBefore, LineEffect.normalize, normalizeCursor, hanchor] using ih
        · simpa [textBefore, LineEffect.normalize, normalizeCursor, hanchor] using ih
      | afterAnchor =>
        apply ih.trans
        apply Sublist.filterMap
        exact sublist_cons_self _ _
    · exact ih

/-- A cursor or a deleted line that names lines of the file only. -/
def LineEffect.InFile (length : ℕ) : LineEffect → Prop
  | .insert cursor _ => ∀ anchor ∈ cursor.anchor?, 1 ≤ anchor.line ∧ anchor.line ≤ length
  | .delete line => 1 ≤ line ∧ line ≤ length

theorem bucketLine_mem_file_of_normalize
    (h : ∀ effect ∈ edits.map HashlineEdit.effect, effect.InFile fileLines.length) :
    ∀ edit ∈ (edits.map (normalizeEdit computeLineHash fileLines)).filter isAnchorEdit,
      1 ≤ bucketLine edit ∧ bucketLine edit ≤ fileLines.length := by
  intro edit hedit
  obtain ⟨hmem, hanchor⟩ := mem_filter.mp hedit
  obtain ⟨source, hsource, rfl⟩ := mem_map.mp hmem
  have hin := h source.effect (mem_map_of_mem hsource)
  rcases source with ⟨cursor, text, lineNum, index⟩ | source
  · cases cursor with
    | bof | eof => simp [normalizeEdit, normalizeCursor, isAnchorEdit] at hanchor
    | beforeAnchor anchor => exact hin anchor rfl
    | afterAnchor anchor =>
      by_cases hlast : fileLines.length ≤ anchor.line
      · simp [normalizeEdit, normalizeCursor, isAnchorEdit, hlast] at hanchor
      · simp only [normalizeEdit, normalizeCursor, if_neg hlast, bucketLine]
        omega
  · exact hin

end

/-! ## Lines at the start and the end of the file -/

theorem eq_nil_of_sublist_blank (h : kept.Sublist [[]])
    (hkept : ∀ line ∈ kept, line ≠ []) : kept = [] := by
  apply eq_nil_iff_forall_not_mem.mpr
  intro line hline
  exact hkept line hline (mem_singleton.mp (h.subset hline))

theorem sublist_insertAtStart (h : kept.Sublist fileLines)
    (hkept : ∀ line ∈ kept, line ≠ []) (lines : List JsString) :
    kept.Sublist (insertAtStart fileLines lines) := by
  unfold insertAtStart
  split_ifs with hnone hblank
  · exact h
  · rw [eq_nil_of_sublist_blank (hblank ▸ h) hkept]
    exact nil_sublist _
  · exact h.trans (sublist_append_right _ _)

theorem sublist_insert_between (index : ℕ) (fileLines lines : List JsString) :
    fileLines.Sublist (fileLines.take index ++ lines ++ fileLines.drop index) := by
  calc
    fileLines = fileLines.take index ++ fileLines.drop index := (take_append_drop _ _).symm
    Sublist _ (fileLines.take index ++ lines ++ fileLines.drop index) :=
      Sublist.append (sublist_append_left _ _) (Sublist.refl _)

theorem sublist_insertAtEnd (h : kept.Sublist fileLines)
    (hkept : ∀ line ∈ kept, line ≠ []) (lines : List JsString) :
    kept.Sublist (insertAtEnd fileLines lines).1 := by
  unfold insertAtEnd
  split_ifs with hnone hblank
  · exact h
  · rw [eq_nil_of_sublist_blank (hblank ▸ h) hkept]
    exact nil_sublist _
  · exact h.trans (sublist_insert_between _ _ _)
  · exact h.trans (sublist_insert_between _ _ _)

end GajaeCode.Hashline
