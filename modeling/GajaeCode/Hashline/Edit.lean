import GajaeCode.Text.Decimal
import GajaeCode.Text.Lines

/-!
# Hashline edits

An edit batch inserts lines at a cursor and deletes anchored lines. An anchor is a line number with
a short hash of the line's text; a batch is accepted when every anchored line exists and carries
the hash. Before the edits are applied the batch is read as segments: replacement groups (inserts
before a line followed by deletes of that line and its successors), runs of pure inserts at one
cursor, and single edits.

The hash of a line is a parameter. Content hints and old-text assertions are not read here and are
left out.
-/

namespace GajaeCode.Hashline

open Text List Option

variable {group : HashlineReplacementGroup} {rest : List HashlineEdit} {line : ℕ}
  {mismatches : List HashMismatch} {fileLines : List JsString}

structure Anchor where
  line : ℕ
  hash : JsString
  deriving DecidableEq

inductive HashlineCursor
  | bof
  | eof
  | beforeAnchor (anchor : Anchor)
  | afterAnchor (anchor : Anchor)
  deriving DecidableEq

structure HashlineInsertEdit where
  cursor : HashlineCursor
  text : JsString
  lineNum : ℕ
  index : ℕ
  deriving DecidableEq

structure HashlineDeleteEdit where
  anchor : Anchor
  lineNum : ℕ
  index : ℕ
  deriving DecidableEq

inductive HashlineEdit
  | insert (edit : HashlineInsertEdit)
  | delete (edit : HashlineDeleteEdit)
  deriving DecidableEq

structure HashlineApplyOptions where
  autoDropPureInsertDuplicates : Bool := false
  deriving DecidableEq

/-- The hash of lines inside a range, which is not checked. -/
def rangeInteriorHash : JsString := utf16 "**"

def HashlineCursor.anchor? : HashlineCursor → Option Anchor
  | .bof => none
  | .eof => none
  | .beforeAnchor anchor => some anchor
  | .afterAnchor anchor => some anchor

/-- The anchors of one edit, at most one; `collectEditAnchors` gathers the same ones. -/
def getHashlineEditAnchors : HashlineEdit → List Anchor
  | .insert edit => edit.cursor.anchor?.toList
  | .delete edit => [edit.anchor]

def getAnchorTargetLine : HashlineEdit → Option ℕ
  | .insert edit => edit.cursor.anchor?.map Anchor.line
  | .delete edit => some edit.anchor.line

def collectAnchorTargetLines (edits : List HashlineEdit) : List ℕ :=
  edits.filterMap getAnchorTargetLine

/-- The lines that the delete edits of a batch name. -/
def deletedLines (edits : List HashlineEdit) : List ℕ :=
  edits.filterMap fun
    | .insert _ => none
    | .delete edit => some edit.anchor.line

theorem mem_deletedLines {edits : List HashlineEdit} :
    line ∈ deletedLines edits ↔ ∃ edit, .delete edit ∈ edits ∧ edit.anchor.line = line := by
  simp only [deletedLines, mem_filterMap]
  constructor
  · rintro ⟨edit | edit, hmem, hline⟩
    · cases hline
    · exact ⟨edit, hmem, some.inj hline⟩
  · rintro ⟨edit, hmem, hline⟩
    exact ⟨.delete edit, hmem, congrArg some hline⟩

theorem mem_collectAnchorTargetLines_of_mem_deletedLines {edits : List HashlineEdit}
    (h : line ∈ deletedLines edits) : line ∈ collectAnchorTargetLines edits := by
  obtain ⟨edit, hmem, hline⟩ := mem_deletedLines.mp h
  exact mem_filterMap.mpr ⟨.delete edit, hmem, congrArg some hline⟩

/-! ## Validation -/

structure HashMismatch where
  line : ℕ
  expected : JsString
  actual : JsString
  deriving DecidableEq

inductive HashlineError
  | missingLine (line fileLineCount : ℕ)
  | mismatch (mismatches : List HashMismatch) (fileLines : List JsString)
  deriving DecidableEq

/-- The message of the plain error; a mismatch is rendered with the file by its own class. -/
def missingLineMessage (line fileLineCount : ℕ) : JsString :=
  utf16 "Line " ++ natText line ++ utf16 " does not exist (file has " ++ natText fileLineCount ++
    utf16 " lines)"

section

variable (computeLineHash : ℕ → JsString → JsString)

/-- One line of the file by its number; `fileLines[line - 1] ?? ""`. -/
def fileLine (fileLines : List JsString) (line : ℕ) : JsString := fileLines[line - 1]?.getD []

def anchorMismatch (fileLines : List JsString) (anchor : Anchor) : List HashMismatch :=
  if anchor.hash = rangeInteriorHash then []
  else
    let actualHash := computeLineHash anchor.line (fileLine fileLines anchor.line)
    if actualHash = anchor.hash then []
    else [{ line := anchor.line, expected := anchor.hash, actual := actualHash }]

/-- The mismatches of all anchors; the first anchor outside the file ends the check at once. -/
def validateAnchors (fileLines : List JsString) : List Anchor → Except HashlineError (List HashMismatch)
  | [] => .ok []
  | anchor :: rest =>
    if anchor.line < 1 ∨ fileLines.length < anchor.line then
      .error (.missingLine anchor.line fileLines.length)
    else
      match validateAnchors fileLines rest with
      | .error error => .error error
      | .ok mismatches => .ok (anchorMismatch computeLineHash fileLines anchor ++ mismatches)

def validateHashlineAnchors (edits : List HashlineEdit) (fileLines : List JsString) :
    Except HashlineError (List HashMismatch) :=
  validateAnchors computeLineHash fileLines (edits.flatMap getHashlineEditAnchors)

theorem anchor_mem_file_of_validateAnchors {anchors : List Anchor}
    (h : validateAnchors computeLineHash fileLines anchors = .ok mismatches) :
    ∀ anchor ∈ anchors, 1 ≤ anchor.line ∧ anchor.line ≤ fileLines.length := by
  induction anchors generalizing mismatches with
  | nil => simp
  | cons anchor rest ih =>
    rw [validateAnchors] at h
    split_ifs at h with hrange
    push Not at hrange
    intro other hother
    rcases mem_cons.mp hother with rfl | hmem
    · exact hrange
    · cases hrest : validateAnchors computeLineHash fileLines rest with
      | error => simp [hrest] at h
      | ok => exact ih hrest other hmem

theorem targetLines_mem_file_of_validate {edits : List HashlineEdit}
    (h : validateHashlineAnchors computeLineHash edits fileLines = .ok mismatches) :
    ∀ line ∈ collectAnchorTargetLines edits, 1 ≤ line ∧ line ≤ fileLines.length := by
  intro line hline
  obtain ⟨edit, hedit, htarget⟩ := mem_filterMap.mp hline
  have hanchor : ∃ anchor ∈ getHashlineEditAnchors edit, anchor.line = line := by
    cases edit with
    | insert =>
      obtain ⟨anchor, hanchor, rfl⟩ := map_eq_some_iff.mp htarget
      exact ⟨anchor, by simp [getHashlineEditAnchors, hanchor], rfl⟩
    | delete edit =>
      exact ⟨edit.anchor, by simp [getHashlineEditAnchors], some.inj htarget⟩
  obtain ⟨anchor, hmem, rfl⟩ := hanchor
  exact anchor_mem_file_of_validateAnchors computeLineHash h anchor
    (mem_flatMap.mpr ⟨edit, hedit, hmem⟩)

end
/-! ## Segments of a batch -/

/-- The longest run of inserts at the front that pass a test, and what follows the run. -/
def spanInserts (test : HashlineInsertEdit → Bool) :
    List HashlineEdit → List HashlineInsertEdit × List HashlineEdit
  | .insert edit :: rest =>
    if test edit then (edit :: (spanInserts test rest).1, (spanInserts test rest).2)
    else ([], .insert edit :: rest)
  | edits => ([], edits)

/-- The longest run of deletes at the front with one source line. -/
def spanDeletes (sourceLineNum : ℕ) :
    List HashlineEdit → List HashlineDeleteEdit × List HashlineEdit
  | .delete edit :: rest =>
    if edit.lineNum = sourceLineNum then
      (edit :: (spanDeletes sourceLineNum rest).1, (spanDeletes sourceLineNum rest).2)
    else ([], .delete edit :: rest)
  | edits => ([], edits)

theorem spanInserts_append (test : HashlineInsertEdit → Bool) (edits : List HashlineEdit) :
    (spanInserts test edits).1.map .insert ++ (spanInserts test edits).2 = edits := by
  fun_induction spanInserts test edits with
  | case1 edit rest htest ih => simp [ih]
  | case2 => rfl
  | case3 => rfl

theorem spanInserts_all (test : HashlineInsertEdit → Bool) (edits : List HashlineEdit) :
    ∀ edit ∈ (spanInserts test edits).1, test edit := by
  fun_induction spanInserts test edits with
  | case1 edit rest htest ih =>
    intro other hother
    rcases mem_cons.mp hother with rfl | hmem
    · exact htest
    · exact ih other hmem
  | case2 => simp
  | case3 => simp

variable (sourceLineNum : ℕ)

theorem spanDeletes_append (edits : List HashlineEdit) :
    (spanDeletes sourceLineNum edits).1.map .delete ++ (spanDeletes sourceLineNum edits).2 =
      edits := by
  fun_induction spanDeletes sourceLineNum edits with
  | case1 edit rest hline ih => simp [ih]
  | case2 => rfl
  | case3 => rfl

def HashlineCursor.isBeforeAnchor : HashlineCursor → Bool
  | .beforeAnchor _ => true
  | _ => false

def isReplacementInsert (edit : HashlineInsertEdit) : Bool :=
  edit.lineNum = sourceLineNum && edit.cursor.isBeforeAnchor

/-- Inserts before anchors followed by deletes of successive lines, all from one source line. -/
structure HashlineReplacementGroup where
  sourceLineNum : ℕ
  inserts : List HashlineInsertEdit
  deletes : List HashlineDeleteEdit
  startLine : ℕ
  inserts_before : ∀ edit ∈ inserts, isReplacementInsert sourceLineNum edit = true
  deletes_ne_nil : deletes ≠ []
  contiguous : deletes.map (fun edit ↦ edit.anchor.line) = List.range' startLine deletes.length

namespace HashlineReplacementGroup

def replacement (group : HashlineReplacementGroup) : List JsString :=
  group.inserts.map HashlineInsertEdit.text

def endLine (group : HashlineReplacementGroup) : ℕ := group.startLine + group.deletes.length - 1

def edits (group : HashlineReplacementGroup) : List HashlineEdit :=
  group.inserts.map .insert ++ group.deletes.map .delete

theorem startLine_le_endLine (group : HashlineReplacementGroup) :
    group.startLine ≤ group.endLine := by
  have hpos : 0 < group.deletes.length := length_pos_iff.mpr group.deletes_ne_nil
  unfold endLine
  omega

theorem deletedLines_edits (group : HashlineReplacementGroup) :
    deletedLines group.edits = range' group.startLine group.deletes.length := by
  have hinserts : deletedLines (group.inserts.map .insert) = [] := by
    simp [deletedLines]
  have hdeletes : deletedLines (group.deletes.map .delete) =
      group.deletes.map fun edit ↦ edit.anchor.line := by
    simp [deletedLines]
  calc
    deletedLines group.edits =
        deletedLines (group.inserts.map .insert) ++ deletedLines (group.deletes.map .delete) :=
      filterMap_append
    _ = range' group.startLine group.deletes.length := by
      rw [hinserts, hdeletes, group.contiguous, nil_append]

theorem mem_deletedLines_edits :
    line ∈ deletedLines group.edits ↔ group.startLine ≤ line ∧ line ≤ group.endLine := by
  have hpos : 0 < group.deletes.length := length_pos_iff.mpr group.deletes_ne_nil
  rw [deletedLines_edits, mem_range'_1, endLine]
  omega

end HashlineReplacementGroup

open HashlineReplacementGroup

/-- The replacement group at the front of a batch, and the edits after it.

The deletes must name successive lines from the first one on, and the first insert must stand
before that line; the anchors of the other inserts are not compared. -/
def findReplacementGroup (edits : List HashlineEdit) :
    Option (HashlineReplacementGroup × List HashlineEdit) :=
  match edits with
  | .insert ⟨.beforeAnchor anchor, _, sourceLineNum, _⟩ :: _ =>
    let inserts := spanInserts (isReplacementInsert sourceLineNum) edits
    let deletes := spanDeletes sourceLineNum inserts.2
    if h : deletes.1 ≠ [] ∧ deletes.1.map (fun edit ↦ edit.anchor.line) =
        List.range' anchor.line deletes.1.length then
      some (⟨sourceLineNum, inserts.1, deletes.1, anchor.line, spanInserts_all _ _, h.1, h.2⟩,
        deletes.2)
    else none
  | _ => none

theorem findReplacementGroup_append {edits : List HashlineEdit}
    (h : findReplacementGroup edits = some (group, rest)) :
    group.edits ++ rest = edits := by
  unfold findReplacementGroup at h
  split at h
  · dsimp only at h
    split_ifs at h with hshape
    obtain ⟨rfl, rfl⟩ := h
    simp only [edits]
    rw [append_assoc, spanDeletes_append, spanInserts_append]
  · exact absurd h (by simp)

/-- Anchors carry only their line and hash here, so cursors match when they are equal. -/
def cursorMatches (left right : HashlineCursor) : Bool := left = right

/-- A run of inserts at one cursor from one source line. -/
structure HashlinePureInsertGroup where
  sourceLineNum : ℕ
  cursor : HashlineCursor
  inserts : List HashlineInsertEdit
  inserts_cursor : ∀ edit ∈ inserts, edit.cursor = cursor

namespace HashlinePureInsertGroup

def payload (group : HashlinePureInsertGroup) : List JsString :=
  group.inserts.map HashlineInsertEdit.text

def edits (group : HashlinePureInsertGroup) : List HashlineEdit := group.inserts.map .insert

end HashlinePureInsertGroup

def isPureInsert (cursor : HashlineCursor) (edit : HashlineInsertEdit) : Bool :=
  edit.lineNum = sourceLineNum && cursorMatches edit.cursor cursor

theorem cursor_eq_of_isPureInsert {sourceLineNum : ℕ} {cursor : HashlineCursor}
    {edit : HashlineInsertEdit} (h : isPureInsert sourceLineNum cursor edit) :
    edit.cursor = cursor := by
  simp only [isPureInsert, cursorMatches, Bool.and_eq_true, decide_eq_true_eq] at h
  exact h.2

def startsWithDelete : List HashlineEdit → Bool
  | .delete edit :: _ => edit.lineNum = sourceLineNum
  | _ => false

/-- The pure-insert group at the front of a batch, declined when deletes of its source line follow. -/
def findPureInsertGroup (edits : List HashlineEdit) :
    Option (HashlinePureInsertGroup × List HashlineEdit) :=
  match edits with
  | .insert first :: _ =>
    let run := spanInserts (isPureInsert first.lineNum first.cursor) edits
    if startsWithDelete first.lineNum run.2 then none
    else
      some (⟨first.lineNum, first.cursor, run.1,
        fun edit hedit ↦ cursor_eq_of_isPureInsert (spanInserts_all _ _ edit hedit)⟩, run.2)
  | _ => none

theorem findPureInsertGroup_append {edits : List HashlineEdit}
    {group : HashlinePureInsertGroup} (h : findPureInsertGroup edits = some (group, rest)) :
    group.edits ++ rest = edits := by
  unfold findPureInsertGroup at h
  split at h
  · dsimp only at h
    split_ifs at h with hdelete
    obtain ⟨rfl, rfl⟩ := h
    exact spanInserts_append _ _
  · exact absurd h (by simp)
/-- One step of the pass over a batch. -/
inductive Segment
  | single (edit : HashlineEdit)
  | pureInsert (group : HashlinePureInsertGroup)
  | replacement (group : HashlineReplacementGroup)

/-- The edits of the batch that a segment stands for. -/
def Segment.edits : Segment → List HashlineEdit
  | .single edit => [edit]
  | .pureInsert group => group.edits
  | .replacement group => group.edits

/-- The segment at the front of a batch, and the edits after it. -/
def nextSegment (edit : HashlineEdit) (rest : List HashlineEdit) : Segment × List HashlineEdit :=
  match findReplacementGroup (edit :: rest) with
  | some (group, after) => (.replacement group, after)
  | none =>
    match findPureInsertGroup (edit :: rest) with
    | some (group, after) => (.pureInsert group, after)
    | none => (.single edit, rest)

theorem nextSegment_append (edit : HashlineEdit) (rest : List HashlineEdit) :
    (nextSegment edit rest).1.edits ++ (nextSegment edit rest).2 = edit :: rest := by
  unfold nextSegment
  split
  · rename_i group after hgroup
    exact findReplacementGroup_append hgroup
  · split
    · rename_i group after hgroup
      exact findPureInsertGroup_append hgroup
    · rfl
theorem findPureInsertGroup_edits_ne_nil {edits : List HashlineEdit}
    {group : HashlinePureInsertGroup} (h : findPureInsertGroup edits = some (group, rest)) :
    group.edits ≠ [] := by
  unfold findPureInsertGroup at h
  split at h
  · rename_i first others
    dsimp only at h
    split_ifs at h with hdelete
    obtain ⟨rfl, rfl⟩ := h
    -- the run starts with the insert whose cursor it compares against
    have hfirst : isPureInsert first.lineNum first.cursor first := by
      simp [isPureInsert, cursorMatches]
    simp [HashlinePureInsertGroup.edits, spanInserts, hfirst]
  · exact absurd h (by simp)

theorem nextSegment_edits_ne_nil (edit : HashlineEdit) (rest : List HashlineEdit) :
    (nextSegment edit rest).1.edits ≠ [] := by
  unfold nextSegment
  split
  · rename_i group after hgroup
    simp [Segment.edits, edits, group.deletes_ne_nil]
  · split
    · rename_i group after hgroup
      exact findPureInsertGroup_edits_ne_nil hgroup
    · exact cons_ne_nil edit []

theorem nextSegment_length_le (edit : HashlineEdit) (rest : List HashlineEdit) :
    (nextSegment edit rest).2.length ≤ rest.length := by
  have hlength := congrArg length (nextSegment_append edit rest)
  have hpos : 0 < (nextSegment edit rest).1.edits.length :=
    length_pos_iff.mpr (nextSegment_edits_ne_nil edit rest)
  rw [length_append, length_cons] at hlength
  omega

/-- The segments of a batch; every segment takes at least one edit of the fuel. -/
def segmentsWithin : ℕ → List HashlineEdit → List Segment
  | 0, _ => []
  | _ + 1, [] => []
  | fuel + 1, edit :: rest =>
    (nextSegment edit rest).1 :: segmentsWithin fuel (nextSegment edit rest).2

def segments (edits : List HashlineEdit) : List Segment := segmentsWithin edits.length edits

theorem flatMap_edits_segmentsWithin {fuel : ℕ} {edits : List HashlineEdit}
    (h : edits.length ≤ fuel) : (segmentsWithin fuel edits).flatMap Segment.edits = edits := by
  induction fuel generalizing edits with
  | zero =>
    have hnil : edits = [] := length_eq_zero_iff.mp (Nat.le_zero.mp h)
    rw [hnil]
    rfl
  | succ fuel ih =>
    cases edits with
    | nil => rfl
    | cons edit rest =>
      have hrest : (nextSegment edit rest).2.length ≤ fuel :=
        (nextSegment_length_le edit rest).trans (by simpa using h)
      calc
        (segmentsWithin (fuel + 1) (edit :: rest)).flatMap Segment.edits =
            (nextSegment edit rest).1.edits ++
              (segmentsWithin fuel (nextSegment edit rest).2).flatMap Segment.edits := rfl
        _ = (nextSegment edit rest).1.edits ++ (nextSegment edit rest).2 := by rw [ih hrest]
        _ = edit :: rest := nextSegment_append edit rest

/-- The segments of a batch are the batch, cut up. -/
theorem flatMap_edits_segments (edits : List HashlineEdit) :
    (segments edits).flatMap Segment.edits = edits :=
  flatMap_edits_segmentsWithin le_rfl

/-- The replacement groups of a batch. -/
def replacementGroups (edits : List HashlineEdit) : List HashlineReplacementGroup :=
  (segments edits).filterMap fun
    | .replacement group => some group
    | _ => none

theorem mem_replacementGroups {edits : List HashlineEdit} :
    group ∈ replacementGroups edits ↔ .replacement group ∈ segments edits := by
  simp only [replacementGroups, mem_filterMap]
  constructor
  · rintro ⟨seg, hseg, hgroup⟩
    cases seg with
    | single => cases hgroup
    | pureInsert => cases hgroup
    | replacement =>
      cases hgroup
      exact hseg
  · intro hgroup
    exact ⟨.replacement group, hgroup, rfl⟩

/-- A replacement group targets every line from its first to its last deleted one. -/
theorem mem_deletedLines_of_replacementGroup {edits : List HashlineEdit}
    (h : group ∈ replacementGroups edits)
    (hstart : group.startLine ≤ line) (hend : line ≤ group.endLine) : line ∈ deletedLines edits := by
  have hgroup : line ∈ deletedLines group.edits :=
    mem_deletedLines_edits.mpr ⟨hstart, hend⟩
  obtain ⟨edit, hedit, hline⟩ := mem_deletedLines.mp hgroup
  apply mem_deletedLines.mpr
  refine ⟨edit, ?_, hline⟩
  rw [← flatMap_edits_segments edits]
  exact mem_flatMap.mpr ⟨.replacement group, mem_replacementGroups.mp h, hedit⟩

end GajaeCode.Hashline
