import GajaeCode.Hashline.Apply
import Mathlib.Algebra.Order.BigOperators.Group.List

/-!
# Recovering edits with stale anchors

When the anchors of a batch no longer match the file, the batch is replayed on every cached snapshot
of the file, newest first, and the first replay that merges cleanly onto the current text wins. A
snapshot is tried only when it vouches for every anchored line.

All attempts share the caller's edit objects, and a replay turns the cursors of inserts after a line
in place. A generation that replays the batch without recovering it therefore leaves a batch behind
whose cursors name the lines of that generation.

The line diff and the patch merge are parameters.
-/

namespace GajaeCode.Hashline

open Text List Segment

variable {snapshot : FileReadSnapshot} {edits : List HashlineEdit} {anchors : List Anchor}

structure FileReadSnapshot where
  lines : List (ℕ × JsString)
  lineCount : Option ℕ
  lines_nodup : (lines.map Prod.fst).Nodup
  lines_pos : ∀ entry ∈ lines, 1 ≤ entry.1

def FileReadSnapshot.line? (snapshot : FileReadSnapshot) (line : ℕ) : Option JsString :=
  (snapshot.lines.find? fun entry ↦ entry.1 = line).map Prod.snd

structure PatchHunk where
  oldStart : ℕ
  oldLines : ℕ
  newStart : ℕ
  newLines : ℕ
  lines : List JsString
  deriving DecidableEq

structure DiffEngine where
  structuredPatchHunks : JsString → JsString → ℕ → List PatchHunk
  applyPatch : JsString → List PatchHunk → Option JsString
  firstChangedLine : JsString → JsString → Option ℕ

structure HashlineRecoveryResult where
  lines : JsString
  firstChangedLine : Option ℕ
  warnings : List JsString
  deriving DecidableEq

def hashlineRecoveryWarning : JsString :=
  utf16 "Recovered from stale anchors using a previous read snapshot (file changed between read and edit)."

/-! ## Hunks -/

def isContextLine (line : JsString) : Bool := line.head? = some 0x20

def isOldLine (line : JsString) : Bool := isContextLine line || line.head? = some 0x2D

def isNewLine (line : JsString) : Bool := isContextLine line || line.head? = some 0x2B

/-- The number on the old side of each hunk line that stands there. -/
def oldLineNumbers : ℕ → List JsString → List (Option ℕ)
  | _, [] => []
  | oldLine, line :: rest =>
    if isOldLine line then some oldLine :: oldLineNumbers (oldLine + 1) rest
    else none :: oldLineNumbers oldLine rest

def isCovered (snapshot : FileReadSnapshot) (lineNum : Option ℕ) : Bool :=
  match lineNum with
  | none => false
  | some line => (snapshot.line? line).isSome

/-- Drops context outside the snapshot at both ends; refuses a hunk that still reaches outside. -/
def trimHunkToSnapshot (hunk : PatchHunk) (snapshot : FileReadSnapshot) : Option PatchHunk :=
  let numbered := hunk.lines.zip (oldLineNumbers hunk.oldStart hunk.lines)
  let outside := fun (entry : JsString × Option ℕ) ↦
    isContextLine entry.1 && !isCovered snapshot entry.2
  let start := (numbered.takeWhile outside).length
  let kept := ((numbered.dropWhile outside).reverse.dropWhile outside).reverse
  if kept.any fun entry ↦ entry.2.isSome && !isCovered snapshot entry.2 then none
  else
    let lines := kept.map Prod.fst
    some ⟨hunk.oldStart + start, (lines.filter isOldLine).length, hunk.newStart + start,
      (lines.filter isNewLine).length, lines⟩

def occurrences (block lines : List JsString) : ℕ :=
  (List.range (lines.length + 1)).countP fun start ↦
    start + block.length ≤ lines.length ∧ (lines.drop start).take block.length = block

def everyHunkLandsUniquely (hunks : List PatchHunk) (lines : List JsString) : Bool :=
  hunks.all fun hunk ↦
    let oldSide := (hunk.lines.filter isOldLine).map (List.drop 1)
    decide (oldSide ≠ [] ∧ occurrences oldSide lines = 1)

/-! ## One snapshot -/

def collectEditAnchors (edits : List HashlineEdit) : List Anchor :=
  edits.flatMap getHashlineEditAnchors

/-- The current text with the lines of a snapshot laid over it; a full snapshot sets the length. -/
def previousText (snapshot : FileReadSnapshot) (currentText : JsString) : JsString :=
  let current := splitLines currentText
  let maxCachedLine := (snapshot.lines.map Prod.fst).foldl max 0
  let padded := current ++ List.replicate (maxCachedLine - current.length) []
  let overlaid := snapshot.lines.foldl (fun lines entry ↦ lines.set (entry.1 - 1) entry.2) padded
  joinLines (match snapshot.lineCount with
    | none => overlaid
    | some count => overlaid.take count ++ List.replicate (count - overlaid.length) [])

section

variable (computeLineHash : ℕ → JsString → JsString) (engine : DiffEngine)

variable (snapshot : FileReadSnapshot)

def vouchesFor (anchors : List Anchor) : Bool :=
  anchors.all fun anchor ↦
    match snapshot.line? anchor.line with
    | none => false
    | some cachedLine =>
      anchor.hash = rangeInteriorHash || computeLineHash anchor.line cachedLine = anchor.hash

/-- Merges a replay onto the current text. -/
def mergeReplay (currentText previous : JsString)
    (applied : HashlineApplyResult) : Option HashlineRecoveryResult :=
  if applied.lines = previous then none
  else
    match (engine.structuredPatchHunks previous applied.lines 3).mapM fun hunk ↦
      trimHunkToSnapshot hunk snapshot with
    | none => none
    | some hunks =>
      if everyHunkLandsUniquely hunks (splitLines previous) = false then none
      else if everyHunkLandsUniquely hunks (splitLines currentText) = false then none
      else
        match engine.applyPatch currentText hunks with
        | none => none
        | some merged =>
          if merged = currentText then none
          else
            let changed := engine.firstChangedLine currentText merged
            some ⟨merged, changed.or applied.firstChangedLine,
              (if changed.isSome then [hashlineRecoveryWarning] else []) ++ applied.warnings⟩

/-- One attempt, with the caller's batch as it leaves it. -/
def tryRecoverFromSnapshot (anchors : List Anchor)
    (currentText : JsString) (edits : List HashlineEdit) (options : HashlineApplyOptions) :
    Except HashlineError (Option HashlineRecoveryResult) × List HashlineEdit :=
  if snapshot.lines = [] then (.ok none, edits)
  else if vouchesFor computeLineHash snapshot anchors = false then (.ok none, edits)
  else if previousText snapshot currentText = currentText then (.ok none, edits)
  else
    match applyHashlineEdits computeLineHash (previousText snapshot currentText) edits options with
    | .error (.mismatch _ _) => (.ok none, edits)
    | .error (.missingLine line count) => (.error (.missingLine line count), edits)
    | .ok (applied, after) =>
      (.ok (mergeReplay engine snapshot currentText (previousText snapshot currentText) applied), after)

/-- The loop over the generations; the anchors were collected before it. -/
def recoverFromGenerations (anchors : List Anchor) (currentText : JsString)
    (options : HashlineApplyOptions) :
    List FileReadSnapshot → List HashlineEdit →
      Except HashlineError (Option HashlineRecoveryResult) × List HashlineEdit
  | [], edits => (.ok none, edits)
  | snapshot :: rest, edits =>
    match tryRecoverFromSnapshot computeLineHash engine snapshot anchors currentText edits options with
    | (.ok none, after) => recoverFromGenerations anchors currentText options rest after
    | outcome => outcome

def tryRecoverHashlineWithCache (generations : List FileReadSnapshot) (currentText : JsString)
    (edits : List HashlineEdit) (options : HashlineApplyOptions) :
    Except HashlineError (Option HashlineRecoveryResult) × List HashlineEdit :=
  recoverFromGenerations computeLineHash engine (collectEditAnchors edits) currentText options
    generations edits

/-- The first recovery when every generation is tried on a fresh copy of the batch. -/
def firstFreshRecovery (generations : List FileReadSnapshot) (currentText : JsString)
    (edits : List HashlineEdit) (options : HashlineApplyOptions) :
    Except HashlineError (Option HashlineRecoveryResult) :=
  match generations with
  | [] => .ok none
  | snapshot :: rest =>
    match (tryRecoverFromSnapshot computeLineHash engine snapshot (collectEditAnchors edits)
      currentText edits options).1 with
    | .ok none => firstFreshRecovery rest currentText edits options
    | outcome => outcome

end
/-! ## Turned cursors in the caller's batch -/

def isAfterInsert : HashlineEdit → Bool
  | .insert edit => edit.cursor.isAfterAnchor
  | .delete _ => false

def afterCount (edits : List HashlineEdit) : ℕ := edits.countP isAfterInsert

section

variable (computeLineHash : ℕ → JsString → JsString) (fileLines : List JsString)
  (options : HashlineApplyOptions)

/-- The segment hands on an insert after a line as the caller's own object. -/
def Segment.turnsCursor (segment : Segment) : Bool :=
  segment.sharesEdits fileLines options && segment.edits.any isAfterInsert

/-- A replay on these lines changes the caller's batch. -/
def turnsCursor (edits : List HashlineEdit) : Bool :=
  (segments edits).any (Segment.turnsCursor fileLines options)

variable {computeLineHash fileLines options}

theorem isAfterInsert_normalizeEdit (edit : HashlineEdit) :
    isAfterInsert (normalizeEdit computeLineHash fileLines edit) = false := by
  rcases edit with ⟨cursor, text, lineNum, index⟩ | edit
  · cases cursor with
    | bof | eof | beforeAnchor => rfl
    | afterAnchor anchor =>
      by_cases hlast : fileLines.length ≤ anchor.line
      · simp [normalizeEdit, normalizeCursor, hlast, isAfterInsert, HashlineCursor.isAfterAnchor]
      · simp [normalizeEdit, normalizeCursor, hlast, isAfterInsert, HashlineCursor.isAfterAnchor]
  · rfl

theorem normalizeEdit_of_not_after {edit : HashlineEdit} (h : isAfterInsert edit = false) :
    normalizeEdit computeLineHash fileLines edit = edit := by
  rcases edit with ⟨cursor, text, lineNum, index⟩ | edit
  · cases cursor with
    | bof | eof | beforeAnchor => rfl
    | afterAnchor => cases h
  · rfl

theorem editsAfter_of_not_turnsCursor {seg : Segment}
    (h : seg.turnsCursor fileLines options = false) :
    seg.editsAfter computeLineHash fileLines options = seg.edits := by
  unfold editsAfter
  split_ifs with hshares
  · rw [Segment.turnsCursor, hshares, Bool.true_and, any_eq_false] at h
    calc
      seg.edits.map (normalizeEdit computeLineHash fileLines) = seg.edits.map id := by
        apply map_congr_left
        intro edit hedit
        exact normalizeEdit_of_not_after (Bool.eq_false_iff.mpr (h edit hedit))
      _ = seg.edits := map_id _
  · rfl

theorem afterCount_editsAfter_lt {seg : Segment} (h : seg.turnsCursor fileLines options) :
    afterCount (seg.editsAfter computeLineHash fileLines options) < afterCount seg.edits := by
  rw [Segment.turnsCursor, Bool.and_eq_true] at h
  obtain ⟨hshares, hafter⟩ := h
  have hzero : afterCount (seg.editsAfter computeLineHash fileLines options) = 0 := by
    rw [editsAfter, if_pos hshares, afterCount, countP_eq_zero]
    intro edit hedit
    obtain ⟨source, _, rfl⟩ := mem_map.mp hedit
    simp [isAfterInsert_normalizeEdit]
  rw [hzero]
  obtain ⟨edit, hedit, hinsert⟩ := any_eq_true.mp hafter
  exact countP_pos_iff.mpr ⟨edit, hedit, hinsert⟩

theorem afterCount_editsAfter_le (seg : Segment) :
    afterCount (seg.editsAfter computeLineHash fileLines options) ≤ afterCount seg.edits := by
  cases hturns : seg.turnsCursor fileLines options with
  | false => rw [editsAfter_of_not_turnsCursor hturns]
  | true => exact (afterCount_editsAfter_lt hturns).le

end
/-! ## Runs over the generations -/

section

variable (computeLineHash : ℕ → JsString → JsString) (engine : DiffEngine)
  (options : HashlineApplyOptions) (currentText : JsString)

/-- The batch gets as far as being replayed on the snapshot. -/
def Replays (snapshot : FileReadSnapshot) (anchors : List Anchor) (edits : List HashlineEdit) : Prop :=
  snapshot.lines ≠ [] ∧ vouchesFor computeLineHash snapshot anchors = true ∧
    previousText snapshot currentText ≠ currentText ∧
    validateHashlineAnchors computeLineHash edits
      (splitLines (previousText snapshot currentText)) = .ok []

/-- The replay reaches an insert after a line that is the caller's own object. -/
def Disturbs (snapshot : FileReadSnapshot) (anchors : List Anchor) (edits : List HashlineEdit) :
    Prop :=
  Replays computeLineHash currentText snapshot anchors edits ∧
    turnsCursor (splitLines (previousText snapshot currentText)) options edits = true

variable {computeLineHash options currentText}

theorem attempt_edits_of_replays (h : Replays computeLineHash currentText snapshot anchors edits) :
    (tryRecoverFromSnapshot computeLineHash engine snapshot anchors currentText edits options).2 =
      editsAfterNormalization computeLineHash (splitLines (previousText snapshot currentText))
        options edits := by
  obtain ⟨hlines, hvouches, hchanged, hvalid⟩ := h
  unfold tryRecoverFromSnapshot applyHashlineEdits
  rw [if_neg hlines, if_neg (by simp [hvouches]), if_neg hchanged, hvalid]
  split_ifs with hempty
  · rw [hempty]
    rfl
  · rfl

theorem attempt_edits_of_not_replays
    (h : ¬ Replays computeLineHash currentText snapshot anchors edits) :
    (tryRecoverFromSnapshot computeLineHash engine snapshot anchors currentText edits options).2 =
      edits := by
  unfold tryRecoverFromSnapshot
  split_ifs with hlines hvouches hchanged
  · rfl
  · rfl
  · rfl
  · -- the anchors must have failed, so the batch was not touched
    have hvouches' : vouchesFor computeLineHash snapshot anchors := by simpa using hvouches
    cases happly : applyHashlineEdits computeLineHash (previousText snapshot currentText) edits
      options with
    | error error => cases error <;> rfl
    | ok outcome =>
      rcases applyHashlineEdits_cases computeLineHash happly with ⟨hempty, -⟩ | ⟨hvalid, -⟩
      · rw [hempty] at h
        exact absurd ⟨hlines, hvouches', hchanged, rfl⟩ h
      · exact absurd ⟨hlines, hvouches', hchanged, hvalid⟩ h

theorem attempt_edits_of_not_disturbs
    (h : ¬ Disturbs computeLineHash options currentText snapshot anchors edits) :
    (tryRecoverFromSnapshot computeLineHash engine snapshot anchors currentText edits options).2 =
      edits := by
  by_cases hreplays : Replays computeLineHash currentText snapshot anchors edits
  · rw [attempt_edits_of_replays engine hreplays]
    calc
      _ = (segments edits).flatMap Segment.edits := by
        apply flatMap_congr
        intro seg hseg
        exact editsAfter_of_not_turnsCursor (Bool.eq_false_iff.mpr fun hturns ↦
          h ⟨hreplays, any_eq_true.mpr ⟨seg, hseg, hturns⟩⟩)
      _ = edits := flatMap_edits_segments edits
  · exact attempt_edits_of_not_replays engine hreplays

theorem afterCount_attempt_lt
    (h : Disturbs computeLineHash options currentText snapshot anchors edits) :
    afterCount (tryRecoverFromSnapshot computeLineHash engine snapshot anchors currentText edits
      options).2 < afterCount edits := by
  rw [attempt_edits_of_replays engine h.1]
  calc
    _ < afterCount ((segments edits).flatMap Segment.edits) := by
      obtain ⟨seg, hseg, hturns⟩ := any_eq_true.mp h.2
      rw [editsAfterNormalization, afterCount, afterCount, countP_flatMap, countP_flatMap]
      exact sum_lt_sum _ _ (fun other _ ↦ afterCount_editsAfter_le other)
        ⟨seg, hseg, afterCount_editsAfter_lt hturns⟩
    _ = afterCount edits := by rw [flatMap_edits_segments]

/-- No run over the generations turns a cursor back. -/
theorem afterCount_recoverFromGenerations_le (anchors : List Anchor)
    (gens : List FileReadSnapshot) (edits : List HashlineEdit) :
    afterCount (recoverFromGenerations computeLineHash engine anchors currentText options gens
      edits).2 ≤ afterCount edits := by
  induction gens generalizing edits with
  | nil => exact le_rfl
  | cons snapshot rest ih =>
    have hattempt : afterCount (tryRecoverFromSnapshot computeLineHash engine snapshot anchors
        currentText edits options).2 ≤ afterCount edits := by
      by_cases hdisturbs : Disturbs computeLineHash options currentText snapshot anchors edits
      · exact (afterCount_attempt_lt engine hdisturbs).le
      · rw [attempt_edits_of_not_disturbs engine hdisturbs]
    rw [recoverFromGenerations]
    split
    · rename_i after hnone
      rw [hnone] at hattempt
      exact (ih after).trans hattempt
    · exact hattempt

end
section

variable (computeLineHash : ℕ → JsString → JsString) (engine : DiffEngine)
  (options : HashlineApplyOptions) (currentText : JsString) (edits : List HashlineEdit)

/-- Every generation that is reached, with all earlier ones recovering nothing from the original
batch, leaves the cursors alone. -/
def Undisturbed (generations : List FileReadSnapshot) : Prop :=
  ∀ earlier snapshot later, generations = earlier ++ snapshot :: later →
    (∀ previous ∈ earlier, (tryRecoverFromSnapshot computeLineHash engine previous
      (collectEditAnchors edits) currentText edits options).1 = .ok none) →
    ¬ Disturbs computeLineHash options currentText snapshot (collectEditAnchors edits) edits

theorem undisturbed_cons {rest : List FileReadSnapshot} :
    Undisturbed computeLineHash engine options currentText edits (snapshot :: rest) ↔
      ¬ Disturbs computeLineHash options currentText snapshot (collectEditAnchors edits) edits ∧
        ((tryRecoverFromSnapshot computeLineHash engine snapshot (collectEditAnchors edits)
            currentText edits options).1 = .ok none →
          Undisturbed computeLineHash engine options currentText edits rest) := by
  constructor
  · intro h
    refine ⟨h [] snapshot rest rfl (by simp), ?_⟩
    intro hnone earlier other later hrest hearlier
    apply h (snapshot :: earlier) other later (by rw [hrest, cons_append])
    intro prev hprev
    rcases mem_cons.mp hprev with rfl | hmem
    · exact hnone
    · exact hearlier prev hmem
  · rintro ⟨hfirst, hothers⟩ earlier other later hgens hearlier
    cases earlier with
    | nil =>
      rw [nil_append, cons.injEq] at hgens
      rw [← hgens.1]
      exact hfirst
    | cons prev earlier =>
      rw [cons_append, cons.injEq] at hgens
      obtain ⟨rfl, hrest⟩ := hgens
      have hnone := hearlier snapshot mem_cons_self
      apply hothers hnone earlier other later hrest
      intro prev hprev
      exact hearlier prev (mem_cons_of_mem snapshot hprev)

/-- A turned cursor is never turned back. -/
theorem afterCount_recoverFromGenerations_lt
    (rest : List FileReadSnapshot) (h : Disturbs computeLineHash options currentText snapshot
      (collectEditAnchors edits) edits) :
    afterCount (recoverFromGenerations computeLineHash engine (collectEditAnchors edits) currentText
      options (snapshot :: rest) edits).2 < afterCount edits := by
  have hattempt := afterCount_attempt_lt engine h
  rw [recoverFromGenerations]
  split
  · rename_i after hnone
    rw [hnone] at hattempt
    exact (afterCount_recoverFromGenerations_le engine _ rest after).trans_lt hattempt
  · exact hattempt

end

/-! ## A batch that a failed attempt has changed -/

def commonLead : List JsString → List JsString → ℕ
  | left :: lefts, right :: rights => if left = right then commonLead lefts rights + 1 else 0
  | _, _ => 0

/-- A line diff with one hunk around everything between the common lead and the common tail. -/
def singleHunk (old new : JsString) (context : ℕ) : List PatchHunk :=
  let oldFile := splitLines old
  let newFile := splitLines new
  let lead := commonLead oldFile newFile
  let tail := commonLead (oldFile.drop lead).reverse (newFile.drop lead).reverse
  let before := (oldFile.take lead).drop (lead - context)
  let removed := (oldFile.take (oldFile.length - tail)).drop lead
  let added := (newFile.take (newFile.length - tail)).drop lead
  let after := (oldFile.drop (oldFile.length - tail)).take context
  [⟨lead - before.length + 1, before.length + removed.length + after.length,
    lead - before.length + 1, before.length + added.length + after.length,
    before.map (List.cons 0x20) ++ removed.map (List.cons 0x2D) ++ added.map (List.cons 0x2B) ++
      after.map (List.cons 0x20)⟩]

/-- Replaces the old side of every hunk where it is first found. -/
def patchLines (lines : List JsString) (hunks : List PatchHunk) : Option (List JsString) :=
  hunks.foldlM (fun current hunk ↦
    let oldSide := (hunk.lines.filter isOldLine).map (List.drop 1)
    let newSide := (hunk.lines.filter isNewLine).map (List.drop 1)
    ((List.range current.length).find? fun start ↦
      (current.drop start).take oldSide.length = oldSide).map fun start ↦
        current.take start ++ newSide ++ current.drop (start + oldSide.length)) lines

def singleHunkEngine : DiffEngine where
  structuredPatchHunks := singleHunk
  applyPatch text hunks := (patchLines (splitLines text) hunks).map joinLines
  firstChangedLine old new :=
    if old = new then none else some (commonLead (splitLines old) (splitLines new) + 1)

/-- Inserts `Y` after the first line, which the batch knows as `a`; lines are their own hashes. -/
def staleEdits : List HashlineEdit := [.insert ⟨.afterAnchor ⟨1, utf16 "a"⟩, utf16 "Y", 1, 0⟩]

def newerSnapshot : FileReadSnapshot :=
  ⟨[(1, utf16 "a"), (2, utf16 "b")], none, by decide, by decide⟩

def olderSnapshot : FileReadSnapshot :=
  ⟨[(1, utf16 "a"), (2, utf16 "c")], none, by decide, by decide⟩

def recoveredText : HashlineRecoveryResult :=
  ⟨utf16 "z\na\nY\nc", some 3, [hashlineRecoveryWarning]⟩

end GajaeCode.Hashline
