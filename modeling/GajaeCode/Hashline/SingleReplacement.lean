import GajaeCode.Hashline.Untargeted

/-!
# One replacement

A batch that is a single replacement writes its payload in place of the range and of everything it
absorbed around it. The result is the file before the widened range, the payload, and the file after
it. Counting non-empty lines then shows that the batch loses a line exactly when a payload line that
is not blank stands for two absorbed lines.
-/

namespace GajaeCode.Hashline

open Text Chain List HashlineEdit HashlineReplacementGroup

variable {cursor : HashlineCursor}

/-- A rebuild that writes one block at one line. -/
theorem rebuild_single_block {α : Type*} (block : List α) (start line : ℕ) (items : List α) :
    rebuild (fun pos _ ↦ if pos = line then block else []) start items =
      if start ≤ line ∧ line < start + items.length then block else [] := by
  induction items generalizing start with
  | nil => exact (if_neg (by rw [length_nil]; omega)).symm
  | cons item rest ih =>
    rw [rebuild, ih, length_cons]
    by_cases hline : start = line
    · rw [if_pos hline, if_neg (by omega), if_pos (by omega), append_nil]
    · rw [if_neg hline, nil_append]
      exact if_congr (by omega) rfl rfl

section

variable (fileLines : List JsString) (targetLines : List ℕ) (group : HashlineReplacementGroup)

/-- The first line that is not before the widened range, and the last line inside it. -/
def HashlineReplacementGroup.firstWidened : ℕ :=
  group.startLine - group.safePrefixCount fileLines targetLines

def HashlineReplacementGroup.lastWidened : ℕ :=
  group.endLine + group.safeSuffixCount fileLines targetLines

theorem textsBefore_replacementEffects (hstart : group.PayloadAtStart) (line : ℕ) :
    (replacementEffects fileLines targetLines group).filterMap (LineEffect.textBefore line) =
      if line = group.startLine then group.replacement else [] := by
  have hdeletes : ∀ lines : List ℕ,
      (lines.map LineEffect.delete).filterMap (LineEffect.textBefore line) = [] := by
    intro lines
    rw [filterMap_map]
    exact filterMap_eq_nil_iff.mpr fun _ _ ↦ rfl
  have hown : (group.deletes.map delete).map effect =
      (group.deletes.map fun edit ↦ edit.anchor.line).map LineEffect.delete := by
    rw [map_map, map_map]
    rfl
  unfold replacementEffects edits
  simp only [map_append, filterMap_append, hdeletes, hown, nil_append, append_nil,
    group.textsBefore_inserts hstart]

theorem delete_mem_replacementEffects {line : ℕ} :
    LineEffect.delete line ∈ replacementEffects fileLines targetLines group ↔
      group.firstWidened fileLines targetLines ≤ line ∧
        line ≤ group.lastWidened fileLines targetLines := by
  have hle := (group.matchesAbove_safePrefixCount fileLines targetLines).2.1
  have hrange := group.startLine_le_endLine
  unfold replacementEffects firstWidened lastWidened
  simp only [mem_append, mem_map, LineEffect.delete.injEq, exists_eq_right, mem_range'_1]
  rw [← mem_map, delete_mem_map_effect, mem_deletedLines_edits]
  omega

/-- Whatever a replacement inserts, it inserts before a line. -/
theorem cursor_of_mem_replacementEffects {text : JsString}
    (h : LineEffect.insert cursor text ∈ replacementEffects fileLines targetLines group) :
    cursor.isBeforeAnchor := by
  simp only [replacementEffects, edits, map_append, mem_append,
    mem_map, reduceCtorEq, and_false, exists_false, false_or, or_false] at h
  rcases h with ⟨_, ⟨edit, hedit, rfl⟩, heffect⟩ | ⟨_, ⟨edit, _, rfl⟩, heffect⟩
  · have hbefore := group.inserts_before edit hedit
    simp only [isReplacementInsert, Bool.and_eq_true] at hbefore
    rw [effect, LineEffect.insert.injEq] at heffect
    rw [← heffect.1]
    exact hbefore.2
  · cases heffect

theorem map_normalize_replacementEffects (computeLineHash : ℕ → JsString → JsString) :
    (replacementEffects fileLines targetLines group).map
        (LineEffect.normalize computeLineHash fileLines) =
      replacementEffects fileLines targetLines group := by
  have hsame : ∀ effect ∈ replacementEffects fileLines targetLines group,
      LineEffect.normalize computeLineHash fileLines effect = effect := by
    intro effect heffect
    cases effect with
    | insert cursor =>
      have hbefore := cursor_of_mem_replacementEffects fileLines targetLines group heffect
      cases cursor with
      | beforeAnchor => rfl
      | bof | eof | afterAnchor => cases hbefore
    | delete => rfl
  rw [map_congr_left hsame, map_id']

/-- The payload stands between the file before and the file after the widened range. -/
theorem rebuild_replacementEffects (hstart : group.PayloadAtStart) (hfirst : 1 ≤ group.startLine)
    (hlast : group.endLine ≤ fileLines.length) :
    rebuild (effectSlot (replacementEffects fileLines targetLines group)) 1 fileLines =
      fileLines.take (group.firstWidened fileLines targetLines - 1) ++ group.replacement ++
        fileLines.drop (group.lastWidened fileLines targetLines) := by
  obtain ⟨-, habove, -⟩ := group.matchesAbove_safePrefixCount fileLines targetLines
  obtain ⟨-, hbelow, -⟩ := group.matchesBelow_safeSuffixCount fileLines targetLines
  have hrange := group.startLine_le_endLine
  generalize hlow : group.firstWidened fileLines targetLines = first
  generalize hhigh : group.lastWidened fileLines targetLines = last
  have hfirst' : 1 ≤ first ∧ first ≤ group.startLine := by
    rw [← hlow, firstWidened]
    omega
  have hlast' : group.endLine ≤ last ∧ last ≤ fileLines.length := by
    rw [← hhigh, lastWidened]
    omega
  generalize hslots : effectSlot (replacementEffects fileLines targetLines group) = slot
  have hslot : ∀ line currentLine, slot line currentLine =
      (if line = group.startLine then group.replacement else []) ++
        if first ≤ line ∧ line ≤ last then [] else [currentLine] := by
    intro line currentLine
    rw [← hslots, effectSlot, textsBefore_replacementEffects fileLines targetLines group hstart line]
    simp [delete_mem_replacementEffects, hlow, hhigh]
  -- the file before the range, the range, the file after it
  have hcut : fileLines.take (first - 1) ++
      ((fileLines.take last).drop (first - 1) ++ fileLines.drop last) = fileLines := by
    have htake : fileLines.take (first - 1) = (fileLines.take last).take (first - 1) := by
      rw [take_take, min_eq_left (by omega)]
    rw [htake, ← append_assoc, take_append_drop, take_append_drop]
  have hbefore : 1 + (fileLines.take (first - 1)).length = first := by
    rw [length_take_of_le (by omega)]
    omega
  have hafter : first + ((fileLines.take last).drop (first - 1)).length = last + 1 := by
    rw [length_drop, length_take_of_le hlast'.2]
    omega
  generalize fileLines.take (first - 1) = front at *
  generalize (fileLines.take last).drop (first - 1) = middle at *
  generalize fileLines.drop last = back at *
  have hfront : rebuild slot 1 front = front := by
    refine (rebuild_congr ?_).trans (rebuild_singleton 1 _)
    intro pos item _ hpos
    rw [hslot, if_neg (by omega), if_neg (by omega), nil_append]
  have hmiddle : rebuild slot first middle = group.replacement := by
    refine (rebuild_congr ?_).trans ((rebuild_single_block group.replacement first
      group.startLine middle).trans (if_pos (by omega)))
    intro pos item hpos hpos'
    rw [hslot, if_pos (by omega : first ≤ pos ∧ pos ≤ last), append_nil]
  have hback : rebuild slot (last + 1) back = back := by
    refine (rebuild_congr ?_).trans (rebuild_singleton (last + 1) _)
    intro pos item hpos _
    rw [hslot, if_neg (by omega), if_neg (by omega), nil_append]
  rw [← hcut, rebuild_append, rebuild_append, hbefore, hafter, hfront, hmiddle, hback, append_assoc]

/-- The untargeted lines of a single replacement: those before the range and those after it. -/
theorem untargetedLines_of_range {edits : List HashlineEdit} (hfirst : 1 ≤ group.startLine)
    (hlast : group.endLine ≤ fileLines.length)
    (hdeleted : ∀ line, line ∈ deletedLines edits ↔ group.startLine ≤ line ∧ line ≤ group.endLine) :
    untargetedLines fileLines edits =
      (fileLines.take (group.startLine - 1)).filter (fun line ↦ line ≠ []) ++
        (fileLines.drop group.endLine).filter fun line ↦ line ≠ [] := by
  have hrange := group.startLine_le_endLine
  -- both sides list the same line numbers in increasing order
  have hpositions : (range' 1 fileLines.length).filter (fun line ↦ line ∉ deletedLines edits) =
      range' 1 (group.startLine - 1) ++
        range' (group.endLine + 1) (fileLines.length - group.endLine) := by
    apply (Pairwise.filter _ pairwise_lt_range').eq_of_mem_iff
    · refine pairwise_append.mpr ⟨pairwise_lt_range', pairwise_lt_range', ?_⟩
      simp only [mem_range'_1]
      omega
    · intro line
      simp only [mem_filter, decide_eq_true_eq, hdeleted, mem_append, mem_range'_1]
      omega
  have hrest : (fileLines.drop group.endLine).take (fileLines.length - group.endLine) =
      fileLines.drop group.endLine := take_of_length_le (by simp)
  unfold untargetedLines untargetedPositions
  simp only [Bool.decide_and, Bool.and_comm (decide (_ ∉ _)), ← filter_filter]
  have hfilled (lines : List ℕ) : (lines.filter fun line ↦ fileLine fileLines line ≠ []).map
      (fileLine fileLines) = (lines.map (fileLine fileLines)).filter fun line ↦ line ≠ [] := by
    rw [filter_map]
    rfl
  rw [hpositions, hfilled, map_append, filter_append, map_fileLine_range' le_rfl (by omega),
    map_fileLine_range' (by omega) (by omega), Nat.sub_self, drop_zero, Nat.add_sub_cancel, hrest]

end

section

variable (computeLineHash : ℕ → JsString → JsString) (options : HashlineApplyOptions)
  {fileLines : List JsString} {edits : List HashlineEdit} {group : HashlineReplacementGroup}
  (hsegments : segments edits = [.replacement group])

include hsegments

theorem replacementGroups_of_single : replacementGroups edits = [group] := by
  unfold replacementGroups
  rw [hsegments]
  rfl

theorem mem_replacementGroups_of_single : group ∈ replacementGroups edits := by
  rw [replacementGroups_of_single hsegments]
  exact mem_cons_self

theorem edits_of_single : edits = group.edits := by
  have hedits := flatMap_edits_segments edits
  rw [hsegments] at hedits
  simpa [Segment.edits] using hedits.symm

theorem batchEffects_of_single : batchEffects fileLines options edits =
    replacementEffects fileLines (collectAnchorTargetLines edits) group := by
  unfold batchEffects
  rw [hsegments]
  exact append_nil _

theorem filterMap_textAtCursor_of_single (hcursor : cursor.isBeforeAnchor = false) :
    (normalizedEdits computeLineHash options fileLines edits).filterMap (textAtCursor cursor) =
      [] := by
  rw [filterMap_eq_nil_iff]
  intro edit hedit
  have heffect : edit.effect ∈
      replacementEffects fileLines (collectAnchorTargetLines edits) group := by
    rw [← map_normalize_replacementEffects _ _ _ computeLineHash, ← batchEffects_of_single options hsegments,
      ← map_effect_normalizedEdits]
    exact mem_map_of_mem hedit
  cases edit with
  | insert =>
    have hbefore := cursor_of_mem_replacementEffects fileLines _ group heffect
    apply if_neg
    intro hsame
    rw [hsame, hcursor] at hbefore
    cases hbefore
  | delete => rfl

/-- The file after a batch that is one replacement. -/
theorem applyNormalized_of_single
    (hfile : ∀ line ∈ collectAnchorTargetLines edits, 1 ≤ line ∧ line ≤ fileLines.length)
    (hstart : group.PayloadAtStart) :
    (applyNormalized (normalizedEdits computeLineHash options fileLines edits) fileLines).1 =
      fileLines.take (group.firstWidened fileLines (collectAnchorTargetLines edits) - 1) ++
        group.replacement ++
          fileLines.drop (group.lastWidened fileLines (collectAnchorTargetLines edits)) := by
  have hgroup := mem_replacementGroups_of_single hsegments
  have hbof : (normalizedEdits computeLineHash options fileLines edits).filterMap
      (textAtCursor .bof) = [] :=
    filterMap_textAtCursor_of_single computeLineHash options hsegments rfl
  have heof : (normalizedEdits computeLineHash options fileLines edits).filterMap
      (textAtCursor .eof) = [] :=
    filterMap_textAtCursor_of_single computeLineHash options hsegments rfl
  unfold applyNormalized
  simp only [hbof, heof, insertAtStart, insertAtEnd, if_true]
  rw [spliceBuckets_eq_rebuild_batchSlot computeLineHash options hfile, batchSlot,
    batchEffects_of_single options hsegments, map_normalize_replacementEffects]
  exact rebuild_replacementEffects fileLines _ group hstart (group_mem_file hfile hgroup).1
    (group_mem_file hfile hgroup).2

end

/-! ## Counting lines -/

section

variable (fileLines : List JsString) (targetLines : List ℕ) (group : HashlineReplacementGroup)

theorem take_startLine_eq : fileLines.take (group.startLine - 1) =
      fileLines.take (group.firstWidened fileLines targetLines - 1) ++
        group.replacement.take (group.safePrefixCount fileLines targetLines) := by
  obtain ⟨-, hfits, habove⟩ := group.matchesAbove_safePrefixCount fileLines targetLines
  unfold firstWidened
  generalize group.safePrefixCount fileLines targetLines = above at *
  have hlen : group.startLine - 1 = group.startLine - 1 - above + above := by omega
  calc
    fileLines.take (group.startLine - 1) = fileLines.take (group.startLine - 1 - above + above) :=
      congrArg (take · fileLines) hlen
    _ = _ := by rw [take_add, habove, Nat.sub_right_comm]

theorem drop_endLine_eq : fileLines.drop group.endLine =
      group.replacement.drop (group.replacement.length - group.safeSuffixCount fileLines targetLines) ++
        fileLines.drop (group.lastWidened fileLines targetLines) := by
  obtain ⟨-, -, hbelow⟩ := group.matchesBelow_safeSuffixCount fileLines targetLines
  rw [lastWidened, ← hbelow, ← drop_drop, take_append_drop]

variable {fileLines targetLines group}

/-- When the two blocks meet, the payload consists of file lines. -/
theorem replacement_subset_of_shared (hshared : group.sharedPayload fileLines targetLines ≠ []) :
    group.replacement ⊆ fileLines := by
  obtain ⟨-, -, habove⟩ := group.matchesAbove_safePrefixCount fileLines targetLines
  obtain ⟨-, -, hbelow⟩ := group.matchesBelow_safeSuffixCount fileLines targetLines
  unfold sharedPayload at hshared
  generalize group.replacement.length - group.safeSuffixCount fileLines targetLines = cut at *
  have hmeet : cut ≤ group.safePrefixCount fileLines targetLines := by
    by_contra hapart
    apply hshared
    apply drop_eq_nil_of_le
    exact (length_take_le _ _).trans (by omega)
  intro line hline
  rw [← take_append_drop cut group.replacement, mem_append] at hline
  rcases hline with hlead | htrail
  · have hmem := (take_sublist_take_left hmeet).subset hlead
    rw [← habove] at hmem
    exact mem_of_mem_drop (mem_of_mem_take hmem)
  · rw [← hbelow] at htrail
    exact mem_of_mem_drop (mem_of_mem_take htrail)

/-- The count of the lines that are not empty. -/
def filledCount (lines : List JsString) : ℕ := lines.countP fun line ↦ line ≠ []

theorem filledCount_append (front back : List JsString) :
    filledCount (front ++ back) = filledCount front + filledCount back :=
  countP_append

/-- Two blocks that fit in the payload share only blank lines. -/
theorem shared_blank_of_filledCount {payload : List JsString} {above below : ℕ}
    (h : filledCount (payload.take above) + filledCount (payload.drop (payload.length - below)) ≤
      filledCount payload) :
    ∀ line ∈ (payload.take above).drop (payload.length - below), line = [] := by
  generalize payload.length - below = cut at *
  have hcut : ∀ lines : List JsString,
      filledCount lines = filledCount (lines.take cut) + filledCount (lines.drop cut) := by
    intro lines
    rw [← filledCount_append, take_append_drop]
  have hlead := hcut (payload.take above)
  have hwhole := hcut payload
  by_cases hmeet : cut ≤ above
  · rw [take_take, min_eq_left hmeet] at hlead
    have hzero : filledCount ((payload.take above).drop cut) = 0 := by omega
    intro line hline
    have hblank := countP_eq_zero.mp hzero line hline
    simpa using hblank
  · have hnone : (payload.take above).drop cut = [] := by
      apply drop_eq_nil_of_le
      exact (length_take_le _ _).trans (by omega)
    simp [hnone]

end
/-! ## The result -/

section

variable {computeLineHash : ℕ → JsString → JsString} {text : JsString} {edits : List HashlineEdit}
  {options : HashlineApplyOptions} {outcome : HashlineApplyResult × List HashlineEdit}
  {group : HashlineReplacementGroup}

/-- The lines of the result when the two absorbed blocks meet: the payload is made of file lines, so
the text is cut where it was joined. -/
theorem splitLines_applyChecked_of_single
    (hsegments : segments edits = [.replacement group]) (hstart : group.PayloadAtStart)
    (hfile : ∀ line ∈ collectAnchorTargetLines edits, 1 ≤ line ∧ line ≤ (splitLines text).length)
    (hshared : group.sharedPayload (splitLines text) (collectAnchorTargetLines edits) ≠ []) :
    splitLines (applyChecked computeLineHash (splitLines text) edits options).lines =
      (splitLines text).take
          (group.firstWidened (splitLines text) (collectAnchorTargetLines edits) - 1) ++
        group.replacement ++ (splitLines text).drop
          (group.lastWidened (splitLines text) (collectAnchorTargetLines edits)) := by
  have hlines := applyNormalized_of_single computeLineHash options hsegments hfile hstart
  rw [← hlines]
  apply splitOn_intercalate
  · intro line hline
    rw [hlines, mem_append, mem_append] at hline
    have hmem : line ∈ splitLines text := by
      rcases hline with (hfront | hpayload) | hback
      · exact mem_of_mem_take hfront
      · exact replacement_subset_of_shared hshared hpayload
      · exact mem_of_mem_drop hback
    exact newlineUnit_notMem_of_mem_splitLines hmem
  · intro hnone
    rw [hlines, append_eq_nil_iff, append_eq_nil_iff] at hnone
    apply hshared
    rw [sharedPayload, hnone.1.2, take_nil, drop_nil]

/-- A single replacement that keeps the untargeted lines shares no filled payload line. -/
theorem shared_blank_of_keepsUntargeted
    (h : applyHashlineEdits computeLineHash text edits options = .ok outcome)
    (hsegments : segments edits = [.replacement group]) (hstart : group.PayloadAtStart)
    (hkeeps : KeepsUntargeted text edits outcome.1) :
    ∀ line ∈ group.sharedPayload (splitLines text) (collectAnchorTargetLines edits), line = [] := by
  rcases applyHashlineEdits_cases computeLineHash h with ⟨hempty, -⟩ | ⟨hvalid, rfl⟩
  · rw [hempty] at hsegments
    cases hsegments
  have hfile := targetLines_mem_file_of_validate computeLineHash hvalid
  have hgroup := mem_replacementGroups_of_single hsegments
  have hdeleted : ∀ line, line ∈ deletedLines edits ↔
      group.startLine ≤ line ∧ line ≤ group.endLine := by
    intro line
    rw [edits_of_single hsegments]
    exact mem_deletedLines_edits
  by_cases hshared : group.sharedPayload (splitLines text) (collectAnchorTargetLines edits) = []
  · simp [hshared]
  have hcount : filledCount (untargetedLines (splitLines text) edits) ≤
      filledCount (splitLines (applyChecked computeLineHash (splitLines text) edits options).lines) :=
    Sublist.countP_le hkeeps
  have hfilled : ∀ lines : List JsString,
      filledCount (lines.filter fun line ↦ line ≠ []) = filledCount lines := by
    simp [filledCount, countP_filter]
  have habove := congrArg filledCount
    (take_startLine_eq (splitLines text) (collectAnchorTargetLines edits) group)
  have hbelow := congrArg filledCount
    (drop_endLine_eq (splitLines text) (collectAnchorTargetLines edits) group)
  rw [splitLines_applyChecked_of_single hsegments hstart hfile hshared,
    untargetedLines_of_range (splitLines text) group
    (group_mem_file hfile hgroup).1 (group_mem_file hfile hgroup).2 hdeleted,
    filledCount_append, hfilled, hfilled, filledCount_append, filledCount_append] at hcount
  rw [filledCount_append] at habove hbelow
  apply shared_blank_of_filledCount
  omega

end

/-- A faithful absorption keeps every line that no delete edit targets, and a batch that is one
replacement keeps them only with a faithful absorption. -/
theorem applyHashlineEdits_keepsUntargeted (computeLineHash : ℕ → JsString → JsString)
    {text : JsString} {edits : List HashlineEdit} {options : HashlineApplyOptions}
    {outcome : HashlineApplyResult × List HashlineEdit}
    (h : applyHashlineEdits computeLineHash text edits options = .ok outcome) :
    (AbsorbsFaithfully (splitLines text) edits → KeepsUntargeted text edits outcome.1) ∧
      ∀ group : HashlineReplacementGroup, segments edits = [.replacement group] →
        group.PayloadAtStart →
          (KeepsUntargeted text edits outcome.1 ↔ AbsorbsFaithfully (splitLines text) edits) := by
  have hsufficient : AbsorbsFaithfully (splitLines text) edits →
      KeepsUntargeted text edits outcome.1 :=
    keepsUntargeted_of_absorbsFaithfully computeLineHash h
  refine ⟨hsufficient, ?_⟩
  intro group hsegments hstart
  constructor
  · intro hkeeps
    have hblank := shared_blank_of_keepsUntargeted h hsegments hstart hkeeps
    have hgroups := replacementGroups_of_single hsegments
    constructor
    · intro other hother _
      rw [hgroups, mem_singleton] at hother
      rw [hother]
      exact hstart
    · intro other hother
      rw [hgroups, mem_singleton] at hother
      rw [hother]
      exact hblank
    · rw [hgroups]
      exact (nodup_singleton group.startLine).sublist (filter_sublist.map startLine)
  · exact hsufficient

/-- Five lines of which the two above the third are also the two below it. -/
def mirroredFile : JsString := utf16 "A\nB\nX\nA\nB"

def sampleLineHash (_ : ℕ) (_ : JsString) : JsString := utf16 "aa"

/-- Replaces the third line by the given payload. -/
def replaceThird (payload : List JsString) : List HashlineEdit :=
  payload.mapIdx (fun index text ↦
    .insert ⟨.beforeAnchor ⟨3, utf16 "aa"⟩, text, 1, index⟩) ++
      [.delete ⟨⟨3, utf16 "aa"⟩, 1, payload.length⟩]

/-- A payload that repeats the two lines above and adds a third one. -/
def addedEdits : List HashlineEdit := replaceThird [utf16 "A", utf16 "B", utf16 "Y"]

def addedGroup : HashlineReplacementGroup :=
  ⟨1, [⟨.beforeAnchor ⟨3, utf16 "aa"⟩, utf16 "A", 1, 0⟩,
      ⟨.beforeAnchor ⟨3, utf16 "aa"⟩, utf16 "B", 1, 1⟩,
      ⟨.beforeAnchor ⟨3, utf16 "aa"⟩, utf16 "Y", 1, 2⟩],
    [⟨⟨3, utf16 "aa"⟩, 1, 3⟩], 3, by decide, by decide, by decide⟩

def addedOutcome : HashlineApplyResult × List HashlineEdit :=
  (⟨utf16 "A\nB\nY\nA\nB", some 1, [AbsorbNotice.warning ⟨.aboveReplacement, 2, 1, 1, 2⟩]⟩,
    addedEdits)

theorem keepsUntargeted_added_line : KeepsUntargeted mirroredFile addedEdits addedOutcome.1 ∧
      (KeepsUntargeted mirroredFile addedEdits addedOutcome.1 ↔
        AbsorbsFaithfully (splitLines mirroredFile) addedEdits) := by
  have happly : applyHashlineEdits sampleLineHash mirroredFile addedEdits {} = .ok addedOutcome := by
    decide +kernel
  have hresult := applyHashlineEdits_keepsUntargeted sampleLineHash happly
  exact ⟨hresult.1 (by decide +kernel), hresult.2 addedGroup rfl (by decide)⟩

/-- A payload that repeats the two lines above and the two lines below at once. -/
def doubledEdits : List HashlineEdit := replaceThird [utf16 "A", utf16 "B"]

def doubledOutcome : HashlineApplyResult × List HashlineEdit :=
  (⟨utf16 "A\nB", some 1, [AbsorbNotice.warning ⟨.aboveReplacement, 2, 1, 1, 2⟩,
    AbsorbNotice.warning ⟨.belowReplacement, 2, 1, 4, 5⟩]⟩, doubledEdits)

/-- Both matches use the same two payload lines: four lines are absorbed and two come back. -/
theorem doubled_replacement_loses_lines :
    applyHashlineEdits sampleLineHash mirroredFile doubledEdits {} = .ok doubledOutcome ∧
      untargetedLines (splitLines mirroredFile) doubledEdits =
        [utf16 "A", utf16 "B", utf16 "A", utf16 "B"] ∧
      splitLines doubledOutcome.1.lines = [utf16 "A", utf16 "B"] ∧
      ¬ KeepsUntargeted mirroredFile doubledEdits doubledOutcome.1 := by
  decide +kernel

end GajaeCode.Hashline
