import GajaeCode.Chain.Widening
import GajaeCode.Hashline.Apply

/-!
# Lines that no delete edit targets

A replacement may delete lines next to its range because its payload brings them back. This is
sound as long as every absorbed line has a payload line of its own. When the lines above match the
start of the payload, the lines below match its end, and both matches use the same payload lines,
two file lines are deleted for one line that is inserted.

The theorem sends every untargeted line to the slot that holds it in the result: an absorbed line to
the slot of the replacement, any other line to its own. The widened ranges of a batch do not cross
targeted lines, so the slots come in file order.
-/

namespace GajaeCode.Hashline

open Text Chain List HashlineEdit Segment Widening

variable {line position : ℕ} {group : HashlineReplacementGroup} {edits : List HashlineEdit}

variable (fileLines : List JsString)

/-- The numbers of the non-empty lines that no delete edit of the batch targets. -/
def untargetedPositions (edits : List HashlineEdit) : List ℕ :=
  (List.range' 1 fileLines.length).filter fun line ↦
    line ∉ deletedLines edits ∧ fileLine fileLines line ≠ []

def untargetedLines (edits : List HashlineEdit) : List JsString :=
  (untargetedPositions fileLines edits).map (fileLine fileLines)

/-- The untargeted lines are a subsequence of the result's lines. -/
def KeepsUntargeted (text : JsString) (edits : List HashlineEdit) (result : HashlineApplyResult) :
    Prop :=
  (untargetedLines (splitLines text) edits).Sublist (splitLines result.lines)

instance (text : JsString) (edits : List HashlineEdit) (result : HashlineApplyResult) :
    Decidable (KeepsUntargeted text edits result) :=
  inferInstanceAs (Decidable (List.Sublist _ _))

namespace HashlineReplacementGroup

variable (fileLines : List JsString) (targetLines : List ℕ) (group : HashlineReplacementGroup)

/-- The replaced range with the absorbed lines on both sides. -/
def widening : Widening where
  start := group.startLine
  stop := group.endLine
  above := group.safePrefixCount fileLines targetLines
  below := group.safeSuffixCount fileLines targetLines
  start_le_stop := group.startLine_le_endLine

def Absorbs : Prop :=
  0 < group.safePrefixCount fileLines targetLines ∨ 0 < group.safeSuffixCount fileLines targetLines

instance : Decidable (group.Absorbs fileLines targetLines) :=
  inferInstanceAs (Decidable (_ ∨ _))

/-- Every payload line is inserted before the first deleted line. -/
def PayloadAtStart : Prop :=
  ∀ edit ∈ group.inserts, edit.cursor.anchor?.map Anchor.line = some group.startLine

instance : Decidable group.PayloadAtStart :=
  inferInstanceAs (Decidable (∀ edit ∈ group.inserts, _))

/-- The payload lines that stand for an absorbed line above and for another one below. -/
def sharedPayload : List JsString :=
  (group.replacement.take (group.safePrefixCount fileLines targetLines)).drop
    (group.replacement.length - group.safeSuffixCount fileLines targetLines)

/-- The payload stands before the first deleted line. -/
theorem textsBefore_inserts (h : group.PayloadAtStart) (line : ℕ) :
    ((group.inserts.map insert).map HashlineEdit.effect).filterMap
        (LineEffect.textBefore line) = if line = group.startLine then group.replacement else [] := by
  rw [map_map, filterMap_map]
  have htext : ∀ edit ∈ group.inserts, LineEffect.textBefore line
      (HashlineEdit.effect (insert edit)) =
        if line = group.startLine then some edit.text else none := by
    intro edit hedit
    have hbefore := group.inserts_before edit hedit
    have hline := h edit hedit
    cases hcursor : edit.cursor with
    | beforeAnchor anchor =>
      rw [hcursor] at hline
      simp [HashlineEdit.effect, hcursor, LineEffect.textBefore, Option.some.inj hline, eq_comm]
    | _ => simp [isReplacementInsert, HashlineCursor.isBeforeAnchor, hcursor] at hbefore
  calc
    _ = group.inserts.filterMap fun edit ↦
          if line = group.startLine then some edit.text else none := filterMap_congr htext
    _ = if line = group.startLine then group.replacement else [] := by
      by_cases hline : line = group.startLine
      · simp only [if_pos hline, replacement]
        exact congrFun filterMap_eq_map _
      · simp [if_neg hline]

/-- A margin that would reach a targeted line is given up. -/
theorem notMem_targetLines_of_covers
    (h : (group.widening fileLines targetLines).Covers line) : line ∉ targetLines := by
  intro htarget
  have hexternal {start count} (hlow : start ≤ line) (hhigh : line < start + count) :
      (range' start count).any targetLines.contains :=
    any_eq_true.mpr ⟨line, mem_range'_1.mpr ⟨hlow, hhigh⟩, by simpa using htarget⟩
  rcases h with ⟨hlow, hhigh⟩ | ⟨hlow, hhigh⟩
  · simp only [widening, safePrefixCount] at hlow hhigh
    split_ifs at hlow with hnone
    · omega
    · exact hnone (hexternal hlow (by omega))
  · simp only [widening, safeSuffixCount] at hlow hhigh
    split_ifs at hhigh with hnone
    · omega
    · exact hnone (hexternal hlow (by omega))

/-- The absorbed lines above the range, then those below it. -/
def absorbedPositions : List ℕ :=
  List.range' (group.startLine - group.safePrefixCount fileLines targetLines)
      (group.safePrefixCount fileLines targetLines) ++
    List.range' (group.endLine + 1) (group.safeSuffixCount fileLines targetLines)

theorem mem_absorbedPositions :
    line ∈ group.absorbedPositions fileLines targetLines ↔ (group.widening fileLines targetLines).Covers line := by
  have hle := (group.matchesAbove_safePrefixCount fileLines targetLines).2.1
  simp only [absorbedPositions, mem_append, mem_range'_1, Covers, Above, Below, widening]
  omega

theorem absorbs_of_covers (h : (group.widening fileLines targetLines).Covers line) :
    group.Absorbs fileLines targetLines := by
  simp only [Covers, Above, Below, widening] at h
  unfold Absorbs
  omega

theorem mem_replacementEffects {effect : LineEffect} : effect ∈ replacementEffects fileLines targetLines group ↔
    effect ∈ (group.absorbedPositions fileLines targetLines).map .delete ∨
      effect ∈ group.edits.map HashlineEdit.effect := by
  rw [replacementEffects, mem_append, mem_append, or_right_comm, ← mem_append, ← map_append]
  rfl

end HashlineReplacementGroup

open HashlineReplacementGroup

/-- What keeps the absorption of a batch sound. -/
structure AbsorbsFaithfully (fileLines : List JsString) (edits : List HashlineEdit) : Prop where
  payload_at_start : ∀ group ∈ replacementGroups edits,
    group.Absorbs fileLines (collectAnchorTargetLines edits) → group.PayloadAtStart
  shared_blank : ∀ group ∈ replacementGroups edits,
    ∀ line ∈ group.sharedPayload fileLines (collectAnchorTargetLines edits), line = []
  starts_differ : (((replacementGroups edits).filter fun group ↦
    group.Absorbs fileLines (collectAnchorTargetLines edits)).map
      HashlineReplacementGroup.startLine).Nodup

instance (fileLines : List JsString) (edits : List HashlineEdit) :
    Decidable (AbsorbsFaithfully fileLines edits) :=
  decidable_of_iff
    ((∀ group ∈ replacementGroups edits,
        group.Absorbs fileLines (collectAnchorTargetLines edits) → group.PayloadAtStart) ∧
      (∀ group ∈ replacementGroups edits,
        ∀ line ∈ group.sharedPayload fileLines (collectAnchorTargetLines edits), line = []) ∧
      (((replacementGroups edits).filter fun group ↦
        group.Absorbs fileLines (collectAnchorTargetLines edits)).map
          HashlineReplacementGroup.startLine).Nodup)
    ⟨fun h ↦ ⟨h.1, h.2.1, h.2.2⟩, fun h ↦ ⟨h.payload_at_start, h.shared_blank, h.starts_differ⟩⟩

section

variable (fileLines : List JsString) (edits : List HashlineEdit)

def widenings : List Widening :=
  (replacementGroups edits).map fun group ↦
    group.widening fileLines (collectAnchorTargetLines edits)

theorem notMem_deletedLines_of_covers {block : Widening} (hblock : block ∈ widenings fileLines edits)
    (h : block.Covers line) : line ∉ deletedLines edits := by
  intro hdeleted
  obtain ⟨group, -, rfl⟩ := mem_map.mp hblock
  exact group.notMem_targetLines_of_covers fileLines _ h
    (mem_collectAnchorTargetLines_of_mem_deletedLines hdeleted)

theorem separated_widenings :
    Separated (fun line ↦ line ∈ deletedLines edits) (widenings fileLines edits) where
  block := by
    intro block hblock line hstart hstop
    obtain ⟨group, hgroup, rfl⟩ := mem_map.mp hblock
    exact mem_deletedLines_of_replacementGroup hgroup hstart hstop
  above _ hblock _ habove := notMem_deletedLines_of_covers fileLines edits hblock (.inl habove)
  below _ hblock _ hbelow := notMem_deletedLines_of_covers fileLines edits hblock (.inr hbelow)

end

/-! ## What a batch deletes and inserts -/

section

variable (fileLines : List JsString) (options : HashlineApplyOptions) (edits : List HashlineEdit)

/-- The effects of a batch before its cursors are turned. -/
def batchEffects : List LineEffect :=
  (segments edits).flatMap (Segment.effects fileLines (collectAnchorTargetLines edits) options)

theorem map_effect_normalizedEdits (computeLineHash : ℕ → JsString → JsString) :
    (normalizedEdits computeLineHash options fileLines edits).map HashlineEdit.effect =
      (batchEffects fileLines options edits).map (LineEffect.normalize computeLineHash fileLines) := by
  unfold normalizedEdits batchEffects
  rw [← absorb_effects, map_map, map_map]
  apply map_congr_left
  rintro (edit | edit) _ <;> rfl

theorem delete_mem_map_effect {batch : List HashlineEdit} :
    LineEffect.delete line ∈ batch.map HashlineEdit.effect ↔ line ∈ deletedLines batch := by
  rw [mem_deletedLines, mem_map]
  constructor
  · rintro ⟨edit | edit, hmem, heffect⟩
    · cases heffect
    · exact ⟨edit, hmem, LineEffect.delete.inj heffect⟩
  · rintro ⟨edit, hmem, hline⟩
    exact ⟨.delete edit, hmem, congrArg LineEffect.delete hline⟩

theorem mem_of_segment {seg : Segment} (hseg : seg ∈ segments edits) {edit : HashlineEdit}
    (hedit : edit ∈ seg.edits) : edit ∈ edits := by
  rw [← flatMap_edits_segments edits]
  exact mem_flatMap.mpr ⟨seg, hseg, hedit⟩

theorem mem_deletedLines_of_segment {seg : Segment} (hseg : seg ∈ segments edits)
    (h : line ∈ deletedLines seg.edits) : line ∈ deletedLines edits := by
  obtain ⟨edit, hedit, hline⟩ := mem_deletedLines.mp h
  exact mem_deletedLines.mpr ⟨edit, mem_of_segment edits hseg hedit, hline⟩

/-- A line is deleted only when it is targeted or absorbed. -/
theorem targeted_or_absorbed_of_delete_mem
    (h : LineEffect.delete line ∈ batchEffects fileLines options edits) :
    line ∈ deletedLines edits ∨ ∃ block ∈ widenings fileLines edits, block.Covers line := by
  obtain ⟨seg, hseg, heffect⟩ := mem_flatMap.mp h
  cases seg with
  | single =>
    left
    apply mem_deletedLines_of_segment edits hseg
    exact delete_mem_map_effect.mp heffect
  | pureInsert =>
    simp only [effects, mem_map, reduceCtorEq, and_false, exists_false] at heffect
  | replacement group =>
    rcases (mem_replacementEffects _ _ group).mp heffect with habsorbed | hown
    · obtain ⟨other, hother, heq⟩ := mem_map.mp habsorbed
      obtain rfl := LineEffect.delete.inj heq
      exact .inr ⟨_, mem_map_of_mem (mem_replacementGroups.mpr hseg),
        (group.mem_absorbedPositions fileLines _).mp hother⟩
    · exact .inl (mem_deletedLines_of_segment edits hseg (delete_mem_map_effect.mp hown))

/-- The payload of a replacement stands, in order, before its first deleted line. -/
theorem replacement_sublist_textsBefore
    (hgroup : group ∈ replacementGroups edits) (hstart : group.PayloadAtStart) :
    group.replacement.Sublist
      ((batchEffects fileLines options edits).filterMap (LineEffect.textBefore group.startLine)) := by
  have hpayload := group.textsBefore_inserts hstart group.startLine
  rw [if_pos rfl] at hpayload
  have hinside : ((group.inserts.map insert).map HashlineEdit.effect).Sublist
      (batchEffects fileLines options edits) := by
    have hgroupEffects : ((group.inserts.map insert).map HashlineEdit.effect).Sublist
        (replacementEffects fileLines (collectAnchorTargetLines edits) group) := by
      unfold replacementEffects HashlineReplacementGroup.edits
      rw [map_append, append_assoc, append_assoc]
      exact (sublist_append_left _ _).trans (sublist_append_right _ _)
    apply hgroupEffects.trans
    exact sublist_flatten_of_mem
      (mem_map.mpr ⟨.replacement group, mem_replacementGroups.mp hgroup, rfl⟩)
  rw [← hpayload]
  exact hinside.filterMap _

end
section

variable {fileLines : List JsString} {edits : List HashlineEdit}
  (hfile : ∀ line ∈ collectAnchorTargetLines edits, 1 ≤ line ∧ line ≤ fileLines.length)

include hfile

theorem effect_inFile_of_mem {edit : HashlineEdit} (hedit : edit ∈ edits) :
    edit.effect.InFile fileLines.length := by
  cases edit with
  | insert edit =>
    intro anchor hanchor
    apply hfile
    apply mem_filterMap.mpr
    exact ⟨.insert edit, hedit, Option.map_eq_some_iff.mpr ⟨anchor, hanchor, rfl⟩⟩
  | delete edit =>
    apply hfile
    exact mem_filterMap.mpr ⟨.delete edit, hedit, rfl⟩

theorem group_mem_file (hgroup : group ∈ replacementGroups edits) :
    1 ≤ group.startLine ∧ group.endLine ≤ fileLines.length := by
  have hrange := group.startLine_le_endLine
  have hline {line : ℕ} (hlow : group.startLine ≤ line) (hhigh : line ≤ group.endLine) := hfile line
    (mem_collectAnchorTargetLines_of_mem_deletedLines (mem_deletedLines_of_replacementGroup hgroup hlow hhigh))
  exact ⟨(hline le_rfl hrange).1, (hline hrange le_rfl).2⟩

/-- Everything the absorption hands on stays inside the file. -/
theorem batchEffects_inFile (options : HashlineApplyOptions) :
    ∀ effect ∈ batchEffects fileLines options edits, effect.InFile fileLines.length := by
  intro effect heffect
  obtain ⟨seg, hseg, hmem⟩ := mem_flatMap.mp heffect
  cases seg with
  | single =>
    rw [mem_singleton.mp hmem]
    exact effect_inFile_of_mem hfile (mem_of_segment edits hseg mem_cons_self)
  | pureInsert group =>
    obtain ⟨text, htext, rfl⟩ := mem_map.mp hmem
    -- a kept payload line comes from an insert of the group, which has the group's cursor
    have hpayload : text ∈ group.payload := mem_of_mem_drop (mem_of_mem_take htext)
    obtain ⟨edit, hedit, rfl⟩ := mem_map.mp hpayload
    rw [← group.inserts_cursor edit hedit]
    exact effect_inFile_of_mem hfile (mem_of_segment edits hseg (mem_map_of_mem hedit))
  | replacement group =>
    have hgroup := group_mem_file hfile (mem_replacementGroups.mpr hseg)
    have hrange := group.startLine_le_endLine
    rcases (mem_replacementEffects _ _ group).mp hmem with habsorbed | hown
    · obtain ⟨line, hline, rfl⟩ := mem_map.mp habsorbed
      have habove := (group.matchesAbove_safePrefixCount fileLines (collectAnchorTargetLines edits)).2.1
      have hbelow := (group.matchesBelow_safeSuffixCount fileLines (collectAnchorTargetLines edits)).2.1
      rw [absorbedPositions, mem_append, mem_range'_1, mem_range'_1] at hline
      exact ⟨by omega, by omega⟩
    · obtain ⟨edit, hedit, rfl⟩ := mem_map.mp hown
      exact effect_inFile_of_mem hfile (mem_of_segment edits hseg hedit)

end

/-! ## Absorbed lines and their payload -/

theorem map_fileLine_range' {fileLines : List JsString} {start count : ℕ} (hstart : 1 ≤ start)
    (hcount : start - 1 + count ≤ fileLines.length) :
    (range' start count).map (fileLine fileLines) = (fileLines.drop (start - 1)).take count := by
  apply ext_getElem
  · simp only [length_map, length_range', length_take, length_drop]
    omega
  · intro index hleft hright
    have hindex : index < count := by simpa using hleft
    have hsame : start + index - 1 = start - 1 + index := by omega
    simp only [getElem_map, getElem_range', one_mul, fileLine, getElem_take, getElem_drop, hsame]
    rw [getElem?_eq_getElem (by omega), Option.getD_some]

/-- Leading and trailing payload lines share only blank ones, so both blocks fit in the payload. -/
theorem blocks_sublist_payload {payload : List JsString} {above below : ℕ}
    (hblank : ∀ line ∈ (payload.take above).drop (payload.length - below), line = []) :
    ((payload.take above).filter (fun line ↦ line ≠ []) ++
        (payload.drop (payload.length - below)).filter fun line ↦ line ≠ []).Sublist payload := by
  generalize payload.length - below = cut at *
  have habove : ((payload.take above).filter fun line ↦ line ≠ []).Sublist (payload.take cut) := by
    have hshared : ((payload.take above).drop cut).filter (fun line ↦ line ≠ []) = [] := by
      rw [filter_eq_nil_iff]
      intro line hline
      simpa using hblank line hline
    rw [← take_append_drop cut (payload.take above), filter_append, hshared, append_nil, take_take]
    apply filter_sublist.trans
    exact take_sublist_take_left (min_le_left _ _)
  have hboth := habove.append (@filter_sublist _ (fun line ↦ line ≠ []) (payload.drop cut))
  rwa [take_append_drop] at hboth
theorem sublist_of_subset_of_pairwise_lt {left right : List ℕ} (hleft : left.Pairwise (· < ·))
    (hright : right.Pairwise (· < ·)) (h : left ⊆ right) : left.Sublist right := by
  have hnodup : left.Nodup := hleft.imp fun hlt ↦ hlt.ne
  have hle : left.Pairwise (· ≤ ·) := hleft.imp fun hlt ↦ hlt.le
  have hle' : right.Pairwise (· ≤ ·) := hright.imp fun hlt ↦ hlt.le
  exact sublist_of_subperm_of_pairwise (subperm_of_subset hnodup h) hle hle'

namespace HashlineReplacementGroup

variable (fileLines : List JsString) (targetLines : List ℕ) (group : HashlineReplacementGroup)

theorem pairwise_absorbedPositions :
    (group.absorbedPositions fileLines targetLines).Pairwise (· < ·) := by
  unfold absorbedPositions
  have hle := (group.matchesAbove_safePrefixCount fileLines targetLines).2.1
  have hrange := group.startLine_le_endLine
  apply pairwise_append.mpr
  refine ⟨pairwise_lt_range', pairwise_lt_range', ?_⟩
  intro left hleft right hright
  rw [mem_range'_1] at hleft hright
  omega

/-- The non-empty absorbed lines come back with the payload, in order. -/
theorem absorbed_sublist_replacement (hstart : 1 ≤ group.startLine)
    (hend : group.endLine ≤ fileLines.length)
    (hblank : ∀ line ∈ group.sharedPayload fileLines targetLines, line = []) :
    (((group.absorbedPositions fileLines targetLines).filter fun line ↦
      fileLine fileLines line ≠ []).map (fileLine fileLines)).Sublist group.replacement := by
  have hmap : ((group.absorbedPositions fileLines targetLines).filter fun line ↦
        fileLine fileLines line ≠ []).map (fileLine fileLines) =
      ((group.absorbedPositions fileLines targetLines).map (fileLine fileLines)).filter
        fun line ↦ line ≠ [] := by
    rw [filter_map]
    rfl
  obtain ⟨-, habove, habove'⟩ := group.matchesAbove_safePrefixCount fileLines targetLines
  obtain ⟨-, hbelow, hbelow'⟩ := group.matchesBelow_safeSuffixCount fileLines targetLines
  have hrange := group.startLine_le_endLine
  have hfirst : group.startLine - group.safePrefixCount fileLines targetLines - 1 =
      group.startLine - 1 - group.safePrefixCount fileLines targetLines := by omega
  rw [hmap, absorbedPositions, map_append, map_fileLine_range' (by omega) (by omega),
    map_fileLine_range' (by omega) (by omega), hfirst, habove', Nat.add_sub_cancel, hbelow', filter_append]
  exact blocks_sublist_payload hblank

end HashlineReplacementGroup

section

variable {fileLines : List JsString} {edits : List HashlineEdit}

theorem mem_untargetedPositions : line ∈ untargetedPositions fileLines edits ↔
      (1 ≤ line ∧ line ≤ fileLines.length) ∧ line ∉ deletedLines edits ∧
        fileLine fileLines line ≠ [] := by
  unfold untargetedPositions
  rw [mem_filter, mem_range'_1, decide_eq_true_eq, Nat.lt_one_add_iff]

theorem pairwise_untargetedPositions : (untargetedPositions fileLines edits).Pairwise (· < ·) := by
  have hall : (range' 1 fileLines.length).Pairwise (· < ·) := pairwise_lt_range'
  exact hall.sublist filter_sublist

/-- A home that is not targeted is the position itself, which then is not absorbed. -/
theorem eq_of_home (hline : line ∉ deletedLines edits)
    (hhome : IsHome (widenings fileLines edits) position line) :
    position = line ∧ ∀ block ∈ widenings fileLines edits, ¬ block.Covers position := by
  have hstart : ∀ block ∈ widenings fileLines edits, block.start ∈ deletedLines edits := by
    intro block hmem
    exact (separated_widenings fileLines edits).block block hmem block.start le_rfl
      block.start_le_stop
  cases hhome with
  | below block hmem | above block hmem => exact absurd (hstart block hmem) hline
  | self hbelow habove =>
    refine ⟨rfl, ?_⟩
    rintro block hmem (hcovers | hcovers)
    · exact habove block hmem hcovers
    · exact hbelow block hmem hcovers

end
section

variable {fileLines : List JsString} {edits : List HashlineEdit}
  (hfile : ∀ line ∈ collectAnchorTargetLines edits, 1 ≤ line ∧ line ≤ fileLines.length)
  (hfaith : AbsorbsFaithfully fileLines edits)

/-- The untargeted positions whose home is a given line. -/
def housed (fileLines : List JsString) (edits : List HashlineEdit) (line : ℕ) : List ℕ :=
  (untargetedPositions fileLines edits).filter fun position ↦
    Widening.home (widenings fileLines edits) position = line

theorem mem_housed :
    position ∈ housed fileLines edits line ↔ position ∈ untargetedPositions fileLines edits ∧
      home (widenings fileLines edits) position = line := by
  rw [housed, mem_filter, decide_eq_true_eq]

theorem pairwise_housed (line : ℕ) : (housed fileLines edits line).Pairwise (· < ·) :=
  pairwise_untargetedPositions.sublist filter_sublist

theorem isHome_of_mem_housed (h : position ∈ housed fileLines edits line) :
    IsHome (widenings fileLines edits) position line := by
  have hhome := isHome_home (widenings fileLines edits) position
  rwa [(mem_housed.mp h).2] at hhome

variable (computeLineHash : ℕ → JsString → JsString) (options : HashlineApplyOptions)

/-- The slot of a line under the effects of the batch. -/
def batchSlot (fileLines : List JsString) (edits : List HashlineEdit) : ℕ → JsString → List JsString :=
  effectSlot ((batchEffects fileLines options edits).map
    (LineEffect.normalize computeLineHash fileLines))

/-- A line that is not targeted holds itself, unless it was absorbed. -/
theorem housed_sublist_of_untargeted (hline : line ∉ deletedLines edits) :
    ((housed fileLines edits line).map (fileLine fileLines)).Sublist
      (batchSlot computeLineHash options fileLines edits line (fileLine fileLines line)) := by
  by_cases hnone : housed fileLines edits line = []
  · rw [hnone]
    exact nil_sublist _
  · obtain ⟨position, hpos⟩ := exists_mem_of_ne_nil _ hnone
    obtain ⟨rfl, hfree⟩ := eq_of_home hline (isHome_of_mem_housed hpos)
    have hkept : LineEffect.delete position ∉ batchEffects fileLines options edits := by
      intro hdelete
      rcases targeted_or_absorbed_of_delete_mem fileLines options edits hdelete with
        htargeted | ⟨block, hblock, habsorbed⟩
      · exact hline htargeted
      · exact hfree block hblock habsorbed
    have hsingle : (housed fileLines edits position).Sublist [position] := by
      apply sublist_of_subset_of_pairwise_lt (pairwise_housed position) (pairwise_singleton _ _)
      intro other hother
      rw [(eq_of_home hline (isHome_of_mem_housed hother)).1]
      exact mem_cons_self
    unfold batchSlot effectSlot
    rw [if_neg (mt (delete_mem_of_normalize computeLineHash fileLines) hkept)]
    exact (hsingle.map (fileLine fileLines)).trans (sublist_append_right _ _)

include hfile hfaith

/-- A targeted line holds, in its payload, the lines that its replacement absorbed. -/
theorem housed_sublist_of_targeted (hline : line ∈ deletedLines edits) :
    ((housed fileLines edits line).map (fileLine fileLines)).Sublist
      (batchSlot computeLineHash options fileLines edits line (fileLine fileLines line)) := by
  by_cases hnone : housed fileLines edits line = []
  · rw [hnone]
    exact nil_sublist _
  · obtain ⟨witness, hwitness⟩ := exists_mem_of_ne_nil _ hnone
    have hgroupOf : ∀ position ∈ housed fileLines edits line, ∃ group ∈ replacementGroups edits,
        group.startLine = line ∧
          (group.widening fileLines (collectAnchorTargetLines edits)).Covers position := by
      intro position hpos
      have hfree : position ∉ deletedLines edits :=
        (mem_untargetedPositions.mp (mem_housed.mp hpos).1).2.1
      cases isHome_of_mem_housed hpos with
      | below block hmem hbelow =>
        obtain ⟨group, hgroup, rfl⟩ := mem_map.mp hmem
        exact ⟨group, hgroup, rfl, .inr hbelow⟩
      | above block hmem habove =>
        obtain ⟨group, hgroup, rfl⟩ := mem_map.mp hmem
        exact ⟨group, hgroup, rfl, .inl habove⟩
      | self => exact absurd hline hfree
    obtain ⟨group, hgroup, rfl, hmargin⟩ := hgroupOf witness hwitness
    have habsorbs := group.absorbs_of_covers fileLines _ hmargin
    -- the starts of absorbing groups differ, so one group covers all positions housed here
    have hpositions : (housed fileLines edits group.startLine).Sublist
        ((group.absorbedPositions fileLines (collectAnchorTargetLines edits)).filter fun position ↦
          fileLine fileLines position ≠ []) := by
      apply sublist_of_subset_of_pairwise_lt (pairwise_housed _)
        ((group.pairwise_absorbedPositions fileLines _).sublist filter_sublist)
      intro position hpos
      obtain ⟨other, hother, hstart, hcovers⟩ := hgroupOf position hpos
      have hsame : other = group := by
        apply inj_on_of_nodup_map hfaith.starts_differ _ _ hstart
        · exact mem_filter.mpr
            ⟨hother, decide_eq_true (other.absorbs_of_covers fileLines _ hcovers)⟩
        · exact mem_filter.mpr ⟨hgroup, decide_eq_true habsorbs⟩
      have hfilled : fileLine fileLines position ≠ [] :=
        (mem_untargetedPositions.mp (mem_housed.mp hpos).1).2.2
      rw [hsame] at hcovers
      exact mem_filter.mpr ⟨(group.mem_absorbedPositions fileLines _).mpr hcovers, decide_eq_true hfilled⟩
    have hpayload := group.absorbed_sublist_replacement fileLines (collectAnchorTargetLines edits)
      (group_mem_file hfile hgroup).1 (group_mem_file hfile hgroup).2
      (hfaith.shared_blank group hgroup)
    have htexts := replacement_sublist_textsBefore fileLines options edits hgroup
      (hfaith.payload_at_start group hgroup habsorbs)
    calc
      Sublist ((housed fileLines edits group.startLine).map (fileLine fileLines))
          group.replacement := (hpositions.map (fileLine fileLines)).trans hpayload
      Sublist _ ((batchEffects fileLines options edits).filterMap
          (LineEffect.textBefore group.startLine)) := htexts
      Sublist _ (((batchEffects fileLines options edits).map
          (LineEffect.normalize computeLineHash fileLines)).filterMap
            (LineEffect.textBefore group.startLine)) := textsBefore_sublist_normalize _ _ _ _
      Sublist _ (batchSlot computeLineHash options fileLines edits group.startLine
          (fileLine fileLines group.startLine)) := sublist_append_left _ _

end
/-! ## Which batches keep the untargeted lines -/

section

variable (computeLineHash : ℕ → JsString → JsString) {fileLines : List JsString}
  {edits : List HashlineEdit} (options : HashlineApplyOptions)
  (hfile : ∀ line ∈ collectAnchorTargetLines edits, 1 ≤ line ∧ line ≤ fileLines.length)

include hfile

/-- The spliced file gives every line the slot that the effects of the batch determine. -/
theorem spliceBuckets_eq_rebuild_batchSlot :
    spliceBuckets ((normalizedEdits computeLineHash options fileLines edits).filter isAnchorEdit)
        fileLines = rebuild (batchSlot computeLineHash options fileLines edits) 1 fileLines := by
  have hinFile : ∀ effect ∈ (absorbReplacementBoundaryDuplicates computeLineHash fileLines options
      edits).absorbed.map HashlineEdit.effect, effect.InFile fileLines.length := by
    rw [absorb_effects]
    exact batchEffects_inFile hfile options
  have hbuckets : ∀ edit ∈ (normalizedEdits computeLineHash options fileLines edits).filter
      isAnchorEdit, 1 ≤ bucketLine edit ∧ bucketLine edit ≤ fileLines.length :=
    bucketLine_mem_file_of_normalize computeLineHash fileLines hinFile
  rw [spliceBuckets_eq_rebuild hbuckets]
  apply rebuild_congr
  intro line currentLine hline _
  rw [bucketSlot_eq_effectSlot hline, map_effect_normalizedEdits, batchSlot]

variable (hfaith : AbsorbsFaithfully fileLines edits)

include hfaith

theorem untargeted_sublist_splice : (untargetedLines fileLines edits).Sublist
      (spliceBuckets ((normalizedEdits computeLineHash options fileLines edits).filter isAnchorEdit)
        fileLines) := by
  rw [spliceBuckets_eq_rebuild_batchSlot computeLineHash options hfile]
  apply sublist_rebuild (home (widenings fileLines edits))
  · -- homes do not fall along the untargeted positions
    apply pairwise_untargetedPositions.imp_of_mem
    intro left right hleft _ hlt
    exact (isHome_home _ left).le_of_lt (separated_widenings fileLines edits)
      (mem_untargetedPositions.mp hleft).2.1 hlt (isHome_home _ right)
  · intro position hpos
    obtain ⟨⟨hlow, hhigh⟩, -⟩ := mem_untargetedPositions.mp hpos
    have hstart : ∀ block ∈ widenings fileLines edits,
        1 ≤ block.start ∧ block.start < 1 + fileLines.length := by
      intro block hblock
      obtain ⟨group, hgroup, rfl⟩ := mem_map.mp hblock
      obtain ⟨hfirst, hlast⟩ := group_mem_file hfile hgroup
      have hrange := group.startLine_le_endLine
      exact ⟨hfirst, by simp only [widening]; omega⟩
    have hhome := isHome_home (widenings fileLines edits) position
    generalize home (widenings fileLines edits) position = target at hhome
    cases hhome with
    | below block hmem | above block hmem => exact hstart block hmem
    | self => exact ⟨hlow, by omega⟩
  · intro index hidx
    have hcur : fileLine fileLines (1 + index) = fileLines[index] := by
      have hoffset : 1 + index - 1 = index := by omega
      rw [fileLine, hoffset, getElem?_eq_getElem hidx, Option.getD_some]
    rw [← hcur]
    by_cases htargeted : 1 + index ∈ deletedLines edits
    · exact housed_sublist_of_targeted hfile hfaith computeLineHash options htargeted
    · exact housed_sublist_of_untargeted computeLineHash options htargeted

theorem untargeted_sublist_applyNormalized : (untargetedLines fileLines edits).Sublist
      (applyNormalized (normalizedEdits computeLineHash options fileLines edits) fileLines).1 := by
  have hfilled : ∀ line ∈ untargetedLines fileLines edits, line ≠ [] := by
    intro line hline
    obtain ⟨position, hpos, rfl⟩ := mem_map.mp hline
    exact (mem_untargetedPositions.mp hpos).2.2
  unfold applyNormalized
  apply sublist_insertAtEnd _ hfilled
  apply sublist_insertAtStart _ hfilled
  exact untargeted_sublist_splice computeLineHash options hfile hfaith

end

theorem untargetedLines_sublist (edits : List HashlineEdit) :
    (untargetedLines fileLines edits).Sublist fileLines := by
  have hall : (range' 1 fileLines.length).map (fileLine fileLines) = fileLines := by
    rw [map_fileLine_range' le_rfl (by omega), Nat.sub_self, drop_zero, take_length]
  calc
    Sublist (untargetedLines fileLines edits)
        ((range' 1 fileLines.length).map (fileLine fileLines)) :=
      filter_sublist.map (fileLine fileLines)
    _ = fileLines := hall

/-- A batch whose absorption is faithful keeps every line that it does not target. -/
theorem keepsUntargeted_of_absorbsFaithfully (computeLineHash : ℕ → JsString → JsString)
    {text : JsString} {options : HashlineApplyOptions}
    {outcome : HashlineApplyResult × List HashlineEdit}
    (h : applyHashlineEdits computeLineHash text edits options = .ok outcome)
    (hfaith : AbsorbsFaithfully (splitLines text) edits) :
    KeepsUntargeted text edits outcome.1 := by
  unfold KeepsUntargeted
  rcases applyHashlineEdits_cases computeLineHash h with ⟨hempty, rfl⟩ | ⟨hvalid, rfl⟩
  · exact untargetedLines_sublist _ _
  · apply sublist_splitLines_joinLines
    · exact untargeted_sublist_applyNormalized computeLineHash options
        (targetLines_mem_file_of_validate computeLineHash hvalid) hfaith
    · intro line hline
      obtain ⟨position, hpos, rfl⟩ := mem_map.mp hline
      obtain ⟨⟨hlow, hhigh⟩, -⟩ := mem_untargetedPositions.mp hpos
      have hidx : position - 1 < (splitLines text).length := by omega
      apply newlineUnit_notMem_of_mem_splitLines
      rw [fileLine, getElem?_eq_getElem hidx, Option.getD_some]
      exact getElem_mem hidx

end GajaeCode.Hashline
