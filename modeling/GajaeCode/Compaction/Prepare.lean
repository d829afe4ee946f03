import GajaeCode.Compaction.CutPoint
import GajaeCode.Session.Replay

/-!
# Preparing a compaction

`prepareCompaction` divides what follows the previous compaction of a path into the messages to
summarize, the start of a split turn, and the recent messages that are kept. The file operations
it also collects are left out.
-/

namespace GajaeCode.Compaction

open Text Json Chain Session List Option SessionEntry

variable {prepared : CompactionPreparation} {path : List SessionEntry}

structure PrepareCompactionOptions where
  tokenCorrectionRatio : Option ℚ
  contextWindow : Option ℚ

structure TokenCorrection where
  ratio : ℚ
  keepRecentTokensCorrected : ℚ

/-- The number of recent tokens to keep, corrected by the observed estimation error. -/
def tokenCorrection (settings : CompactionSettings) (options : PrepareCompactionOptions)
    (historyTokens : ℕ) : TokenCorrection :=
  let configuredKeepRecentTokens := settings.keepRecentTokens
  let thresholdSafeKeepRecentTokens :=
    match options.contextWindow.filter (1 < ·) with
    | some contextWindow => resolveThresholdSafeKeepRecentTokens contextWindow settings
    | none => configuredKeepRecentTokens
  let keepRecentTokens := min configuredKeepRecentTokens thresholdSafeKeepRecentTokens
  let scaledKeepRecentTokens :=
    match options.contextWindow.filter (66000 ≤ ·) with
    | some contextWindow =>
      min thresholdSafeKeepRecentTokens
        (max keepRecentTokens (mathFloor (contextWindow * (3 / 10))))
    | none => keepRecentTokens
  let appliedRatio :=
    match positive? options.tokenCorrectionRatio with
    | some ratio => min 2 (max (1 / 2) ratio)
    | none => 1
  let ceilingWindow :=
    options.contextWindow.filter (isDefaultAutoThresholdCeilingApplied · settings)
  let keepFloorTokens :=
    if ceilingWindow.isSome then keepRecentTokens else configuredKeepRecentTokens
  let effectiveKeepRecentTokens :=
    if keepFloorTokens > historyTokens then keepFloorTokens
    else if scaledKeepRecentTokens > keepRecentTokens ∧ scaledKeepRecentTokens > historyTokens then
      keepRecentTokens
    else scaledKeepRecentTokens
  let correctedKeepRecentTokens := max 1 (mathRound (effectiveKeepRecentTokens / appliedRatio))
  { ratio := appliedRatio
    keepRecentTokensCorrected :=
      match ceilingWindow with
      | some contextWindow =>
        min correctedKeepRecentTokens (resolveThresholdTokens contextWindow settings 0 none - 1)
      | none => correctedKeepRecentTokens }

structure CompactionPreparation where
  firstKeptEntryId : JsString
  messagesToSummarize : List SessionMessage
  turnPrefixMessages : List SessionMessage
  recentMessages : List SessionMessage
  isSplitTurn : Bool
  tokensBefore : ℚ
  previousSummary : Option JsString
  previousPreserveData : Option JsValue
  settings : CompactionSettings
  correction : TokenCorrection

/-- The index after the last compaction before `index`. -/
def boundaryBefore (entries : List SessionEntry) : ℕ → ℕ
  | 0 => 0
  | index + 1 =>
    if entryAt entries SessionEntry.isCompaction index then index + 1
    else boundaryBefore entries index

variable (entries : List SessionEntry)

def boundaryStart : ℕ := boundaryBefore entries entries.length

def messagesBetween (first last : ℕ) : List SessionMessage :=
  ((entries.take last).drop first).filterMap getMessageFromEntry

/-- The compaction just before the boundary. -/
def previousCompaction : Option CompactionData :=
  (entries.take (boundaryStart entries)).getLast?.bind SessionEntry.compaction?

def prepareCompaction (pathEntries : List SessionEntry) (settings : CompactionSettings)
    (options : PrepareCompactionOptions) : Option CompactionPreparation :=
  if pathEntries.getLast?.any SessionEntry.isCompaction then none
  else
    let start := boundaryStart pathEntries
    let history := pathEntries.drop start
    let correction :=
      tokenCorrection settings options (history.map estimateEntryTokens).sum
    let cut := findCutPoint pathEntries start pathEntries.length correction.keepRecentTokensCorrected
    match pathEntries[cut.firstKeptEntryIndex]? with
    | none => none
    | some firstKeptEntry =>
      if firstKeptEntry.id = [] then none
      else
        let historyEnd :=
          if cut.isSplitTurn then cut.turnStartIndex.getD 0 else cut.firstKeptEntryIndex
        let messagesToSummarize := messagesBetween pathEntries start historyEnd
        let turnPrefixMessages :=
          if cut.isSplitTurn then
            messagesBetween pathEntries (cut.turnStartIndex.getD 0) cut.firstKeptEntryIndex
          else []
        let recentMessages :=
          messagesBetween pathEntries cut.firstKeptEntryIndex pathEntries.length
        if messagesToSummarize = [] ∧ turnPrefixMessages = [] then none
        else some {
          firstKeptEntryId := firstKeptEntry.id
          messagesToSummarize := messagesToSummarize
          turnPrefixMessages := turnPrefixMessages
          recentMessages := recentMessages
          isSplitTurn := cut.isSplitTurn
          tokensBefore := ((getLastAssistantUsage pathEntries).map calculateContextTokens).getD 0
          previousSummary := (previousCompaction pathEntries).map CompactionData.summary
          previousPreserveData := (previousCompaction pathEntries).map CompactionData.preserveData
          settings := settings
          correction := correction }

/-! ## The boundary -/

section

variable (entries : List SessionEntry)

theorem boundaryBefore_le (index : ℕ) : boundaryBefore entries index ≤ index := by
  induction index with
  | zero => exact Nat.le_refl 0
  | succ index ih =>
    rw [boundaryBefore]
    split_ifs
    · exact Nat.le_refl _
    · exact Nat.le_succ_of_le ih

theorem boundaryBefore_quiet (idx : ℕ) : ∀ later, boundaryBefore entries idx ≤ later → later < idx →
      entryAt entries isCompaction later = false := by
  induction idx with
  | zero => exact fun later _ h ↦ absurd h (Nat.not_lt_zero later)
  | succ idx ih =>
    intro later hle hlt
    rw [boundaryBefore] at hle
    split_ifs at hle with hcompact
    · omega
    · rcases Nat.lt_succ_iff_lt_or_eq.mp hlt with hlt | rfl
      · exact ih later hle hlt
      · simpa only [Bool.not_eq_true] using hcompact

theorem boundaryBefore_compaction {idx boundary : ℕ}
    (h : boundaryBefore entries idx = boundary + 1) :
    entryAt entries isCompaction boundary := by
  induction idx with
  | zero => cases h
  | succ idx ih =>
    rw [boundaryBefore] at h
    split_ifs at h with hcompact
    · cases h
      exact hcompact
    · exact ih h

theorem boundaryStart_le_length : boundaryStart entries ≤ entries.length :=
  boundaryBefore_le entries entries.length

end

theorem isCompaction_of_mem_drop_boundaryStart {entries : List SessionEntry} {entry : SessionEntry}
    (h : entry ∈ entries.drop (boundaryStart entries)) : entry.isCompaction = false := by
  obtain ⟨offset, hoffset, rfl⟩ := mem_iff_getElem.mp h
  rw [length_drop] at hoffset
  have hquiet := boundaryBefore_quiet entries entries.length (boundaryStart entries + offset)
    (Nat.le_add_right _ _) (by omega)
  rw [entryAt, getElem?_eq_getElem (by omega)] at hquiet
  simpa using hquiet

/-- Where the last compaction of a path stands. -/
structure LastCompaction (path before after : List SessionEntry) (entry : SessionEntry)
    (compaction : CompactionEntry) : Prop where
  split : path = before ++ entry :: after
  isEntry : entry.asCompaction? = some compaction
  quiet : ∀ later ∈ after, later.isCompaction = false
  boundary : boundaryStart path = before.length + 1

theorem asCompaction?_eq_none_iff {entry : SessionEntry} :
    entry.asCompaction? = none ↔ entry.isCompaction = false := by
  rw [asCompaction?, isCompaction]
  cases entry.compaction? <;> simp

theorem lastCompaction_or (path : List SessionEntry) :
    (boundaryStart path = 0 ∧ ∀ entry ∈ path, entry.isCompaction = false) ∨
      ∃ before after entry compact, LastCompaction path before after entry compact := by
  cases hboundary : boundaryStart path with
  | zero =>
    refine .inl ⟨rfl, fun entry hentry ↦ ?_⟩
    apply isCompaction_of_mem_drop_boundaryStart
    rwa [hboundary]
  | succ boundary =>
    have hcompaction := boundaryBefore_compaction path hboundary
    have hlt : boundary < path.length := by
      have hle := boundaryStart_le_length path
      omega
    have hsplit : path = path.take boundary ++ path[boundary] :: path.drop (boundary + 1) := by
      rw [cons_getElem_drop_succ, take_append_drop]
    rw [entryAt, getElem?_eq_getElem hlt, any_some] at hcompaction
    cases hentry : path[boundary].asCompaction? with
    | none =>
      rw [asCompaction?_eq_none_iff, hcompaction] at hentry
      cases hentry
    | some compact =>
      refine .inr ⟨path.take boundary, path.drop (boundary + 1), path[boundary], compact,
        hsplit, hentry, ?_, ?_⟩
      · intro later hlater
        apply isCompaction_of_mem_drop_boundaryStart
        rwa [hboundary]
      · rw [hboundary, length_take_of_le hlt.le]

namespace LastCompaction

variable {path before after : List SessionEntry} {entry : SessionEntry}
  {compact : CompactionEntry}

section

variable (h : LastCompaction path before after entry compact)

include h

theorem lastWrite_eq : lastWrite asCompaction? path = some compact := by
  have hafter : lastWrite asCompaction? after = none := by
    rw [lastWrite_eq_none_iff]
    exact fun later hlater ↦ asCompaction?_eq_none_iff.mpr (h.quiet later hlater)
  rw [h.split, append_cons, lastWrite_append, hafter, none_or, lastWrite_concat, h.isEntry, some_or]

theorem id_eq : compact.id = entry.id := by
  have hentry := h.isEntry
  rw [asCompaction?, map_eq_some_iff] at hentry
  obtain ⟨data, _, rfl⟩ := hentry
  rfl

theorem compactionIndex_eq (hnodup : (path.map SessionEntry.id).Nodup) :
    compactionIndex path compact = before.length := by
  have hbefore : ∀ earlier ∈ before, earlier.id ≠ compact.id := by
    rw [h.split, map_append, nodup_append] at hnodup
    intro earlier hearlier
    rw [h.id_eq]
    exact hnodup.2.2 _ (mem_map_of_mem hearlier) _ (mem_map_of_mem mem_cons_self)
  have hentry : entry.isCompaction := by
    rw [← Bool.not_eq_false, ← asCompaction?_eq_none_iff, h.isEntry]
    exact some_ne_none compact
  rw [h.split, compactionIndex_append hbefore, compactionIndex, findIdx_cons, hentry, h.id_eq]
  simp

end

end LastCompaction

/-! ## What a preparation consists of -/

theorem messagesBetween_append {first middle last : ℕ}
    (hfirst : first ≤ middle) (hlast : middle ≤ last) :
    messagesBetween entries first middle ++ messagesBetween entries middle last =
      messagesBetween entries first last := by
  rw [messagesBetween, messagesBetween, messagesBetween, ← filterMap_append]
  congr 1
  calc (entries.take middle).drop first ++ (entries.take last).drop middle
      = ((entries.take last).drop first).take (middle - first) ++
          (entries.take last).drop (first + (middle - first)) := by
        rw [← drop_take, take_take, Nat.min_eq_left hlast, Nat.add_sub_cancel' hfirst]
    _ = (entries.take last).drop first := drop_take_append_drop _ _ _

theorem messagesBetween_length (first : ℕ) : messagesBetween entries first entries.length =
      (entries.drop first).filterMap getMessageFromEntry := by
  rw [messagesBetween, take_length]

/-- A preparation that cuts the path at an index. -/
structure PreparedAt (path : List SessionEntry) (prepared : CompactionPreparation)
    (cutIndex : ℕ) : Prop where
  start_le : boundaryStart path ≤ cutIndex
  le_length : cutIndex ≤ path.length
  firstKept : path[cutIndex]?.map SessionEntry.id = some prepared.firstKeptEntryId
  summarized : prepared.messagesToSummarize ++ prepared.turnPrefixMessages =
    messagesBetween path (boundaryStart path) cutIndex
  recent : prepared.recentMessages = (path.drop cutIndex).filterMap getMessageFromEntry

theorem preparedAt_of_prepareCompaction {settings : CompactionSettings}
    {opts : PrepareCompactionOptions}
    (h : prepareCompaction path settings opts = some prepared) :
    ∃ cutIndex, PreparedAt path prepared cutIndex := by
  simp only [prepareCompaction, ite_none_left_eq_some] at h
  obtain ⟨_, h⟩ := h
  have hrange := findCutPoint_inRange path (boundaryStart_le_length path)
    (tokenCorrection settings opts
      ((path.drop (boundaryStart path)).map estimateEntryTokens).sum).keepRecentTokensCorrected
  generalize findCutPoint path (boundaryStart path) path.length _ = cut at h hrange
  split at h
  · cases h
  · next firstKept hfirst =>
    rw [ite_none_left_eq_some, ite_none_left_eq_some] at h
    obtain ⟨_, _, h⟩ := h
    cases h
    refine ⟨cut.firstKeptEntryIndex, hrange.start_le, hrange.le_end, ?_, ?_, ?_⟩
    · rw [hfirst, map_some]
    · cases hturn : cut.turnStartIndex with
      | none =>
        have hsplit : cut.isSplitTurn = false := by rw [hrange.split, hturn, isSome_none]
        simp [hsplit]
      | some turnStart =>
        have hsplit : cut.isSplitTurn := by rw [hrange.split, hturn, isSome_some]
        have hbounds := hrange.turn turnStart hturn
        simp only [hsplit, if_true, getD_some]
        exact messagesBetween_append path hbounds.1 hbounds.2
    · exact messagesBetween_length path _

/-- The three lists of a preparation are the messages after the previous compaction, in order. -/
theorem PreparedAt.messages {cutIndex : ℕ} (h : PreparedAt path prepared cutIndex) :
    prepared.messagesToSummarize ++ prepared.turnPrefixMessages ++ prepared.recentMessages =
      (path.drop (boundaryStart path)).filterMap getMessageFromEntry := by
  rw [h.summarized, h.recent, ← messagesBetween_length, ← messagesBetween_length,
    messagesBetween_append path h.start_le h.le_length]

end GajaeCode.Compaction
