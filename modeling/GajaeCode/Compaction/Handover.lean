import GajaeCode.Compaction.Prepare

/-!
# Preparation and context

The context builder and the compaction planner each decide which entries are messages and where
the kept history starts. Two comparisons follow: which messages of the present context a
preparation accounts for, and what context results once the prepared compaction is appended.
-/

namespace GajaeCode.Compaction

open Text Json Chain Session List SessionEntry Replay

variable {entry : SessionEntry} {message : SessionMessage}
  {entries path before after : List SessionEntry} {compaction : CompactionEntry}
  {prepared : CompactionPreparation}

/-! ## The two readings of an entry -/

/-- A branch summary without text: a message for the planner, none for the context builder. -/
def isEmptyBranchSummary (entry : SessionEntry) : Bool :=
  match entry.body with
  | .branchSummary _ summary => summary.isEmpty
  | _ => false

theorem appendMessage_eq (entry : SessionEntry) : appendMessage entry =
      if isEmptyBranchSummary entry then none else getMessageFromEntry entry := by
  obtain ⟨id, parentId, timestamp, body⟩ := entry
  cases body with
  | branchSummary fromId summary =>
    cases summary <;> simp [appendMessage, getMessageFromEntry, isEmptyBranchSummary]
  | _ => rfl

theorem getMessageFromEntry_of_appendMessage
    (h : appendMessage entry = some message) : getMessageFromEntry entry = some message := by
  rw [appendMessage_eq, Option.ite_none_left_eq_some] at h
  exact h.2

theorem isSome_getMessageFromEntry_of_empty
    (h : isEmptyBranchSummary entry) : (getMessageFromEntry entry).isSome := by
  obtain ⟨id, parentId, timestamp, body⟩ := entry
  cases body with
  | branchSummary => rfl
  | _ => cases h

theorem entryId_of_getMessageFromEntry
    (h : getMessageFromEntry entry = some message) : message.entryId = entry.id := by
  obtain ⟨id, parentId, timestamp, body⟩ := entry
  cases body with
  | message | customMessage | branchSummary => cases h; rfl
  | _ => cases h

theorem mem_map_id_of_mem_messages (h : message ∈ entries.filterMap getMessageFromEntry) :
    message.entryId ∈ entries.map SessionEntry.id := by
  obtain ⟨entry, hentry, hmsg⟩ := mem_filterMap.mp h
  rw [entryId_of_getMessageFromEntry hmsg]
  exact mem_map_of_mem hentry

theorem nodup_messages (h : (entries.map SessionEntry.id).Nodup) :
    (entries.filterMap getMessageFromEntry).Nodup := by
  induction entries with
  | nil => exact nodup_nil
  | cons entry entries ih =>
    rw [map_cons, nodup_cons] at h
    cases hmsg : getMessageFromEntry entry with
    | none =>
      rw [filterMap_cons_none hmsg]
      exact ih h.2
    | some =>
      rw [filterMap_cons_some hmsg, nodup_cons]
      refine ⟨fun hmem ↦ h.1 ?_, ih h.2⟩
      rw [← entryId_of_getMessageFromEntry hmsg]
      exact mem_map_id_of_mem_messages hmem

theorem length_filterMap_appendMessage_le (entries : List SessionEntry) :
    (entries.filterMap appendMessage).length ≤ (entries.filterMap getMessageFromEntry).length := by
  induction entries with
  | nil => exact Nat.le_refl 0
  | cons entry entries ih =>
    rw [filterMap_cons, filterMap_cons, appendMessage_eq]
    split_ifs with hempty
    · cases getMessageFromEntry entry with
      | none => exact ih
      | some => exact Nat.le_succ_of_le ih
    · cases getMessageFromEntry entry with
      | none => exact ih
      | some => exact Nat.succ_le_succ ih

/-- The two readings of a list of entries agree exactly when no branch summary in it is empty. -/
theorem filterMap_appendMessage_eq_iff (entries : List SessionEntry) :
    entries.filterMap appendMessage = entries.filterMap getMessageFromEntry ↔
      ∀ entry ∈ entries, isEmptyBranchSummary entry = false := by
  induction entries with
  | nil => simp
  | cons entry entries ih =>
    rw [forall_mem_cons, ← ih, filterMap_cons, filterMap_cons, appendMessage_eq]
    cases hempty : isEmptyBranchSummary entry with
    | false =>
      cases getMessageFromEntry entry <;> simp
    | true =>
      obtain ⟨message, hmsg⟩ :=
        Option.isSome_iff_exists.mp (isSome_getMessageFromEntry_of_empty hempty)
      have hle := length_filterMap_appendMessage_le entries
      rw [hmsg]
      simp only [if_true, Bool.true_eq_false, false_and, iff_false]
      intro heq
      rw [heq, length_cons] at hle
      omega

/-! ## What a preparation accounts for -/

section

variable {α : Type*} [DecidableEq α]

/-- A member of lists without repetitions is in exactly one of them. -/
theorem countP_mem_eq_one_iff {lists : List (List α)} (hnodup : lists.flatten.Nodup) {a : α} :
    (lists.countP fun list ↦ a ∈ list) = 1 ↔ a ∈ lists.flatten := by
  induction lists with
  | nil => simp
  | cons list lists ih =>
    rw [flatten_cons, nodup_append] at hnodup
    by_cases hmem : a ∈ list
    · have hrest : a ∉ lists.flatten := fun hrest ↦ hnodup.2.2 a hmem a hrest rfl
      simpa [hmem] using hrest
    · simp [hmem, ih hnodup.2.1]

end

variable (measure : SessionContext → ℕ)

/-- Every message of the present context, other than the summary of the previous compaction, is
in exactly one of the three lists. -/
def AccountsForContext (path : List SessionEntry) (prepared : CompactionPreparation) : Prop :=
  ∀ budgetBytes context,
    buildSessionContext measure budgetBytes path .unspecified = .ok context →
    ∀ message ∈ context.messages,
      (∀ compaction ∈ lastWrite SessionEntry.asCompaction? path,
        message ≠ compactionSummary compaction) →
      ([prepared.messagesToSummarize, prepared.turnPrefixMessages,
        prepared.recentMessages].countP fun list ↦ message ∈ list) = 1

/-- The messages that a compaction kept from before it. -/
def keptMessages (path : List SessionEntry) (compaction : CompactionEntry) : List SessionMessage :=
  (if (remotePayload compaction.data).isNone then keptEntries path compaction
    else []).filterMap appendMessage

/-- The previous compaction kept no message from before it: it has a replacement history, or no
entry from its first kept one up to it is a message. -/
def NothingKept (path : List SessionEntry) : Prop :=
  ∀ compaction ∈ lastWrite SessionEntry.asCompaction? path,
    (remotePayload compaction.data).isSome ∨
      ∀ entry ∈ keptEntries path compaction, appendMessage entry = none

theorem nothingKept_iff (path : List SessionEntry) :
    NothingKept path ↔ ∀ compaction ∈ lastWrite asCompaction? path,
      keptMessages path compaction = [] := by
  apply forall₂_congr
  intro compaction _
  rw [keptMessages]
  cases remotePayload compaction.data with
  | none => simp
  | some => simp

section

variable {path : List SessionEntry} {prepared : CompactionPreparation} {cutIndex : ℕ}

theorem PreparedAt.countP_eq_one_iff (h : PreparedAt path prepared cutIndex)
    (hnodup : (path.map SessionEntry.id).Nodup) (message : SessionMessage) :
    ([prepared.messagesToSummarize, prepared.turnPrefixMessages,
        prepared.recentMessages].countP fun list ↦ message ∈ list) = 1 ↔
      message ∈ (path.drop (boundaryStart path)).filterMap getMessageFromEntry := by
  have hflat : [prepared.messagesToSummarize, prepared.turnPrefixMessages,
      prepared.recentMessages].flatten =
      (path.drop (boundaryStart path)).filterMap getMessageFromEntry := by
    simpa using h.messages
  rw [countP_mem_eq_one_iff, hflat]
  rw [hflat]
  apply nodup_messages
  rw [map_drop]
  exact hnodup.sublist (drop_sublist _ _)

theorem asCompaction?_of_quiet (h : ∀ entry ∈ path, entry.isCompaction = false) :
    lastWrite asCompaction? path = none := by
  rw [lastWrite_eq_none_iff]
  exact fun entry hentry ↦ asCompaction?_eq_none_iff.mpr (h entry hentry)

section

variable (hnodup : (path.map SessionEntry.id).Nodup)

include hnodup

/-- A message of the context is the previous summary, was kept by it, or comes after it. -/
theorem mem_contextMessages_iff (message : SessionMessage) :
    message ∈ contextMessages path (lastWrite asCompaction? path) ↔
      (∃ compaction ∈ lastWrite asCompaction? path,
        message = compactionSummary compaction ∨ message ∈ keptMessages path compaction) ∨
      message ∈ (path.drop (boundaryStart path)).filterMap appendMessage := by
  rcases lastCompaction_or path with ⟨hboundary, hquiet⟩ | ⟨before, after, entry, compaction, hlast⟩
  · rw [asCompaction?_of_quiet hquiet, hboundary]
    simp [contextMessages]
  · rw [hlast.lastWrite_eq, contextMessages, hlast.compactionIndex_eq hnodup, ← hlast.boundary, mem_cons,
      mem_append, ← keptMessages]
    simp [or_assoc]

/-- A kept message is neither the summary nor a message after the compaction. -/
theorem LastCompaction.not_accounted (h : LastCompaction path before after entry compaction)
    (hmsg : message ∈ keptMessages path compaction) :
    message ≠ compactionSummary compaction ∧
      message ∉ (path.drop (boundaryStart path)).filterMap getMessageFromEntry := by
  have hbefore : message.entryId ∈ before.map SessionEntry.id := by
    rw [keptMessages] at hmsg
    split_ifs at hmsg
    · rw [keptEntries, h.compactionIndex_eq hnodup, h.split, take_left] at hmsg
      obtain ⟨kept, hkept, happend⟩ := mem_filterMap.mp hmsg
      rw [entryId_of_getMessageFromEntry (getMessageFromEntry_of_appendMessage happend)]
      exact mem_map_of_mem ((dropWhile_sublist _).subset hkept)
    · exact absurd hmsg not_mem_nil
  have hids := hnodup
  rw [h.split, map_append, map_cons, nodup_append] at hids
  constructor
  · intro heq
    have hid : message.entryId = entry.id := by
      rw [heq]
      exact h.id_eq
    exact hids.2.2 _ hbefore _ mem_cons_self hid
  · intro hmem
    rw [h.boundary, h.split, append_cons, drop_left' (by simp)] at hmem
    exact hids.2.2 _ hbefore _ (mem_cons_of_mem _ (mem_map_id_of_mem_messages hmem)) rfl

end

end

/-- A preparation accounts for every message of the context exactly when the previous compaction
kept none from before it, or there is no context because an ownership marker is invalid. -/
theorem accountsForContext_iff (measure : SessionContext → ℕ) {path : List SessionEntry}
    {settings : CompactionSettings} {options : PrepareCompactionOptions}
    {prepared : CompactionPreparation} (hpath : IsPath path)
    (h : prepareCompaction path settings options = some prepared) :
    AccountsForContext measure path prepared ↔
      (∃ entry ∈ path, entry.hasInvalidMarker = true) ∨ NothingKept path := by
  obtain ⟨cutIndex, hprepared⟩ := preparedAt_of_prepareCompaction h
  have hne : path ≠ [] := by
    rintro rfl
    simpa using hprepared.firstKept
  rw [AccountsForContext, nothingKept_iff]
  simp only [hprepared.countP_eq_one_iff hpath.nodup, hpath.buildSessionContext_unspecified hne]
  constructor
  · intro hall
    by_cases hmarkers : ∃ entry ∈ path, entry.hasInvalidMarker = true
    · exact .inl hmarkers
    right
    intro compaction hcompaction
    rw [eq_nil_iff_forall_not_mem]
    intro message hmessage
    have hvalid : ∀ entry ∈ path, entry.hasInvalidMarker = false := by
      simpa using hmarkers
    obtain ⟨state, hrun⟩ := (exists_run_iff path).mpr hvalid
    have hcontext := contextOfPath_eq_ok_iff.mpr
      ⟨state, hrun, rfl, Nat.le_refl (measure (state.context path))⟩
    obtain ⟨before, after, entry, last, hlast⟩ :
        ∃ before after entry last, LastCompaction path before after entry last := by
      rcases lastCompaction_or path with ⟨_, hquiet⟩ | hlast
      · rw [asCompaction?_of_quiet hquiet] at hcompaction
        cases hcompaction
      · exact hlast
    rw [hlast.lastWrite_eq, Option.mem_some_iff] at hcompaction
    subst hcompaction
    have hnot := hlast.not_accounted hpath.nodup hmessage
    apply hnot.2
    apply hall _ _ hcontext message
    · change message ∈ contextMessages path state.compaction
      rw [run_compaction hrun, mem_contextMessages_iff hpath.nodup]
      exact .inl ⟨last, hlast.lastWrite_eq, .inr hmessage⟩
    · intro other hother
      rw [hlast.lastWrite_eq, Option.mem_some_iff] at hother
      rw [← hother]
      exact hnot.1
  · intro hcondition budgetBytes context hcontext message hmessage hsummary
    obtain ⟨state, hrun, rfl, _⟩ := contextOfPath_eq_ok_iff.mp hcontext
    have hmessage' : message ∈ contextMessages path state.compaction := hmessage
    rw [run_compaction hrun, mem_contextMessages_iff hpath.nodup] at hmessage'
    rcases hcondition with ⟨entry, hentry, hinvalid⟩ | hkept
    · have hvalid := (exists_run_iff path).mp ⟨state, hrun⟩ entry hentry
      rw [hinvalid] at hvalid
      cases hvalid
    · rcases hmessage' with ⟨compaction, hcompaction, hsame | hmem⟩ | hafter
      · exact absurd hsame (hsummary compaction hcompaction)
      · rw [hkept compaction hcompaction] at hmem
        exact absurd hmem not_mem_nil
      · obtain ⟨entry, hentry, happend⟩ := mem_filterMap.mp hafter
        exact mem_filterMap.mpr ⟨entry, hentry, getMessageFromEntry_of_appendMessage happend⟩

def userEntry (id : String) (parentId : Option String) : SessionEntry :=
  ⟨utf16 id, parentId.map utf16, utf16 "2026-01-01T00:00:00.000Z",
    .message ⟨.user, [(utf16 "content", .str (utf16 "text"))], none⟩⟩

def summaryOf (firstKept : String) : CompactionData :=
  ⟨utf16 "summary", none, utf16 firstKept, .zero, .undefined⟩

def compactionAt (id parentId firstKept : String) : SessionEntry :=
  ⟨utf16 id, some (utf16 parentId), utf16 "2026-01-01T00:00:01.000Z",
    .compaction (summaryOf firstKept)⟩

/-- Settings that keep a single recent token. -/
def narrowSettings : CompactionSettings := { defaultCompactionSettings with keepRecentTokens := 1 }

def plainOptions : PrepareCompactionOptions := ⟨none, none⟩

def userMessage (id : String) : SessionMessage :=
  ⟨utf16 id, ⟨.user, [(utf16 "content", .str (utf16 "text"))], none⟩⟩

theorem accountsForContext_fresh :
    ∃ prepared, prepareCompaction [userEntry "a" none, userEntry "b" (some "a")] narrowSettings
        plainOptions = some prepared ∧
      AccountsForContext (fun _ ↦ 0) [userEntry "a" none, userEntry "b" (some "a")] prepared := by
  have hsome : (prepareCompaction [userEntry "a" none, userEntry "b" (some "a")] narrowSettings
      plainOptions).isSome = true := by decide +kernel
  obtain ⟨prepared, hprepared⟩ := Option.isSome_iff_exists.mp hsome
  refine ⟨prepared, hprepared, ?_⟩
  apply (accountsForContext_iff _ ⟨by decide, by decide, by decide, by decide⟩ hprepared).mpr
  exact Or.inr fun compaction hcompaction ↦ by cases hcompaction

/-- The message `a` was kept by the first compaction; the second neither summarizes nor keeps
it. -/
theorem prepareCompaction_loses_kept :
    (prepareCompaction [userEntry "a" none, compactionAt "b" "a" "a", userEntry "c" (some "b"),
        userEntry "d" (some "c")] narrowSettings plainOptions).map (fun prepared ↦
        (prepared.messagesToSummarize, prepared.turnPrefixMessages, prepared.recentMessages)) =
        some ([userMessage "c"], [], [userMessage "d"]) ∧
      (buildSessionContext (fun _ ↦ 0) 0 [userEntry "a" none, compactionAt "b" "a" "a",
        userEntry "c" (some "b"), userEntry "d" (some "c")] .unspecified).toOption.map
        (fun context ↦ context.messages.tail) =
        some [userMessage "a", userMessage "c", userMessage "d"] := by
  constructor
  · decide +kernel
  · decide +kernel

/-! ## The context after the compaction -/

/-- A build gives the context with these messages, unless the budget is exceeded. -/
def YieldsMessages (entries : List SessionEntry) (messages : List SessionMessage) : Prop :=
  ∃ context : SessionContext, context.messages = messages ∧ ∀ budgetBytes,
    buildSessionContext measure budgetBytes entries .unspecified =
      assertSessionContextWithinBudget measure budgetBytes context

theorem yieldsMessages_iff_of_isPath
    (hpath : IsPath entries) (hne : entries ≠ []) (messages : List SessionMessage) :
    YieldsMessages measure entries messages ↔ (∀ entry ∈ entries, entry.hasInvalidMarker = false) ∧
        contextMessages entries (lastWrite asCompaction? entries) = messages := by
  simp only [YieldsMessages, hpath.buildSessionContext_unspecified hne, contextOfPath,
    ← exists_run_iff]
  constructor
  · rintro ⟨context, hmsgs, hbuild⟩
    have hok := hbuild (measure context)
    rw [assertSessionContextWithinBudget, if_neg (Nat.lt_irrefl _), ← contextOfPath,
      contextOfPath_eq_ok_iff] at hok
    obtain ⟨state, hrun, hctx, _⟩ := hok
    refine ⟨⟨state, hrun⟩, ?_⟩
    rw [← hmsgs, ← hctx, ← run_compaction hrun]
    rfl
  · rintro ⟨⟨state, hrun⟩, hmsgs⟩
    refine ⟨state.context entries, ?_, fun budgetBytes ↦ ?_⟩
    · rw [← hmsgs, ← run_compaction hrun]
      rfl
    · rw [hrun]
      rfl

/-- With unique ids the entries from the first kept one on are those from its index on. -/
theorem dropWhile_id_ne_eq_drop {cutIndex : ℕ} {firstKept : JsString}
    (hnodup : (path.map SessionEntry.id).Nodup)
    (h : path[cutIndex]?.map SessionEntry.id = some firstKept) :
    (path.dropWhile fun entry ↦ entry.id ≠ firstKept) = path.drop cutIndex := by
  obtain ⟨entry, hentry, hid⟩ := Option.map_eq_some_iff.mp h
  obtain ⟨hlt, rfl⟩ := List.getElem?_eq_some_iff.mp hentry
  have hsplit : path.drop cutIndex = path[cutIndex] :: path.drop (cutIndex + 1) :=
    (cons_getElem_drop_succ).symm
  have hbefore : ∀ earlier ∈ path.take cutIndex, earlier.id ≠ firstKept := by
    rw [← take_append_drop cutIndex path, map_append, nodup_append, hsplit] at hnodup
    intro earlier hearlier
    rw [← hid]
    exact hnodup.2.2 _ (mem_map_of_mem hearlier) _ (mem_map_of_mem mem_cons_self)
  calc path.dropWhile (fun entry ↦ entry.id ≠ firstKept)
      = (path.take cutIndex ++ path.drop cutIndex).dropWhile fun entry ↦ entry.id ≠ firstKept := by
        rw [take_append_drop]
    _ = (path.drop cutIndex).dropWhile fun entry ↦ entry.id ≠ firstKept := by
        apply dropWhile_append_of_pos
        intro earlier hearlier
        exact decide_eq_true (hbefore earlier hearlier)
    _ = path.drop cutIndex := by
        rw [hsplit, dropWhile_cons_of_neg]
        simp [hid]

/-- The messages once a compaction without replacement history ends the path. -/
theorem contextMessages_concat
    {data : CompactionData} (hnodup : ((path ++ [entry]).map SessionEntry.id).Nodup)
    (hbody : entry.body = .compaction data) (hremote : remotePayload data = none) :
    contextMessages (path ++ [entry]) (lastWrite asCompaction? (path ++ [entry])) =
      compactionSummary ⟨entry.id, entry.timestamp, data⟩ :: (path.dropWhile fun candidate ↦
          candidate.id ≠ data.firstKeptEntryId).filterMap appendMessage := by
  have hentry : entry.asCompaction? = some ⟨entry.id, entry.timestamp, data⟩ := by
    simp [asCompaction?, compaction?, hbody]
  have hcompact : entry.isCompaction := by
    simp [isCompaction, compaction?, hbody]
  have hbefore : ∀ earlier ∈ path, earlier.id ≠ entry.id := by
    rw [map_append, nodup_append] at hnodup
    intro earlier hearlier
    exact hnodup.2.2 _ (mem_map_of_mem hearlier) _ (by simp)
  have hidx : compactionIndex (path ++ [entry]) ⟨entry.id, entry.timestamp, data⟩ = path.length := by
    rw [compactionIndex_append hbefore, compactionIndex, findIdx_cons, hcompact]
    simp
  rw [lastWrite_concat, hentry, Option.some_or, contextMessages, hremote, keptEntries, hidx,
    take_left]
  simp

/-- After the prepared compaction the context is its summary and the recent messages, exactly
when the ownership markers of the path are valid and no branch summary kept is empty. -/
theorem yieldsMessages_recentMessages_iff (measure : SessionContext → ℕ)
    {path : List SessionEntry} {settings : CompactionSettings}
    {options : PrepareCompactionOptions} {prepared : CompactionPreparation}
    (h : prepareCompaction path settings options = some prepared)
    {entry : SessionEntry} {data : CompactionData} (hpath : IsPath (path ++ [entry]))
    (hbody : entry.body = .compaction data)
    (hfirst : data.firstKeptEntryId = prepared.firstKeptEntryId)
    (hremote : remotePayload data = none) :
    YieldsMessages measure (path ++ [entry])
        (compactionSummary ⟨entry.id, entry.timestamp, data⟩ :: prepared.recentMessages) ↔
      (∀ earlier ∈ path, earlier.hasInvalidMarker = false) ∧
        ∀ kept ∈ path.dropWhile fun candidate ↦ candidate.id ≠ data.firstKeptEntryId,
          isEmptyBranchSummary kept = false := by
  obtain ⟨cutIndex, hprepared⟩ := preparedAt_of_prepareCompaction h
  have hnodup : (path.map SessionEntry.id).Nodup := by
    have hids := hpath.nodup
    rw [map_append] at hids
    exact hids.of_append_left
  have hdrop : (path.dropWhile fun candidate ↦ candidate.id ≠ data.firstKeptEntryId) =
      path.drop cutIndex := by
    apply dropWhile_id_ne_eq_drop hnodup
    rw [hfirst]
    exact hprepared.firstKept
  have hmarker : entry.hasInvalidMarker = false := by
    simp [hasInvalidMarker, hbody]
  rw [yieldsMessages_iff_of_isPath measure hpath (by simp),
    contextMessages_concat hpath.nodup hbody hremote, forall_mem_append, forall_mem_singleton, hdrop, hprepared.recent, cons.injEq,
    filterMap_appendMessage_eq_iff]
  simp [hmarker]

theorem yieldsMessages_fresh :
    ∃ prepared, prepareCompaction [userEntry "a" none, userEntry "b" (some "a")] narrowSettings
        plainOptions = some prepared ∧
      YieldsMessages (fun _ ↦ 0)
        ([userEntry "a" none, userEntry "b" (some "a")] ++ [compactionAt "c" "b" "b"])
        (compactionSummary ⟨utf16 "c", utf16 "2026-01-01T00:00:01.000Z", summaryOf "b"⟩ ::
          prepared.recentMessages) := by
  have hfirst : (prepareCompaction [userEntry "a" none, userEntry "b" (some "a")] narrowSettings
      plainOptions).map CompactionPreparation.firstKeptEntryId = some (utf16 "b") := by
    decide +kernel
  obtain ⟨prepared, hprepared, hid⟩ := Option.map_eq_some_iff.mp hfirst
  refine ⟨prepared, hprepared, ?_⟩
  apply (yieldsMessages_recentMessages_iff (fun _ ↦ 0) hprepared
    ⟨by decide, by decide, by decide, by decide⟩ rfl hid.symm rfl).mpr
  exact ⟨by decide, by decide⟩

def emptySummaryEntry : SessionEntry :=
  ⟨utf16 "c", some (utf16 "b"), utf16 "2026-01-01T00:00:00.000Z",
    .branchSummary (utf16 "x") []⟩

/-- The planner keeps an empty branch summary as a message, the context builder drops it. -/
theorem recentMessages_keep_empty_summary :
    (prepareCompaction [userEntry "a" none, userEntry "b" (some "a"), emptySummaryEntry]
        narrowSettings plainOptions).map (fun prepared ↦
        (prepared.firstKeptEntryId, prepared.recentMessages.map SessionMessage.entryId)) =
        some (utf16 "b", [utf16 "b", utf16 "c"]) ∧
      (buildSessionContext (fun _ ↦ 0) 0 [userEntry "a" none, userEntry "b" (some "a"),
        emptySummaryEntry, compactionAt "d" "c" "b"] .unspecified).toOption.map
        (fun context ↦ context.messages.map SessionMessage.entryId) =
        some [utf16 "d", utf16 "b"] := by
  constructor
  · decide +kernel
  · decide +kernel

end GajaeCode.Compaction
