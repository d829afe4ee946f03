import GajaeCode.Agent.CloneJson

/-!
# The append-only provider log

`AppendOnlyContextManager` keeps a log of cloned messages beside the hashes of the messages they
were cloned from, and compares hashes to decide whether a new message array extends what was synced
before. A forked manager starts from a seeded baseline that its own arrays may or may not repeat.

Messages are plain objects. Every log entry carries the number of the allocation that made it, so
that an entry that is kept can be told from one that is cloned again. Of the stable prefix only
whether it is built is kept; the log does not depend on it.
-/

namespace GajaeCode.Agent.AppendOnly

open Text Json List Function

variable {spec : SyncSpec} {right left messages baseline : List Message}

/-- A provider-level message: an object with the given fields. -/
abbrev Message := Fields

/-- `JSON.stringify(message)`. -/
def messageText (message : Message) : JsString := valueText (.obj message)

/-- `cloneJson(message)`. -/
def cloneMessage (message : Message) : Message := cloneFields message

structure LogEntry where
  allocation : ℕ
  message : Message
  deriving DecidableEq

structure AppendOnlyContextManager (η : Type*) where
  entries : List LogEntry
  lastSyncCount : ℕ
  syncedHashes : List η
  seededPrefixCount : ℕ
  prefixBuilt : Bool
  nextAllocation : ℕ

namespace AppendOnlyContextManager

variable {η : Type*} [DecidableEq η] (hashSource : JsString → η)

def new : AppendOnlyContextManager η := ⟨[], 0, [], 0, false, 0⟩

def hashMessage (message : Message) : η := hashSource (messageText message)

/-- Hash of the message at an index; reading past the end gives `undefined`, hashed as `null`. -/
def hashAt (messages : List Message) (index : ℕ) : η :=
  match messages[index]? with
  | some message => hashMessage hashSource message
  | none => hashSource (utf16 "null")

def hashRange (messages : List Message) : List η := messages.map (hashMessage hashSource)

def rangeHashesEqual (left right : List Message) (count : ℕ) : Bool :=
  (List.range count).all fun index ↦ hashAt hashSource left index = hashAt hashSource right index

variable (manager : AppendOnlyContextManager η)

def prefixChanged (hashes : List η) (count : ℕ) : Bool :=
  if count > manager.syncedHashes.length then false
  else (List.range count).any fun index ↦ hashes[index]? ≠ manager.syncedHashes[index]?

def logMessages : List Message :=
  manager.entries.map LogEntry.message

/-- Clones of messages, each a new object. -/
def freshClones : ℕ → List Message → List LogEntry
  | _, [] => []
  | start, message :: rest => ⟨start, cloneMessage message⟩ :: freshClones (start + 1) rest

def clearLog : AppendOnlyContextManager η :=
  { manager with entries := [], lastSyncCount := 0, syncedHashes := [] }

/-- `log.append(cloneJson(msg))` for the messages that were not synced yet. -/
def appendNew (messages : List Message) (hashes : List η) : AppendOnlyContextManager η :=
  let newMessages := messages.drop manager.lastSyncCount
  { manager with
    entries := manager.entries ++ freshClones manager.nextAllocation newMessages
    lastSyncCount := messages.length
    syncedHashes := hashes
    nextAllocation := manager.nextAllocation + newMessages.length }

def rebaseToBaseline (messages : List Message)
    (hashes : List η) (seededPrefixCount : ℕ) : AppendOnlyContextManager η :=
  { manager with
    entries := freshClones manager.nextAllocation messages
    lastSyncCount := messages.length
    seededPrefixCount := seededPrefixCount
    syncedHashes := hashes
    nextAllocation := manager.nextAllocation + messages.length }

def includesSeedPrefix (normalizedMessages : List Message) : Bool :=
  manager.seededPrefixCount > 0 && normalizedMessages.length ≥ manager.seededPrefixCount &&
    rangeHashesEqual hashSource normalizedMessages manager.logMessages manager.seededPrefixCount

def messagesToSync (normalizedMessages : List Message) : List Message :=
  if manager.seededPrefixCount > 0 && !manager.includesSeedPrefix hashSource normalizedMessages then
    manager.logMessages.take manager.seededPrefixCount ++ normalizedMessages
  else normalizedMessages

/-- After an in-place rewrite the count is zero, so the test for a shrunk array is not made. -/
def syncMessages (normalizedMessages : List Message) : AppendOnlyContextManager η :=
  let messages := manager.messagesToSync hashSource normalizedMessages
  let hashes := hashRange hashSource messages
  let rewritten := manager.lastSyncCount > 0 && manager.lastSyncCount ≤ messages.length &&
    manager.prefixChanged hashes manager.lastSyncCount
  if rewritten || messages.length < manager.lastSyncCount then
    if manager.seededPrefixCount > 0 then
      manager.rebaseToBaseline messages hashes manager.seededPrefixCount
    else manager.clearLog.appendNew messages hashes
  else manager.appendNew messages hashes

/-- Seeding a log that is not empty throws unless a reset is asked for. -/
def seedNormalizedMessages (messages : List Message)
    (reset : Bool) : Option (AppendOnlyContextManager η) :=
  if manager.entries.length > 0 && !reset then none
  else
    let clones := freshClones manager.nextAllocation messages
    some
      { manager with
        entries := clones
        lastSyncCount := clones.length
        syncedHashes := hashRange hashSource (clones.map LogEntry.message)
        seededPrefixCount := clones.length
        nextAllocation := manager.nextAllocation + clones.length }

def invalidate : AppendOnlyContextManager η :=
  { manager with prefixBuilt := false }

def resetSyncCursor : AppendOnlyContextManager η :=
  { manager.clearLog with seededPrefixCount := 0 }

def invalidateForModelChange : AppendOnlyContextManager η :=
  manager.invalidate.resetSyncCursor

def reset : AppendOnlyContextManager η :=
  { manager.resetSyncCursor with prefixBuilt := true }

def releaseAfterHistoryRewrite (preserveSeededPrefix : Bool) : AppendOnlyContextManager η :=
  let seeded := if preserveSeededPrefix then manager.seededPrefixCount else 0
  let kept := if seeded > 0 then manager.entries.take seeded else []
  invalidate
    { manager with
      entries := kept
      lastSyncCount := kept.length
      seededPrefixCount := kept.length
      syncedHashes := hashRange hashSource (kept.map LogEntry.message) }

end AppendOnlyContextManager

inductive Operation
  | syncMessages (messages : List Message)
  | seedNormalizedMessages (messages : List Message) (reset : Bool)
  | reset
  | resetSyncCursor
  | invalidateForModelChange
  | releaseAfterHistoryRewrite (preserveSeededPrefix : Bool)
  | invalidate

section

variable {η : Type*} [DecidableEq η] (hashSource : JsString → η)

/-- One call; a call that throws leaves the manager as it was. -/
def step (manager : AppendOnlyContextManager η) : Operation → AppendOnlyContextManager η
  | .syncMessages messages => manager.syncMessages hashSource messages
  | .seedNormalizedMessages messages reset =>
      (manager.seedNormalizedMessages hashSource messages reset).getD manager
  | .reset => manager.reset
  | .resetSyncCursor => manager.resetSyncCursor
  | .invalidateForModelChange => manager.invalidateForModelChange
  | .releaseAfterHistoryRewrite preserve => manager.releaseAfterHistoryRewrite hashSource preserve
  | .invalidate => manager.invalidate

def run (operations : List Operation) : AppendOnlyContextManager η :=
  operations.foldl (step hashSource) .new

end

/-! ## What the log is meant to hold -/

/-- The messages agree with the baseline as far as it goes, by their JSON text. -/
def StartsWith (baseline messages : List Message) : Prop :=
  (messages.take baseline.length).map messageText = baseline.map messageText

instance (baseline messages : List Message) : Decidable (StartsWith baseline messages) :=
  inferInstanceAs (Decidable (_ = _))

/-- The messages a sync stands for: an array without the baseline is read as its continuation. -/
def effectiveMessages (baseline messages : List Message) : List Message :=
  if StartsWith baseline messages then messages else baseline ++ messages

/-- The baseline of a fork and the messages that were synced last. -/
structure SyncSpec where
  baseline : List Message
  synced : List Message

def SyncSpec.new : SyncSpec := ⟨[], []⟩

/-- The effect of an operation on baseline and synced messages. -/
def SyncSpec.step (spec : SyncSpec) : Operation → SyncSpec
  | .syncMessages messages => { spec with synced := effectiveMessages spec.baseline messages }
  | .seedNormalizedMessages messages reset =>
      if spec.synced.length > 0 && !reset then spec
      else ⟨messages.map cloneMessage, messages.map cloneMessage⟩
  | .reset => .new
  | .resetSyncCursor => .new
  | .invalidateForModelChange => .new
  | .releaseAfterHistoryRewrite preserve =>
      if preserve then ⟨spec.baseline, spec.baseline⟩ else .new
  | .invalidate => spec

def SyncSpec.run (operations : List Operation) : SyncSpec := operations.foldl SyncSpec.step .new

theorem map_cloneMessage_eq_of_map_messageText_eq
    (h : left.map messageText = right.map messageText) :
    left.map cloneMessage = right.map cloneMessage := by
  induction left generalizing right with
  | nil =>
    rw [map_nil, eq_comm, map_eq_nil_iff] at h
    rw [h]
  | cons message rest ih =>
    cases right with
    | nil => simp at h
    | cons =>
      rw [map_cons, map_cons, cons.injEq] at h
      exact congrArg₂ cons (cloneFields_eq_of_valueText_eq h.1) (ih h.2)

/-- Clones among clones are clones of themselves. -/
theorem map_cloneMessage_of_isPrefix
    (h : baseline <+: messages.map cloneMessage) : baseline.map cloneMessage = baseline := by
  have hfixed : ∀ message ∈ baseline, cloneMessage message = id message := by
    intro message hmsg
    obtain ⟨source, -, hsource⟩ := mem_map.mp (h.subset hmsg)
    rw [← hsource]
    exact cloneFields_cloneFields source
  calc
    baseline.map cloneMessage = baseline.map id := map_congr_left hfixed
    _ = baseline := map_id baseline

/-- The effective messages start with the baseline, up to cloning. -/
theorem baseline_prefix_effectiveMessages
    (hclones : baseline.map cloneMessage = baseline) (messages : List Message) :
    baseline <+: (effectiveMessages baseline messages).map cloneMessage := by
  unfold effectiveMessages
  split_ifs with hstarts
  · have htake := map_cloneMessage_eq_of_map_messageText_eq hstarts
    rw [hclones, map_take] at htake
    rw [← htake]
    exact take_prefix _ _
  · rw [map_append, hclones]
    exact prefix_append _ _

namespace AppendOnlyContextManager

variable {η : Type*} [DecidableEq η] {hashSource : JsString → η}

theorem map_message_freshClones (start : ℕ) (messages : List Message) :
    (freshClones start messages).map LogEntry.message = messages.map cloneMessage := by
  induction messages generalizing start with
  | nil => rfl
  | cons message rest ih => rw [freshClones, map_cons, map_cons, ih]

theorem length_freshClones (start : ℕ) (messages : List Message) :
    (freshClones start messages).length = messages.length := by
  rw [← length_map, map_message_freshClones, length_map]

omit [DecidableEq η] in
theorem hashRange_eq_map (messages : List Message) :
    hashRange hashSource messages = (messages.map messageText).map hashSource :=
  map_map.symm

/-- Comparing the first hashes compares the first messages by their text. -/
theorem rangeHashesEqual_iff (hinj : Injective hashSource) {count : ℕ} (hright : count ≤ right.length) :
    count ≤ left.length ∧ rangeHashesEqual hashSource left right count ↔
      (left.take count).map messageText = (right.take count).map messageText := by
  rw [← hinj.list_map.eq_iff, ← hashRange_eq_map, ← hashRange_eq_map, rangeHashesEqual, all_eq_true, ext_getElem_iff]
  simp only [mem_range, decide_eq_true_eq, hashRange, length_map, length_take,
    getElem_map, getElem_take]
  constructor
  · rintro ⟨hleft, h⟩
    refine ⟨by omega, fun idx hidx _ ↦ ?_⟩
    have := h idx (by omega)
    rwa [hashAt, hashAt, getElem?_eq_getElem (by omega), getElem?_eq_getElem (by omega)] at this
  · rintro ⟨hlength, h⟩
    refine ⟨by omega, fun idx hidx ↦ ?_⟩
    have := h idx (by omega) (by omega)
    rwa [hashAt, hashAt, getElem?_eq_getElem (by omega), getElem?_eq_getElem (by omega)]

/-- Some already synced message changed exactly when the first hashes are not the synced ones. -/
theorem prefixChanged_eq_false_iff (manager : AppendOnlyContextManager η) (hashes : List η) :
    manager.prefixChanged hashes manager.syncedHashes.length = false ↔
      manager.syncedHashes <+: hashes := by
  rw [prefixChanged, if_neg (by omega), any_eq_false, prefix_iff_getElem?]
  simp only [mem_range, ne_eq, decide_not, Bool.not_eq_true', decide_eq_false_iff_not, not_not]
  exact forall₂_congr fun idx hidx ↦ by rw [getElem?_eq_getElem hidx]

end AppendOnlyContextManager

/-! ## The manager refines the specification -/

section

variable {η : Type*} [DecidableEq η] (hashSource : JsString → η)

/-- The log holds the clones of the synced messages and starts with the baseline; counts and
hashes are those of the synced messages. -/
structure Refines (spec : SyncSpec) (manager : AppendOnlyContextManager η) : Prop where
  log : manager.logMessages = spec.synced.map cloneMessage
  count : manager.lastSyncCount = spec.synced.length
  hashes : manager.syncedHashes = AppendOnlyContextManager.hashRange hashSource spec.synced
  seeded : manager.seededPrefixCount = spec.baseline.length
  baseline : spec.baseline <+: spec.synced.map cloneMessage

open AppendOnlyContextManager

variable {hashSource} {manager : AppendOnlyContextManager η}

omit [DecidableEq η] in
theorem refines_new : Refines hashSource .new (.new : AppendOnlyContextManager η) where
  log := rfl
  count := rfl
  hashes := rfl
  seeded := rfl
  baseline := prefix_refl []

omit [DecidableEq η] in
/-- The first entries of the log are the baseline. -/
theorem Refines.take_logMessages (h : Refines hashSource spec manager) :
    manager.logMessages.take manager.seededPrefixCount = spec.baseline := by
  rw [h.log, h.seeded]
  exact (prefix_iff_eq_take.mp h.baseline).symm

/-- The messages that are synced are the effective ones. -/
theorem Refines.messagesToSync_eq (hinj : Injective hashSource)
    (h : Refines hashSource spec manager) (messages : List Message) :
    manager.messagesToSync hashSource messages = effectiveMessages spec.baseline messages := by
  have hlog : spec.baseline.length ≤ manager.logMessages.length := by
    rw [h.log]
    exact h.baseline.length_le
  have htake := h.take_logMessages
  have hincludes : manager.includesSeedPrefix hashSource messages ↔
      0 < spec.baseline.length ∧ StartsWith spec.baseline messages := by
    rw [h.seeded] at htake
    rw [includesSeedPrefix, h.seeded, StartsWith, ← congrArg (map messageText) htake,
      ← rangeHashesEqual_iff hinj hlog]
    simp [and_assoc]
  have hcontinues : (manager.seededPrefixCount > 0 && !manager.includesSeedPrefix hashSource messages) ↔
      ¬ StartsWith spec.baseline messages := by
    have hempty : ¬ 0 < spec.baseline.length → StartsWith spec.baseline messages := by
      intro hzero
      simp [StartsWith, length_eq_zero_iff.mp (Nat.eq_zero_of_not_pos hzero)]
    rw [Bool.and_eq_true, Bool.not_eq_true', ← Bool.not_eq_true, hincludes, decide_eq_true_eq, h.seeded]
    tauto
  rw [messagesToSync, effectiveMessages, htake, if_congr hcontinues rfl rfl, ite_not]

section

variable (h : Refines hashSource spec manager)

include h

/-- The log is only rewritten when the effective messages do not extend the synced ones. -/
theorem Refines.syncMessages_eq (hinj : Injective hashSource)
    (heffective : effectiveMessages spec.baseline messages = effective) :
    manager.syncMessages hashSource messages =
      if spec.synced.map messageText <+: effective.map messageText then
        manager.appendNew effective (hashRange hashSource effective)
      else if manager.seededPrefixCount > 0 then
        manager.rebaseToBaseline effective (hashRange hashSource effective)
          manager.seededPrefixCount
      else
        manager.clearLog.appendNew effective (hashRange hashSource effective) := by
  rw [AppendOnlyContextManager.syncMessages, h.messagesToSync_eq hinj, heffective]
  have hlen : manager.syncedHashes.length = manager.lastSyncCount := by
    rw [h.hashes, h.count, hashRange, length_map]
  have hchanged := manager.prefixChanged_eq_false_iff (hashRange hashSource effective)
  rw [hlen, h.hashes, hashRange_eq_map, hashRange_eq_map, prefix_map_iff_of_injective hinj,
    ← hashRange_eq_map] at hchanged
  have hempty : manager.lastSyncCount = 0 → spec.synced.map messageText <+:
      effective.map messageText := by
    intro hzero
    have hnil : spec.synced = [] := length_eq_zero_iff.mp (h.count ▸ hzero)
    rw [hnil, map_nil]
    exact nil_prefix
  have hlonger : spec.synced.map messageText <+: effective.map messageText →
      manager.lastSyncCount ≤ effective.length := by
    intro hext
    simpa [h.count] using hext.length_le
  by_cases hext : spec.synced.map messageText <+: effective.map messageText
  · have hshort : ¬ effective.length < manager.lastSyncCount := by
      have := hlonger hext
      omega
    simp [hchanged.mpr hext, hext, hshort]
  · have hpos : 0 < manager.lastSyncCount := Nat.pos_of_ne_zero fun hzero ↦ hext (hempty hzero)
    have hrewritten : manager.prefixChanged
        (hashRange hashSource effective) manager.lastSyncCount := by
      rw [← Bool.not_eq_false, hchanged]
      exact hext
    by_cases hshort : effective.length < manager.lastSyncCount
    · simp [hext, hshort]
    · simp [hext, hrewritten, hpos, not_lt.mp hshort]

omit [DecidableEq η] in
/-- Appending to a log of matching clones gives the clones of the longer array. -/
theorem Refines.appendNew (hext : spec.synced.map messageText <+: messages.map messageText)
    (hbaseline : spec.baseline <+: messages.map cloneMessage) :
    Refines hashSource { spec with synced := messages } (manager.appendNew messages
        (hashRange hashSource messages)) where
  log := by
    have htake : (messages.take spec.synced.length).map messageText =
        spec.synced.map messageText := by
      rw [map_take]
      simpa using (prefix_iff_eq_take.mp hext).symm
    have hclones := map_cloneMessage_eq_of_map_messageText_eq htake
    have hlog := h.log
    rw [logMessages] at hlog
    rw [logMessages, AppendOnlyContextManager.appendNew, map_append,
      map_message_freshClones, hlog, h.count, ← hclones,
      ← map_append, take_append_drop]
  count := rfl
  hashes := rfl
  seeded := h.seeded
  baseline := hbaseline

/-- One sync installs the effective messages. -/
theorem Refines.syncMessages (hinj : Injective hashSource) (messages : List Message) :
    Refines hashSource (spec.step (.syncMessages messages))
      (manager.syncMessages hashSource messages) := by
  have hbaseline := baseline_prefix_effectiveMessages
    (map_cloneMessage_of_isPrefix h.baseline) messages
  rw [h.syncMessages_eq hinj rfl, SyncSpec.step]
  split_ifs with hext hseeded
  · exact h.appendNew hext hbaseline
  · exact ⟨map_message_freshClones _ _, rfl, rfl, h.seeded, hbaseline⟩
  · exact ⟨map_message_freshClones _ _, rfl, rfl, h.seeded, hbaseline⟩

omit [DecidableEq η] in
theorem Refines.seedNormalizedMessages (messages : List Message) (reset : Bool) :
    Refines hashSource (spec.step (.seedNormalizedMessages messages reset))
      ((manager.seedNormalizedMessages hashSource messages reset).getD manager) := by
  have hents : manager.entries.length = spec.synced.length := by
    simpa [logMessages] using congrArg length h.log
  rw [AppendOnlyContextManager.seedNormalizedMessages, SyncSpec.step, hents]
  split_ifs with hthrow
  · exact h
  · have hclones := map_message_freshClones manager.nextAllocation messages
    have hfixed : (messages.map cloneMessage).map cloneMessage = messages.map cloneMessage :=
      map_cloneMessage_of_isPrefix (prefix_refl _)
    rw [Option.getD_some]
    refine ⟨?_, ?_, ?_, ?_, ?_⟩
    · rw [hfixed]
      exact hclones
    · simp [length_freshClones]
    · rw [hclones]
    · simp [length_freshClones]
    · rw [hfixed]

omit [DecidableEq η] in
theorem Refines.releaseAfterHistoryRewrite (preserve : Bool) :
    Refines hashSource (spec.step (.releaseAfterHistoryRewrite preserve))
      (manager.releaseAfterHistoryRewrite hashSource preserve) := by
  cases preserve with
  | false => exact ⟨rfl, rfl, rfl, rfl, prefix_refl []⟩
  | true =>
    have hkept : (if manager.seededPrefixCount > 0 then
        manager.entries.take manager.seededPrefixCount else []) =
          manager.entries.take manager.seededPrefixCount := by
      split_ifs with hseeded
      · rfl
      · rw [Nat.eq_zero_of_not_pos hseeded, take_zero]
    have hbaseline : (manager.entries.take manager.seededPrefixCount).map LogEntry.message =
        spec.baseline := by
      rw [map_take]
      exact h.take_logMessages
    have hlength := congrArg length hbaseline
    rw [length_map] at hlength
    have hfixed := map_cloneMessage_of_isPrefix h.baseline
    rw [AppendOnlyContextManager.releaseAfterHistoryRewrite, SyncSpec.step]
    simp only [if_true, hkept]
    refine ⟨?_, hlength, ?_, hlength, ?_⟩
    · rw [hfixed]
      exact hbaseline
    · rw [← hbaseline]
      rfl
    · rw [hfixed]

/-- Every operation keeps the manager in step with the specification. -/
theorem Refines.step (hinj : Injective hashSource) (operation : Operation) :
    Refines hashSource (spec.step operation) (step hashSource manager operation) := by
  cases operation with
  | syncMessages messages => exact h.syncMessages hinj messages
  | seedNormalizedMessages messages reset => exact h.seedNormalizedMessages messages reset
  | reset | resetSyncCursor | invalidateForModelChange =>
    exact ⟨rfl, rfl, rfl, rfl, prefix_refl []⟩
  | releaseAfterHistoryRewrite preserve => exact h.releaseAfterHistoryRewrite preserve
  | invalidate => exact ⟨h.log, h.count, h.hashes, h.seeded, h.baseline⟩

end

/-- Every run keeps the manager in step with the specification. -/
theorem refines_run (hinj : Injective hashSource) (operations : List Operation) :
    Refines hashSource (SyncSpec.run operations) (run hashSource operations) := by
  induction operations using reverseRecOn with
  | nil => exact refines_new
  | append_singleton front operation ih =>
    rw [SyncSpec.run, run, foldl_append, foldl_append]
    exact ih.step hinj operation

end

theorem startsWith_iff_isPrefix (baseline messages : List Message) :
    StartsWith baseline messages ↔ baseline.map messageText <+: messages.map messageText := by
  rw [StartsWith, prefix_iff_eq_take, length_map, map_take, eq_comm]

/-- An array that extends the previous one extends it after the baseline is accounted for, unless
only the longer one is taken for the whole history. -/
theorem effectiveMessages_prefix {first second : List Message}
    (hext : first.map messageText <+: second.map messageText)
    (hsame : first = [] ∨ (StartsWith baseline second → StartsWith baseline first)) :
    (effectiveMessages baseline first).map messageText <+:
      (effectiveMessages baseline second).map messageText := by
  have hstarts : StartsWith baseline first → StartsWith baseline second := by
    rw [startsWith_iff_isPrefix, startsWith_iff_isPrefix]
    exact fun h ↦ h.trans hext
  unfold effectiveMessages
  by_cases hfirst : StartsWith baseline first
  · rw [if_pos hfirst, if_pos (hstarts hfirst)]
    exact hext
  · rw [if_neg hfirst]
    by_cases hsecond : StartsWith baseline second
    · rcases hsame with hempty | hsame
      · rw [if_pos hsecond, hempty, append_nil]
        exact (startsWith_iff_isPrefix baseline second).mp hsecond
      · exact absurd (hsame hsecond) hfirst
    · rw [if_neg hsecond, map_append, map_append]
      exact (prefix_append_right_inj _).mpr hext

section

variable {η : Type*} [DecidableEq η] (hashSource : JsString → η) (operations : List Operation)

/-- The manager after a run, a sync, and any number of invalidations of the prefix. -/
def runThenSync (messages : List Message) (invalidations : ℕ) : AppendOnlyContextManager η :=
  run hashSource (operations ++ .syncMessages messages :: List.replicate invalidations .invalidate)

theorem foldl_replicate_invalidate (spec : SyncSpec) (manager : AppendOnlyContextManager η)
    (invalidations : ℕ) :
    (replicate invalidations Operation.invalidate).foldl SyncSpec.step spec = spec ∧
      ((replicate invalidations Operation.invalidate).foldl (step hashSource) manager).entries =
        manager.entries := by
  induction invalidations generalizing manager with
  | zero => exact ⟨rfl, rfl⟩
  | succ invalidations ih => exact ⟨(ih manager).1, (ih manager.invalidate).2⟩

theorem entries_runThenSync (messages : List Message) (invalidations : ℕ) :
    (runThenSync hashSource operations messages invalidations).entries =
      ((run hashSource operations).syncMessages hashSource messages).entries := by
  rw [runThenSync, run, foldl_append, foldl_cons]
  exact (foldl_replicate_invalidate hashSource .new _ _).2

/-- Right after a sync in any run, the log holds the clones of the effective messages and all
counts agree. A following sync keeps the entries of the log whenever the effective messages extend
each other; for the arrays themselves this is so unless a longer array that starts with the baseline
follows a nonempty one that does not. -/
theorem syncMessages_log_eq_effectiveMessages (hinj : Injective hashSource)
    (operations : List Operation) (messages : List Message) :
    let baseline := (SyncSpec.run operations).baseline
    let synced := (run hashSource operations).syncMessages hashSource messages
    (synced.logMessages = (effectiveMessages baseline messages).map cloneMessage ∧
      synced.entries.length = synced.lastSyncCount ∧
      synced.lastSyncCount = synced.syncedHashes.length) ∧
    ∀ (invalidations : ℕ) (next : List Message),
      ((effectiveMessages baseline messages).map messageText <+:
          (effectiveMessages baseline next).map messageText ∨
        (messages.map messageText <+: next.map messageText ∧
          (messages = [] ∨ (StartsWith baseline next → StartsWith baseline messages)))) →
        synced.entries <+: ((runThenSync hashSource operations messages invalidations).syncMessages
          hashSource next).entries := by
  have hrefines := (refines_run hinj operations).syncMessages hinj messages
  refine ⟨⟨hrefines.log, ?_, ?_⟩, fun invalidations next hnext ↦ ?_⟩
  · rw [hrefines.count]
    simpa [AppendOnlyContextManager.logMessages] using congrArg length hrefines.log
  · rw [hrefines.count, hrefines.hashes, AppendOnlyContextManager.hashRange, length_map]
  · have hextends : (effectiveMessages (SyncSpec.run operations).baseline messages).map messageText <+:
        (effectiveMessages (SyncSpec.run operations).baseline next).map messageText := by
      rcases hnext with heffective | ⟨harray, hsame⟩
      · exact heffective
      · exact effectiveMessages_prefix harray hsame
    have hlater := refines_run hinj (operations ++ .syncMessages messages ::
      replicate invalidations .invalidate)
    rw [SyncSpec.run, foldl_append, foldl_cons,
      (foldl_replicate_invalidate id _ (.new : AppendOnlyContextManager JsString) _).1] at hlater
    rw [← entries_runThenSync hashSource operations messages invalidations, runThenSync,
      (hlater.syncMessages_eq hinj rfl).trans (if_pos hextends), AppendOnlyContextManager.appendNew]
    exact prefix_append _ _

end

/-- A message that only says who speaks. -/
def spoken (role : String) : Message := [(utf16 "role", .str (utf16 role))]

theorem syncMessages_log_child_messages :
    ((run id [.seedNormalizedMessages [spoken "user", spoken "assistant"] false]).syncMessages id
        [spoken "tool"]).logMessages = [spoken "user", spoken "assistant", spoken "tool"] :=
  (syncMessages_log_eq_effectiveMessages id injective_id
    [.seedNormalizedMessages [spoken "user", spoken "assistant"] false] [spoken "tool"]).1.1.trans
    (by decide)

/-- After seeding two messages, syncing the first and then both of them extends the synced array
but rewrites the log. -/
theorem syncMessages_completed_baseline_rewrites :
    [spoken "user"].map messageText <+: [spoken "user", spoken "assistant"].map messageText ∧
      ¬ ((run id [.seedNormalizedMessages [spoken "user", spoken "assistant"] false,
          .syncMessages [spoken "user"]]).entries <+:
        (run id [.seedNormalizedMessages [spoken "user", spoken "assistant"] false,
          .syncMessages [spoken "user"],
          .syncMessages [spoken "user", spoken "assistant"]]).entries) := by
  decide

end GajaeCode.Agent.AppendOnly
