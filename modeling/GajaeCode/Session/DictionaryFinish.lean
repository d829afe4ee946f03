import GajaeCode.Session.DictionaryBuilder

/-!
# Completeness of a dictionary artifact

`finish` flushes every partition once and drops what is left in the buffers. A finished artifact
is therefore complete exactly when what was buffered before the call fits the journal.
-/

namespace GajaeCode.Session

open Json Text List Function Option

variable {commit : DictionaryArtifactCommit} {lines : List (ℕ × JsString)}
  {stats : DictionaryBuildStats} {indexDigest : JsString}

namespace DictionaryArtifactBuilder

variable {δ τ : Type} (detector : DictionaryIdDetector δ) (target : DictionaryArtifactFlushTarget τ)
  (limits : BuilderLimits) {builder after : DictionaryArtifactBuilder δ τ} {sessionId : JsString}

/-! ## Finishing -/

theorem linesBytes_pos {lines : List JsString} (hne : lines ≠ [])
    (hlines : ∀ line ∈ lines, line ≠ []) : 0 < linesBytes lines := by
  cases lines with
  | nil => exact absurd rfl hne
  | cons line rest =>
    have hline := (length_pos_iff.mpr (hlines line mem_cons_self)).trans_le (length_le_byteLength line)
    have hrest := linesBytes_nonneg rest
    have htotal : linesBytes (line :: rest) = byteLength line + linesBytes rest := rfl
    omega

theorem flushFailed_of_flushAll {partitions : List ℕ}
    (h : (flushAll target limits partitions builder).2.flushFailed = false) :
    builder.flushFailed = false := by
  induction partitions generalizing builder with
  | nil => exact h
  | cons first rest ih =>
    rw [flushAll] at h
    dsimp only at h
    split_ifs at h
    · exact (flushPartition_of_not_failed target limits (ih h)).2.1
    · exact (flushPartition_of_not_failed target limits h).2.1
    · exact ih h

/-- What is left in the buffers after each partition was flushed once. -/
theorem flushAll_spec (hlines : ∀ entry ∈ lines, entry.2 ≠ [])
    {partitions : List ℕ} (hnodup : partitions.Nodup) (haccounts : Accounts builder lines)
    (hfailed : (flushAll target limits partitions builder).2.flushFailed = false) :
    Accounts (flushAll target limits partitions builder).2 lines ∧
      ∀ part, (flushAll target limits partitions builder).2.buffers part = [] ↔
        builder.buffers part = [] ∨ part ∈ partitions ∧
          limits.journalBytes.exceededBy (builder.bufferBytes part) = false := by
  induction partitions generalizing builder with
  | nil => exact ⟨haccounts, by simp [flushAll]⟩
  | cons first rest ih =>
    rw [nodup_cons] at hnodup
    rw [flushAll] at hfailed ⊢
    dsimp only at hfailed ⊢
    split_ifs at hfailed ⊢ with hpositive hok
    · -- the buffer is flushed and the others follow
      obtain ⟨-, -, count, hflushed, hsizes⟩ :=
        flushPartition_of_not_failed target limits (flushFailed_of_flushAll target limits hfailed)
      obtain ⟨hafter, hrest⟩ := ih hnodup.2 (hflushed.accounts haccounts) hfailed
      refine ⟨hafter, fun part ↦ ?_⟩
      rw [hrest, hflushed.buffers, hflushed.bufferBytes]
      by_cases hpart : part = first
      · have hall := hsizes _ (le_refl _)
        rw [take_length, length_eq_zero_iff] at hall
        subst hpart
        simp [hnodup.1, haccounts.bytes, ← hall]
      · simp [hpart]
    · exact absurd (flushPartition_of_not_failed target limits hfailed).1 hok
    · -- an empty buffer is skipped
      have hempty : builder.buffers first = [] := by
        by_contra hne
        have hpos := linesBytes_pos hne fun line hline ↦ by
          have hmem : line ∈ linesIn lines first := by
            rw [← haccounts.kept]
            exact mem_append_right _ hline
          obtain ⟨entry, hentry, rfl⟩ := mem_map.mp hmem
          exact hlines entry (mem_of_mem_filter hentry)
        rw [← haccounts.bytes] at hpos
        exact hpositive hpos
      obtain ⟨hafter, hrest⟩ := ih hnodup.2 haccounts hfailed
      refine ⟨hafter, fun part ↦ ?_⟩
      rw [hrest]
      by_cases hpart : part = first <;> simp [hpart, hempty]

theorem serializedLines_ne_nil (records : List DictionaryArtifactRecordInput) (state : δ)
    (uniqueTerms : ℕ) :
    ∀ entry ∈ serializedLines detector limits state uniqueTerms records, entry.2 ≠ [] := by
  induction records generalizing state uniqueTerms with
  | nil => simp [serializedLines]
  | cons record rest ih =>
    intro entry hentry
    rcases mem_cons.mp hentry with rfl | hentry
    · simp [serializeDictionaryPartitionRecord]
    · exact ih _ _ entry hentry

/-- An answer `ok` comes from flushes that all succeeded, and leaves the writes as they are. -/
theorem finish_ok
    (h : finish target limits builder sessionId indexDigest = some (.ok commit stats, after)) :
    (flushAll target limits (range limits.partitionCount)
        { builder with finished := true }).2.flushFailed = false ∧
      after.writes = (flushAll target limits (range limits.partitionCount)
        { builder with finished := true }).2.writes := by
  unfold finish at h
  dsimp only at h
  split_ifs at h with hfin hfailed hbudget
  · simp at h
  · simp at h
  · simp only [Bool.or_eq_true, not_or, Bool.not_eq_true] at hfailed
    cases htarget : (flushAll target limits (range limits.partitionCount)
        { builder with finished := true }).2.target with
    | none => simp [htarget] at h
    | some state =>
      rw [htarget] at h
      simp only [some.injEq, Prod.mk.injEq] at h
      exact ⟨hfailed.2, h.2 ▸ rfl⟩

/-- What one partition has received when `finish` answers `ok`. -/
theorem writtenTo_finish {records : List DictionaryArtifactRecordInput} {detectorState : δ}
    {targetState : Option τ}
    (hadd : addAll detector target limits records (initial detectorState targetState) = some builder)
    (hfinish : finish target limits builder sessionId indexDigest = some (.ok commit stats, after))
    {part : ℕ} (hpart : part < (limits.partitionCount : ℕ)) :
    writtenTo after part = linesIn (serializedLines detector limits detectorState 0 records) part ↔
      builder.buffers part = [] ∨
        limits.journalBytes.exceededBy (builder.bufferBytes part) = false := by
  obtain ⟨hfailed, hwrites⟩ := finish_ok target limits hfinish
  obtain ⟨last, hlast, hrun⟩ := addAll_spec detector target limits records
    (rfl : JournalIdle (initial detectorState targetState)) rfl
  obtain rfl : builder = last := some.inj (hadd.symm.trans hlast)
  have hnot := flushFailed_of_flushAll target limits hfailed
  have haccounts := (hrun hnot).2 [] ⟨fun _ ↦ rfl, fun _ ↦ rfl⟩
  have hclosed : Accounts { builder with finished := true }
      (serializedLines detector limits detectorState 0 records) :=
    ⟨haccounts.bytes, haccounts.kept⟩
  obtain ⟨hafter, hempty⟩ := flushAll_spec target limits
    (serializedLines_ne_nil detector limits records detectorState 0) nodup_range
    hclosed hfailed
  have hwritten : writtenTo after part =
      linesIn (serializedLines detector limits detectorState 0 records) part ↔
      (flushAll target limits (range limits.partitionCount)
        { builder with finished := true }).2.buffers part = [] := by
    rw [← hafter.kept part, writtenTo, hwrites]
    exact self_eq_append_right
  rw [hwritten, hempty, mem_range]
  exact or_congr_right (and_iff_right hpart)

/-- When `finish` answers `ok`, every partition received the lines of all its records exactly
when what was still buffered before the call fits the journal. -/
theorem finish_complete_iff {options : DictionaryArtifactBuildOptions}
    {records : List DictionaryArtifactRecordInput} {detectorState : δ} {targetState : Option τ}
    {builder after : DictionaryArtifactBuilder δ τ} {sessionId indexDigest : JsString}
    {commit : DictionaryArtifactCommit} {stats : DictionaryBuildStats}
    (hadd : addAll detector target options.limits records (initial detectorState targetState) =
      some builder)
    (hfinish : finish target options.limits builder sessionId indexDigest =
      some (.ok commit stats, after)) :
    (∀ partition < (options.limits.partitionCount : ℕ), writtenTo after partition =
      linesIn (serializedLines detector options.limits detectorState 0 records) partition) ↔
    ∀ partition < (options.limits.partitionCount : ℕ), builder.buffers partition = [] ∨
      options.limits.journalBytes.exceededBy (builder.bufferBytes partition) = false :=
  forall₂_congr fun _ hpartition ↦
    writtenTo_finish detector target options.limits hadd hfinish hpartition

/-- A detector that never sees a duplicate. -/
def freshIds : DictionaryIdDetector Unit := ⟨fun _ _ ↦ (.added, ())⟩

/-- A target that accepts every write. -/
def acceptingTarget : DictionaryArtifactFlushTarget Unit where
  writePartitionLines := fun _ _ _ ↦ (true, ())
  getPartitionCommit := fun _ _ ↦
    { size := .zero, digest := List.replicate 64 0x30, records := .zero, complete := true }

/-- A root record with the given id. -/
def rootRecord (id : JsString) : DictionaryArtifactRecordInput where
  id := id
  ordinal := .zero
  seq := .zero
  byteOffset := .zero
  byteLength := .ofNat 1
  recordDigest := List.replicate 64 0x30
  parentId := none
  entryType := utf16 "message"

/-- One partition with the default buffer, and a journal of the given size. -/
def journalOptions (journalBytes : ℤ) : DictionaryArtifactBuildOptions where
  peakBudgetBytes := none
  partitionBufferBytes := none
  journalBytes := some (.bytes journalBytes)
  partitionCount := some 1

def isOk : DictionaryArtifactBuildResult → Bool
  | .ok _ _ => true
  | _ => false

/-- Adds two records and finishes; whether the answer is `ok`, and what partition 0 received. -/
def twoRecordBuild (journalBytes : ℤ) : Option (Bool × List JsString) :=
  let limits := (journalOptions journalBytes).limits
  (addAll freshIds acceptingTarget limits [rootRecord (utf16 "a"), rootRecord (utf16 "b")]
    (initial () (some ()))).bind fun builder ↦
      (finish acceptingTarget limits builder (utf16 "s") (List.replicate 64 0x30)).map fun result ↦
        (isOk result.1, writtenTo result.2 0)

/-- A journal that holds one of two lines: `finish` answers `ok` and the second line is lost. -/
theorem small_journal_loses_line : (twoRecordBuild 200).map Prod.fst = some true ∧
      (twoRecordBuild 200).map Prod.snd ≠ some (linesIn (serializedLines freshIds
        (journalOptions 200).limits () 0 [rootRecord (utf16 "a"), rootRecord (utf16 "b")]) 0) := by
  decide +kernel

/-- A journal that holds both lines: the condition is met and both lines arrive. -/
theorem large_journal_keeps_lines : ∃ builder after commit stats,
      addAll freshIds acceptingTarget (journalOptions 1000).limits
        [rootRecord (utf16 "a"), rootRecord (utf16 "b")] (initial () (some ())) = some builder ∧
      finish acceptingTarget (journalOptions 1000).limits builder (utf16 "s")
        (replicate 64 0x30) = some (.ok commit stats, after) ∧
      ((∀ partition < ((journalOptions 1000).limits.partitionCount : ℕ), writtenTo after partition =
          linesIn (serializedLines freshIds (journalOptions 1000).limits () 0
            [rootRecord (utf16 "a"), rootRecord (utf16 "b")]) partition) ↔
        ∀ partition < ((journalOptions 1000).limits.partitionCount : ℕ),
          builder.buffers partition = [] ∨ (journalOptions 1000).limits.journalBytes.exceededBy
            (builder.bufferBytes partition) = false) := by
  have hrun : ((addAll freshIds acceptingTarget (journalOptions 1000).limits
      [rootRecord (utf16 "a"), rootRecord (utf16 "b")] (initial () (some ()))).bind fun builder ↦
        finish acceptingTarget (journalOptions 1000).limits builder (utf16 "s")
          (replicate 64 0x30)).any (fun done ↦ isOk done.1) = true := by
    decide +kernel
  cases hadd : addAll freshIds acceptingTarget (journalOptions 1000).limits
      [rootRecord (utf16 "a"), rootRecord (utf16 "b")] (initial () (some ())) with
  | none => simp [hadd] at hrun
  | some builder =>
    rw [hadd, bind_some] at hrun
    cases hfinish : finish acceptingTarget (journalOptions 1000).limits builder (utf16 "s")
        (replicate 64 0x30) with
    | none =>
      rw [hfinish] at hrun
      cases hrun
    | some done =>
      rw [hfinish] at hrun
      obtain ⟨result, after⟩ := done
      cases result with
      | ok commit stats =>
        exact ⟨builder, after, commit, stats, rfl, hfinish,
          finish_complete_iff freshIds acceptingTarget hadd hfinish⟩
      | budgetExceeded | flushFailed => cases hrun

end DictionaryArtifactBuilder

end GajaeCode.Session
