import GajaeCode.Session.DictionaryCommit

/-!
# The bounded dictionary artifact builder

Records are added one at a time. Each becomes one line in the buffer of its hash partition, and
a buffer that grows beyond its cap is moved through a journal of bounded size to the flush
target. A flush takes the leading lines that fit the journal and leaves the others buffered.
While no flush fails, every line added so far was written or is still buffered, in order.
-/

namespace GajaeCode.Session

open Json Text List Function

variable {partition : ℕ} {lines : List (ℕ × JsString)}

/-- A byte limit of the options; `NaN` and `Infinity` are limits that nothing exceeds. -/
inductive ByteCap
  | bytes (limit : ℤ)
  | unbounded
  deriving DecidableEq

/-- `count > cap` -/
def ByteCap.exceededBy (count : ℤ) : ByteCap → Bool
  | bytes limit => limit < count
  | unbounded => false

inductive Detection
  | added
  | duplicate
  | full
  deriving DecidableEq

/-- The duplicate-id oracle of a build. -/
structure DictionaryIdDetector (δ : Type) where
  add : δ → JsString → Detection × δ

/-- Where flushed lines go. -/
structure DictionaryArtifactFlushTarget (τ : Type) where
  writePartitionLines : τ → ℕ → List JsString → Bool × τ
  getPartitionCommit : τ → ℕ → DictionaryPartitionCommit

structure DictionaryArtifactRecordInput where
  id : JsString
  ordinal : Decimal
  seq : Decimal
  byteOffset : Decimal
  byteLength : Decimal
  recordDigest : JsString
  parentId : Option JsString
  entryType : JsString

structure DictionaryArtifactBuildOptions where
  peakBudgetBytes : Option ByteCap
  partitionBufferBytes : Option ByteCap
  journalBytes : Option ByteCap
  partitionCount : Option ℕ+

/-- The limits a builder works with: its options with the defaults filled in. -/
structure BuilderLimits where
  peakBudget : ByteCap
  partitionCount : ℕ+
  partitionBufferBytes : ByteCap
  journalBytes : ByteCap

def DictionaryArtifactBuildOptions.limits (options : DictionaryArtifactBuildOptions) :
    BuilderLimits where
  peakBudget := options.peakBudgetBytes.getD (.bytes (20 * 1024 * 1024))
  partitionCount := options.partitionCount.getD ⟨dictionaryPartitionCount, by decide⟩
  partitionBufferBytes := options.partitionBufferBytes.getD (.bytes (128 * 1024))
  journalBytes := options.journalBytes.getD (.bytes (128 * 1024))

/-- One round of FNV-1a. -/
def fnvRound (hash : UInt32) (byte : ℕ) : UInt32 := (hash ^^^ UInt32.ofNat byte) * 0x01000193

def dictionaryPartitionForId (id : JsString) (partitionCount : ℕ+) : ℕ :=
  let hash := id.foldl
    (fun hash unit ↦ fnvRound (fnvRound hash (unit.toNat % 0x100)) (unit.toNat / 0x100)) 0x811C9DC5
  hash.toNat % partitionCount

/-- One line of a partition journal, under the dictionary id of its term. -/
def serializeDictionaryPartitionRecord (dictId : Decimal) (record : DictionaryArtifactRecordInput) :
    JsString :=
  valueText (.obj [(utf16 "t", .str record.id), (utf16 "i", .num dictId),
    (utf16 "o", .num record.ordinal), (utf16 "s", .num record.seq),
    (utf16 "b", .num record.byteOffset), (utf16 "l", .num record.byteLength),
    (utf16 "d", .str record.recordDigest), (utf16 "p", (record.parentId.map .str).getD .null),
    (utf16 "e", .str record.entryType)]) ++ [newlineUnit]

/-- `2 × charCount + 16 B` -/
def residentStringBytes (value : JsString) : ℤ := 2 * value.length + 16

def recordObjectOverheadBytes : ℤ := 48

def dictionaryDuplicateDiagnosticMax : ℕ := 64

/-- The fields of a builder. `writes` lists the calls of `writePartitionLines` so far. -/
structure DictionaryArtifactBuilder (δ τ : Type) where
  buffers : ℕ → List JsString
  bufferBytes : ℕ → ℤ
  journal : List JsString
  journalBytes : ℤ
  journalPartition : Option ℕ
  detector : δ
  target : Option τ
  writes : List (ℕ × List JsString)
  duplicateIds : List JsString
  duplicateIdBytes : ℤ
  uniqueTerms : ℕ
  totalTermBytes : ℕ
  recordCount : ℕ
  peakBytes : ℤ
  sidecarIneligible : Bool
  flushFailed : Bool
  finished : Bool

inductive DictionaryArtifactAddResult
  | ok
  | budgetExceeded (peakBytes : ℤ) (budgetBytes : ByteCap)
  | flushFailed
  deriving DecidableEq

structure DictionaryBuildStats where
  totalRecords : ℕ
  uniqueTerms : ℕ
  totalBytes : ℕ
  peakBytes : ℤ
  duplicateIds : List JsString
  sidecarIneligible : Bool
  deriving DecidableEq

inductive DictionaryArtifactBuildResult
  | ok (commit : DictionaryArtifactCommit) (stats : DictionaryBuildStats)
  | budgetExceeded (peakBytes : ℤ) (budgetBytes : ByteCap)
  | flushFailed
  deriving DecidableEq

namespace DictionaryArtifactBuilder

variable {δ τ : Type} (detector : DictionaryIdDetector δ) (target : DictionaryArtifactFlushTarget τ)
  (limits : BuilderLimits) (builder : DictionaryArtifactBuilder δ τ)

/-- A new builder. -/
def initial (detectorState : δ) (targetState : Option τ) : DictionaryArtifactBuilder δ τ where
  buffers := fun _ ↦ []
  bufferBytes := fun _ ↦ 0
  journal := []
  journalBytes := 0
  journalPartition := none
  detector := detectorState
  target := targetState
  writes := []
  duplicateIds := []
  duplicateIdBytes := 0
  uniqueTerms := 0
  totalTermBytes := 0
  recordCount := 0
  peakBytes := 0
  sidecarIneligible := false
  flushFailed := false
  finished := false

def updatePeak : DictionaryArtifactBuilder δ τ :=
  let current := ((List.range limits.partitionCount).map builder.bufferBytes).sum +
    builder.journalBytes + builder.duplicateIdBytes
  { builder with peakBytes := max builder.peakBytes current }

def flushJournal :
    Bool × DictionaryArtifactBuilder δ τ :=
  if builder.journal = [] then (true, builder)
  else
    match builder.journalPartition with
    | none => (true, builder)
    | some partition =>
        let drained := { builder with journal := [], journalBytes := 0, journalPartition := none }
        match builder.target with
        | none => (false, { drained with flushFailed := true })
        | some state =>
            let written := target.writePartitionLines state partition builder.journal
            (written.1, { drained with
              target := some written.2
              writes := builder.writes ++ [(partition, builder.journal)]
              flushFailed := builder.flushFailed || !written.1
              peakBytes := max builder.peakBytes builder.journalBytes })

/-- How many leading lines fit the journal, and their bytes. -/
def fittingLines (cap : ByteCap) : List JsString → ℕ × ℤ → ℕ × ℤ
  | [], taken => taken
  | line :: rest, (take, takeBytes) =>
      if cap.exceededBy (takeBytes + Text.byteLength line) then (take, takeBytes)
      else fittingLines cap rest (take + 1, takeBytes + Text.byteLength line)

def flushPartition (partition : ℕ) :
    Bool × DictionaryArtifactBuilder δ τ :=
  let buffer := builder.buffers partition
  if buffer = [] then (true, builder)
  else if builder.journalPartition.isSome then (false, { builder with flushFailed := true })
  else
    let (take, takeBytes) := fittingLines limits.journalBytes buffer (0, 0)
    if take = 0 then (false, { builder with flushFailed := true })
    else
      let moved := { builder with
        buffers := Function.update builder.buffers partition (buffer.drop take)
        bufferBytes := Function.update builder.bufferBytes partition
          (builder.bufferBytes partition - takeBytes)
        journal := buffer.take take
        journalBytes := takeBytes
        journalPartition := some partition }
      let flushed := flushJournal target (updatePeak limits moved)
      (flushed.1, updatePeak limits flushed.2)

/-- The bookkeeping of a record's detection, before its line is buffered. -/
def detect (id : JsString) :
    Detection × DictionaryArtifactBuilder δ τ :=
  let detection := (detector.add builder.detector id).1
  let counted := { builder with
    detector := (detector.add builder.detector id).2
    recordCount := builder.recordCount + 1 }
  match detection with
  | .added =>
      (detection, { counted with
        uniqueTerms := builder.uniqueTerms + 1
        totalTermBytes := builder.totalTermBytes + Text.byteLength id })
  | .duplicate =>
      if builder.duplicateIds.length < dictionaryDuplicateDiagnosticMax ∧
          id ∉ builder.duplicateIds then
        (detection, { counted with
          sidecarIneligible := true
          duplicateIdBytes :=
            builder.duplicateIdBytes + (residentStringBytes id + recordObjectOverheadBytes)
          duplicateIds := builder.duplicateIds ++ [id] })
      else (detection, { counted with sidecarIneligible := true })
  | .full => (detection, { counted with sidecarIneligible := true })

/-- The dictionary id of a record: its index among the added terms, or `-1`. -/
def dictIdOf (detection : Detection) (uniqueTerms : ℕ) : Decimal :=
  match detection with
  | .added => .ofNat (uniqueTerms - 1)
  | _ => .ofParts true 1 0

/-- The builder with the line of a record at the end of its partition's buffer. -/
def bufferRecord (record : DictionaryArtifactRecordInput) :
    DictionaryArtifactBuilder δ τ :=
  let partition := dictionaryPartitionForId record.id limits.partitionCount
  let (detection, detected) := detect detector builder record.id
  let line := serializeDictionaryPartitionRecord (dictIdOf detection detected.uniqueTerms) record
  updatePeak limits { detected with
    buffers := Function.update detected.buffers partition (detected.buffers partition ++ [line])
    bufferBytes := Function.update detected.bufferBytes partition
      (detected.bufferBytes partition + Text.byteLength line) }

/-- Consumes one record; `none` is the exception of a finished builder. -/
def add (record : DictionaryArtifactRecordInput) :
    Option (DictionaryArtifactAddResult × DictionaryArtifactBuilder δ τ) :=
  if builder.finished then none
  else
    let partition := dictionaryPartitionForId record.id limits.partitionCount
    let pushed := bufferRecord detector limits builder record
    if limits.peakBudget.exceededBy pushed.peakBytes then
      some (.budgetExceeded pushed.peakBytes limits.peakBudget, pushed)
    else if limits.partitionBufferBytes.exceededBy (pushed.bufferBytes partition) then
      let flushed := flushPartition target limits pushed partition
      if flushed.1 then some (.ok, flushed.2) else some (.flushFailed, flushed.2)
    else some (.ok, pushed)

/-- Flushes the nonempty buffers of the given partitions, up to the first failure. -/
def flushAll : List ℕ → DictionaryArtifactBuilder δ τ → Bool × DictionaryArtifactBuilder δ τ
  | [], builder => (true, builder)
  | partition :: rest, builder =>
      if 0 < builder.bufferBytes partition then
        let flushed := flushPartition target limits builder partition
        if flushed.1 then flushAll rest flushed.2 else (false, flushed.2)
      else flushAll rest builder

/-- Flushes every buffer and returns the commit; `none` is the exception of a second call. -/
def finish (sessionId indexDigest : JsString) :
    Option (DictionaryArtifactBuildResult × DictionaryArtifactBuilder δ τ) :=
  if builder.finished then none
  else
    let partitions := List.range limits.partitionCount
    let (flushed, last) := flushAll target limits partitions { builder with finished := true }
    if !flushed || last.flushFailed then some (.flushFailed, last)
    else if limits.peakBudget.exceededBy last.peakBytes then
      some (.budgetExceeded last.peakBytes limits.peakBudget, last)
    else
      match last.target with
      | none => some (.flushFailed, last)
      | some state =>
          let commit : DictionaryArtifactCommit :=
            { header := { sessionId, sidecarIneligible := last.sidecarIneligible }
              indexDigest
              partitions := partitions.map (target.getPartitionCommit state)
              metaSize := 0
              metaDigest := []
              recordCount := .ofNat last.recordCount
              uniqueTerms := .ofNat last.uniqueTerms
              totalBytes := .ofNat last.totalTermBytes
              duplicateIds := last.duplicateIds
              sidecarIneligible := last.sidecarIneligible }
          let stats : DictionaryBuildStats :=
            { totalRecords := last.recordCount
              uniqueTerms := last.uniqueTerms
              totalBytes := last.totalTermBytes
              peakBytes := last.peakBytes
              duplicateIds := last.duplicateIds
              sidecarIneligible := last.sidecarIneligible }
          some (.ok commit stats, { last with
            journal := []
            journalBytes := 0
            journalPartition := none
            buffers := fun _ ↦ []
            bufferBytes := fun _ ↦ 0 })

/-- Adds records one after the other, whatever each call answers. -/
def addAll : List DictionaryArtifactRecordInput → DictionaryArtifactBuilder δ τ →
    Option (DictionaryArtifactBuilder δ τ)
  | [], builder => some builder
  | record :: rest, builder =>
      (add detector target limits builder record).bind fun added ↦ addAll rest added.2

/-! ## What reaches the target -/

/-- The lines of all records in the order they are added, each with its partition. -/
def serializedLines : δ → ℕ → List DictionaryArtifactRecordInput → List (ℕ × JsString)
  | _, _, [] => []
  | state, uniqueTerms, record :: rest =>
      let (detection, state') := detector.add state record.id
      let uniqueTerms' := if detection = .added then uniqueTerms + 1 else uniqueTerms
      (dictionaryPartitionForId record.id limits.partitionCount,
        serializeDictionaryPartitionRecord (dictIdOf detection uniqueTerms') record) ::
          serializedLines state' uniqueTerms' rest

/-- The lines of one partition. -/
def linesIn (lines : List (ℕ × JsString)) (partition : ℕ) : List JsString :=
  (lines.filter (·.1 = partition)).map Prod.snd

/-- The concatenation of the lines written to one partition. -/
def writtenTo (partition : ℕ) : List JsString :=
  (builder.writes.filter (·.1 = partition)).flatMap Prod.snd

/-- The bytes of a list of lines. -/
def linesBytes (lines : List JsString) : ℤ := (lines.map fun line ↦ (byteLength line : ℤ)).sum

theorem linesBytes_nonneg (lines : List JsString) : 0 ≤ linesBytes lines := by
  induction lines with
  | nil => exact le_refl _
  | cons line rest ih => exact add_nonneg (Int.natCast_nonneg _) ih

theorem linesBytes_append (left right : List JsString) :
    linesBytes (left ++ right) = linesBytes left + linesBytes right := by
  simp [linesBytes]

theorem exceededBy_mono {cap : ByteCap} {small large : ℤ} (hle : small ≤ large)
    (h : cap.exceededBy large = false) : cap.exceededBy small = false := by
  cases cap with
  | unbounded => rfl
  | bytes =>
    simp only [ByteCap.exceededBy, decide_eq_false_iff_not] at h ⊢
    omega

/-- The loop takes the longest prefix of lines whose bytes fit. -/
theorem fittingLines_spec (cap : ByteCap) (lines : List JsString) (take : ℕ) (takeBytes : ℤ) :
    ∃ count, fittingLines cap lines (take, takeBytes) =
        (take + count, takeBytes + linesBytes (lines.take count)) ∧
      ∀ size ≤ lines.length, (size ≤ count ↔
        size = 0 ∨ cap.exceededBy (takeBytes + linesBytes (lines.take size)) = false) := by
  induction lines generalizing take takeBytes with
  | nil =>
    refine ⟨0, by simp [fittingLines, linesBytes], fun size hsize ↦ ?_⟩
    have hzero : size = 0 := Nat.le_zero.mp hsize
    simp [hzero]
  | cons line rest ih =>
    have htotal (front) :
        linesBytes (line :: front) = byteLength line + linesBytes front := rfl
    rw [fittingLines]
    split_ifs with hover
    · refine ⟨0, by simp [linesBytes], fun size hsize ↦ ?_⟩
      cases size with
      | zero => simp
      | succ size =>
        have hsmall : takeBytes + (byteLength line : ℤ) ≤
            takeBytes + (byteLength line + linesBytes (rest.take size)) := by
          have := linesBytes_nonneg (rest.take size)
          omega
        have hlarge : cap.exceededBy (takeBytes + (byteLength line + linesBytes (rest.take size))) ≠
            false := by
          intro hfits
          rw [exceededBy_mono hsmall hfits] at hover
          cases hover
        simp [htotal, hlarge]
    · obtain ⟨count, hres, hsizes⟩ := ih (take + 1) (takeBytes + byteLength line)
      refine ⟨count + 1, ?_, fun size hsize ↦ ?_⟩
      · rw [hres, take_succ_cons, htotal]
        exact Prod.ext (by dsimp only; omega) (by dsimp only; omega)
      · cases size with
        | zero => simp
        | succ size =>
          rw [length_cons] at hsize
          rw [add_le_add_iff_right, hsizes size (by omega), take_succ_cons, htotal, ← add_assoc]
          cases size with
          | zero => simpa [linesBytes] using hover
          | succ => simp

/-- Nothing waits in the journal between two calls. -/
def JournalIdle : Prop := builder.journalPartition = none

/-- Every line added so far was written or is buffered, in order. -/
structure Accounts (lines : List (ℕ × JsString)) : Prop where
  bytes (partition : ℕ) : builder.bufferBytes partition = linesBytes (builder.buffers partition)
  kept (partition : ℕ) :
    writtenTo builder partition ++ builder.buffers partition = linesIn lines partition

variable {builder}

/-- What a successful flush of one partition does. -/
structure Flushed (before after : DictionaryArtifactBuilder δ τ) (partition count : ℕ) :
    Prop where
  buffers : after.buffers =
    Function.update before.buffers partition ((before.buffers partition).drop count)
  bufferBytes : after.bufferBytes = Function.update before.bufferBytes partition
    (before.bufferBytes partition - linesBytes ((before.buffers partition).take count))
  written (other : ℕ) : writtenTo after other = writtenTo before other ++
    if other = partition then (before.buffers partition).take count else []
  detector : after.detector = before.detector
  uniqueTerms : after.uniqueTerms = before.uniqueTerms
  finished : after.finished = before.finished

theorem Flushed.accounts {before after : DictionaryArtifactBuilder δ τ} {count : ℕ}
    (h : Flushed before after partition count)
    (hbefore : Accounts before lines) : Accounts after lines := by
  have hsplit := take_append_drop count (before.buffers partition)
  constructor
  · intro other
    rw [h.buffers, h.bufferBytes]
    by_cases hother : other = partition
    · subst hother
      have hbytes := hbefore.bytes other
      rw [← hsplit, linesBytes_append] at hbytes
      rw [update_self, update_self]
      omega
    · rw [update_of_ne hother, update_of_ne hother, hbefore.bytes]
  · intro other
    rw [h.buffers, h.written]
    by_cases hother : other = partition
    · subst hother
      rw [update_self, if_pos rfl, append_assoc, hsplit, hbefore.kept]
    · rw [update_of_ne hother, if_neg hother, append_nil, hbefore.kept]

theorem flushJournal_of_not_failed
    (hlines : builder.journal ≠ []) (hpart : builder.journalPartition = some partition)
    (h : (flushJournal target builder).2.flushFailed = false) :
    let after := (flushJournal target builder).2
    (flushJournal target builder).1 ∧ builder.flushFailed = false ∧
      after.writes = builder.writes ++ [(partition, builder.journal)] ∧ after.buffers = builder.buffers ∧
      after.bufferBytes = builder.bufferBytes ∧ after.detector = builder.detector ∧
      after.uniqueTerms = builder.uniqueTerms ∧ after.finished = builder.finished := by
  unfold flushJournal at h ⊢
  rw [if_neg hlines, hpart] at h ⊢
  cases htarget : builder.target with
  | none => simp [htarget] at h
  | some =>
    rw [htarget] at h
    simp only [Bool.or_eq_false_iff, Bool.not_eq_false'] at h
    exact ⟨h.2, h.1, rfl, rfl, rfl, rfl, rfl, rfl⟩

/-- Flushing the journal empties it. -/
theorem flushJournal_frame (builder : DictionaryArtifactBuilder δ τ) :
    let after := (flushJournal target builder).2
    after.finished = builder.finished ∧ (builder.journal ≠ [] → JournalIdle after) := by
  unfold flushJournal
  split_ifs with hlines
  · simp [hlines]
  · cases hpart : builder.journalPartition with
    | none => simp [JournalIdle, hpart]
    | some => cases builder.target <;> simp [JournalIdle]

theorem flushPartition_frame (hidle : JournalIdle builder) (partition : ℕ) :
    let after := (flushPartition target limits builder partition).2
    JournalIdle after ∧ after.finished = builder.finished := by
  unfold flushPartition
  dsimp only
  split_ifs with hbuffer hsome htake
  · exact ⟨hidle, rfl⟩
  · exact ⟨hidle, rfl⟩
  · exact ⟨hidle, rfl⟩
  · obtain ⟨hfin, hempty⟩ := flushJournal_frame target (updatePeak limits _)
    exact ⟨hempty (by simp [updatePeak, htake, hbuffer]), hfin⟩

/-- A flush that does not fail moves the longest prefix of the buffer that fits the journal. -/
theorem flushPartition_of_not_failed
    (h : (flushPartition target limits builder partition).2.flushFailed = false) :
    (flushPartition target limits builder partition).1 ∧ builder.flushFailed = false ∧
      ∃ count, Flushed builder (flushPartition target limits builder partition).2 partition count ∧
        ∀ size ≤ (builder.buffers partition).length, (size ≤ count ↔ size = 0 ∨
          limits.journalBytes.exceededBy (linesBytes ((builder.buffers partition).take size)) =
            false) := by
  obtain ⟨count, hres, hsizes⟩ :=
    fittingLines_spec limits.journalBytes (builder.buffers partition) 0 0
  rw [zero_add, zero_add] at hres
  simp only [zero_add] at hsizes
  unfold flushPartition at h ⊢
  dsimp only at h ⊢
  rw [hres] at h ⊢
  split_ifs at h ⊢ with hbuffer hsome htake
  · refine ⟨rfl, h, count, ?_, hsizes⟩
    constructor <;> simp [hbuffer, linesBytes]
  · -- the lines taken wait in the journal of this call only
    have hlines : (builder.buffers partition).take count ≠ [] := by
      simp [hbuffer, htake]
    obtain ⟨hok, hbefore, hwrites, hbuffers, hbytes, hdetector, hunique, hfin⟩ :=
      flushJournal_of_not_failed target hlines rfl h
    refine ⟨hok, hbefore, count, ?_, hsizes⟩
    refine ⟨hbuffers, hbytes, fun other ↦ ?_, hdetector, hunique, hfin⟩
    unfold writtenTo
    rw [show (updatePeak limits (flushJournal target _).2).writes = _ from hwrites]
    by_cases hother : other = partition
    · simp [updatePeak, hother]
    · simp [updatePeak, hother, Ne.symm hother]

/-! ## Adding records -/

/-- What buffering a line changes. -/
structure Buffered (before after : DictionaryArtifactBuilder δ τ) (partition : ℕ)
    (line : JsString) : Prop where
  buffers : after.buffers =
    Function.update before.buffers partition (before.buffers partition ++ [line])
  bufferBytes : after.bufferBytes =
    Function.update before.bufferBytes partition (before.bufferBytes partition + byteLength line)
  writes : after.writes = before.writes
  journalPartition : after.journalPartition = before.journalPartition
  flushFailed : after.flushFailed = before.flushFailed
  finished : after.finished = before.finished
  peakBytes : before.peakBytes ≤ after.peakBytes

theorem Buffered.accounts {before after : DictionaryArtifactBuilder δ τ}
    {line : JsString} (h : Buffered before after partition line)
    (hbefore : Accounts before lines) : Accounts after (lines ++ [(partition, line)]) := by
  have hwritten (other) : writtenTo after other = writtenTo before other := by
    rw [writtenTo, h.writes, writtenTo]
  constructor
  · intro other
    rw [h.buffers, h.bufferBytes]
    by_cases hother : other = partition
    · subst hother
      rw [update_self, update_self, linesBytes_append, hbefore.bytes]
      simp [linesBytes]
    · rw [update_of_ne hother, update_of_ne hother, hbefore.bytes]
  · intro other
    have hkept := hbefore.kept other
    rw [hwritten, h.buffers]
    unfold linesIn at hkept ⊢
    by_cases hother : other = partition
    · subst hother
      rw [update_self, ← append_assoc, hkept]
      simp
    · rw [update_of_ne hother, hkept]
      simp [Ne.symm hother]

theorem detect_frame (builder : DictionaryArtifactBuilder δ τ) (id : JsString) :
    let detected := (detect detector builder id).2
    (detect detector builder id).1 = (detector.add builder.detector id).1 ∧
      detected.detector = (detector.add builder.detector id).2 ∧
      detected.uniqueTerms = (if (detector.add builder.detector id).1 = .added then builder.uniqueTerms + 1
        else builder.uniqueTerms) ∧
      detected.buffers = builder.buffers ∧ detected.bufferBytes = builder.bufferBytes ∧
      detected.writes = builder.writes ∧ detected.journalPartition = builder.journalPartition ∧
      detected.flushFailed = builder.flushFailed ∧ detected.finished = builder.finished ∧
      detected.peakBytes = builder.peakBytes := by
  unfold detect
  cases (detector.add builder.detector id).1 with
  | added => simp
  | duplicate => dsimp only; split_ifs <;> simp_all
  | full => simp

/-- The line that a record becomes in this state. -/
def lineOf (builder : DictionaryArtifactBuilder δ τ) (record : DictionaryArtifactRecordInput) :
    JsString :=
  let detection := (detector.add builder.detector record.id).1
  serializeDictionaryPartitionRecord (dictIdOf detection
    (if detection = .added then builder.uniqueTerms + 1 else builder.uniqueTerms)) record

theorem bufferRecord_spec (builder : DictionaryArtifactBuilder δ τ)
    (record : DictionaryArtifactRecordInput) :
    Buffered builder (bufferRecord detector limits builder record)
        (dictionaryPartitionForId record.id limits.partitionCount) (lineOf detector builder record) ∧
      (bufferRecord detector limits builder record).detector =
        (detector.add builder.detector record.id).2 ∧
      (bufferRecord detector limits builder record).uniqueTerms =
        if (detector.add builder.detector record.id).1 = .added then builder.uniqueTerms + 1
        else builder.uniqueTerms := by
  obtain ⟨hdetection, hdetector, hunique, hbuffers, hbytes, hwrites, hjournal, hfailed, hfin,
    hpeak⟩ := detect_frame detector builder record.id
  have hline : serializeDictionaryPartitionRecord (dictIdOf (detect detector builder record.id).1
      (detect detector builder record.id).2.uniqueTerms) record = lineOf detector builder record := by
    rw [hdetection, hunique, lineOf]
  refine ⟨⟨?_, ?_, hwrites, hjournal, hfailed, hfin, ?_⟩, hdetector, hunique⟩
  · rw [← hline, ← hbuffers]
    rfl
  · rw [← hline, ← hbytes]
    rfl
  · rw [← hpeak]
    exact le_max_left _ _

/-- The state after one record when no flush failed: its line is accounted for. -/
structure Added (before after : DictionaryArtifactBuilder δ τ)
    (record : DictionaryArtifactRecordInput) : Prop where
  notFailed : before.flushFailed = false
  detector_eq : after.detector = (detector.add before.detector record.id).2
  uniqueTerms : after.uniqueTerms =
    if (detector.add before.detector record.id).1 = .added then before.uniqueTerms + 1
    else before.uniqueTerms
  accounts {lines : List (ℕ × JsString)} : Accounts before lines → Accounts after (lines ++
    [(dictionaryPartitionForId record.id limits.partitionCount, lineOf detector before record)])

theorem add_spec (hidle : JournalIdle builder)
    (hopen : builder.finished = false) (record : DictionaryArtifactRecordInput) :
    ∃ result after, add detector target limits builder record = some (result, after) ∧
      JournalIdle after ∧ after.finished = false ∧
      (after.flushFailed = false → Added detector limits builder after record) := by
  obtain ⟨hbuffered, hdetector, hunique⟩ := bufferRecord_spec detector limits builder record
  have hpushIdle : JournalIdle (bufferRecord detector limits builder record) :=
    hbuffered.journalPartition.trans hidle
  have hpushOpen := hbuffered.finished.trans hopen
  obtain ⟨hflushIdle, hflushOpen⟩ := flushPartition_frame target limits hpushIdle
    (dictionaryPartitionForId record.id limits.partitionCount)
  have hpushed (h : (bufferRecord detector limits builder record).flushFailed = false) :
      Added detector limits builder _ record :=
    ⟨hbuffered.flushFailed.symm.trans h, hdetector, hunique, hbuffered.accounts⟩
  have hflushed {after} (hafter : (flushPartition target limits (bufferRecord detector limits builder record)
      (dictionaryPartitionForId record.id limits.partitionCount)).2 = after)
      (h : after.flushFailed = false) : Added detector limits builder after record := by
    subst hafter
    obtain ⟨-, hbefore, count, hflushed, -⟩ := flushPartition_of_not_failed target limits h
    exact ⟨hbuffered.flushFailed.symm.trans hbefore, hflushed.detector.trans hdetector,
      hflushed.uniqueTerms.trans hunique,
      fun haccounts ↦ hflushed.accounts (hbuffered.accounts haccounts)⟩
  -- the line is flushed unless the budget is exceeded or the buffer is small
  unfold add
  rw [hopen, if_neg Bool.false_ne_true]
  dsimp only
  split_ifs
  · exact ⟨_, _, rfl, hpushIdle, hpushOpen, hpushed⟩
  · exact ⟨_, _, rfl, hflushIdle, hflushOpen.trans hpushOpen, hflushed rfl⟩
  · exact ⟨_, _, rfl, hflushIdle, hflushOpen.trans hpushOpen, hflushed rfl⟩
  · exact ⟨_, _, rfl, hpushIdle, hpushOpen, hpushed⟩

/-- Adding records never throws, and without a failed flush every line is accounted for. -/
theorem addAll_spec (records : List DictionaryArtifactRecordInput) (hidle : JournalIdle builder)
    (hopen : builder.finished = false) :
    ∃ after, addAll detector target limits records builder = some after ∧
      (after.flushFailed = false → builder.flushFailed = false ∧
        ∀ lines, Accounts builder lines → Accounts after
          (lines ++ serializedLines detector limits builder.detector builder.uniqueTerms records)) := by
  induction records generalizing builder with
  | nil =>
    refine ⟨builder, rfl, fun h ↦ ⟨h, fun lines haccounts ↦ ?_⟩⟩
    rwa [serializedLines, append_nil]
  | cons record rest ih =>
    obtain ⟨result, added, hadd, hidle', hopen', hadded⟩ :=
      add_spec detector target limits hidle hopen record
    obtain ⟨after, hrest, hafter⟩ := ih hidle' hopen'
    refine ⟨after, by rw [addAll, hadd, Option.bind_some, hrest], ?_⟩
    intro hfailed
    obtain ⟨haddedFailed, haccounts⟩ := hafter hfailed
    obtain ⟨hnot, hstate, hterms, hlines⟩ := hadded haddedFailed
    refine ⟨hnot, fun lines hbefore ↦ ?_⟩
    have hlast := haccounts _ (hlines hbefore)
    rw [hstate, hterms, append_assoc] at hlast
    exact hlast

end DictionaryArtifactBuilder

end GajaeCode.Session
