import GajaeCode.Json.RoundTrip
import GajaeCode.Text.Digest
import GajaeCode.Text.Lines

/-!
# The commit of a dictionary artifact

The meta file of a dictionary artifact is one line of JSON that binds every partition by size
and digest. `finalizeDictionaryArtifactCommit` writes it and returns the commit with the size
and digest of that line; `parseDictionaryArtifactCommit` reads the line back and recomputes
both. The writer measures the line in UTF-16 code units and the reader in UTF-8 bytes, so the
two agree exactly on lines of ASCII characters.
-/

namespace GajaeCode.Session

open Json Text List JsValue

/-- The header of schema version 2. -/
structure SidecarIndexHeaderV2 where
  sessionId : JsString
  sidecarIneligible : Bool
  deriving DecidableEq

structure DictionaryPartitionCommit where
  size : Decimal
  digest : JsString
  records : Decimal
  complete : Bool
  deriving DecidableEq

/-- A commit without the fields that authenticate its own bytes. -/
structure DictionaryArtifactPayload where
  header : SidecarIndexHeaderV2
  indexDigest : JsString
  partitions : List DictionaryPartitionCommit
  recordCount : Decimal
  uniqueTerms : Decimal
  totalBytes : Decimal
  duplicateIds : List JsString
  sidecarIneligible : Bool
  deriving DecidableEq

structure DictionaryArtifactCommit extends DictionaryArtifactPayload where
  metaSize : ℕ
  metaDigest : JsString
  deriving DecidableEq

/-- `DICTIONARY_PARTITION_COUNT` -/
def dictionaryPartitionCount : ℕ := 4

/-! ## Writing -/

def headerValue (header : SidecarIndexHeaderV2) : JsValue :=
  .obj [(utf16 "version", .num (.ofNat 2)), (utf16 "sessionId", .str header.sessionId),
    (utf16 "sidecarIneligible", .bool header.sidecarIneligible)]

variable (partition : DictionaryPartitionCommit)

def partitionValue : JsValue :=
  .obj [(utf16 "size", .num partition.size), (utf16 "digest", .str partition.digest),
    (utf16 "records", .num partition.records), (utf16 "complete", .bool partition.complete)]

variable (commit : DictionaryArtifactPayload)

/-- The object that the meta file holds. -/
def metaValue : JsValue :=
  .obj [(utf16 "header", headerValue commit.header), (utf16 "indexDigest", .str commit.indexDigest),
    (utf16 "partitions", .arr (commit.partitions.map partitionValue)),
    (utf16 "recordCount", .num commit.recordCount), (utf16 "uniqueTerms", .num commit.uniqueTerms),
    (utf16 "totalBytes", .num commit.totalBytes),
    (utf16 "duplicateIds", .arr (commit.duplicateIds.map .str)),
    (utf16 "sidecarIneligible", .bool commit.sidecarIneligible)]

def dictionaryArtifactMetaBytes : JsString :=
  valueText (metaValue commit) ++ [newlineUnit]

variable (computeLineDigest : Bytes → JsString)

/-- The meta bytes, and the commit with their size and digest. The size is `bytes.length`. -/
def finalizeDictionaryArtifactCommit
    (commit : DictionaryArtifactPayload) : JsString × DictionaryArtifactCommit :=
  let bytes := dictionaryArtifactMetaBytes commit
  (bytes, { commit with
    metaSize := bytes.length
    metaDigest := computeLineDigest (encodeUtf8 bytes) })

/-! ## Reading -/

/-- The argument of the parser: a string or a `Uint8Array`. -/
inductive MetaInput
  | text (bytes : JsString)
  | buffer (bytes : Bytes)

/-- The bytes that are measured and hashed. -/
def MetaInput.exactBytes : MetaInput → Bytes
  | text bytes => encodeUtf8 bytes
  | buffer bytes => bytes

/-- The text that is parsed; `TextDecoder` drops a byte order mark. -/
def MetaInput.decoded : MetaInput → JsString
  | text bytes => bytes
  | buffer bytes =>
      match decodeUtf8 bytes with
      | 0xFEFF :: rest => rest
      | decoded => decoded

def isRecord : JsValue → Bool
  | .obj _ => true
  | _ => false

def asString : JsValue → Option JsString
  | .str text => some text
  | _ => none

def asBool : JsValue → Option Bool
  | .bool value => some value
  | _ => none

def asArray : JsValue → Option (List JsValue)
  | .arr items => some items
  | _ => none

/-- `Number.MAX_SAFE_INTEGER` -/
def maxSafeInteger : ℕ := 2 ^ 53 - 1

/-- `Number.isSafeInteger(value) && value >= 0` -/
def isSafeCount (value : Decimal) : Bool :=
  !value.negative && decide (0 ≤ value.exponent) &&
    decide (value.mantissa * 10 ^ value.exponent.toNat ≤ maxSafeInteger)

def asSafeCount : JsValue → Option Decimal
  | .num value => if isSafeCount value then some value else none
  | _ => none

def asDigest (value : JsValue) : Option JsString :=
  (asString value).filter isHexDigest

def parsePartitionCommit (candidate : JsValue) : Option DictionaryPartitionCommit := do
  guard (isRecord candidate)
  let size ← asSafeCount (candidate.get (utf16 "size"))
  let digest ← asDigest (candidate.get (utf16 "digest"))
  let records ← asSafeCount (candidate.get (utf16 "records"))
  let complete ← asBool (candidate.get (utf16 "complete"))
  return { size, digest, records, complete }

def parseHeader (header : JsValue) : Option SidecarIndexHeaderV2 := do
  guard (isRecord header)
  guard (header.get (utf16 "version") = .num (.ofNat 2))
  let sessionId ← asString (header.get (utf16 "sessionId"))
  let sidecarIneligible ← asBool (header.get (utf16 "sidecarIneligible"))
  return { sessionId, sidecarIneligible }

/-- The checks on a parsed meta object. -/
def parsePayload (record : JsValue) : Option DictionaryArtifactPayload := do
  guard (isRecord record)
  let header ← parseHeader (record.get (utf16 "header"))
  let indexDigest ← asDigest (record.get (utf16 "indexDigest"))
  let candidates ← asArray (record.get (utf16 "partitions"))
  guard (candidates.length = dictionaryPartitionCount)
  let partitions ← candidates.mapM parsePartitionCommit
  let recordCount ← asSafeCount (record.get (utf16 "recordCount"))
  let uniqueTerms ← asSafeCount (record.get (utf16 "uniqueTerms"))
  let totalBytes ← asSafeCount (record.get (utf16 "totalBytes"))
  let duplicates ← asArray (record.get (utf16 "duplicateIds"))
  let duplicateIds ← duplicates.mapM asString
  let sidecarIneligible ← asBool (record.get (utf16 "sidecarIneligible"))
  return { header, indexDigest, partitions, recordCount, uniqueTerms, totalBytes, duplicateIds,
           sidecarIneligible }

/-- Reads meta bytes and recomputes their size and digest. -/
def parseDictionaryArtifactCommit (input : MetaInput) : Option DictionaryArtifactCommit := do
  let record ← parseJson input.decoded
  let payload ← parsePayload record
  return { payload with
    metaSize := input.exactBytes.length
    metaDigest := computeLineDigest input.exactBytes }

/-! ## What is read back -/

/-- The parser's own conditions on a partition. -/
def acceptsPartition : Bool :=
  isSafeCount partition.size && isHexDigest partition.digest && isSafeCount partition.records

/-- The parser's own conditions on digests, counts and the number of partitions. -/
def acceptsPayload : Bool :=
  isHexDigest commit.indexDigest && commit.partitions.length == dictionaryPartitionCount &&
    commit.partitions.all acceptsPartition && isSafeCount commit.recordCount &&
    isSafeCount commit.uniqueTerms && isSafeCount commit.totalBytes

theorem asSafeCount_num (value : Decimal) :
    asSafeCount (.num value) = if isSafeCount value then some value else none := rfl

theorem asDigest_str (text : JsString) : asDigest (.str text) = if isHexDigest text then some text else none :=
  rfl

theorem ite_some_bind {α β : Type} (accepted : Bool) (item : α) (next : α → Option β) :
    (if accepted then some item else none).bind next = if accepted then next item else none := by
  cases accepted <;> rfl

theorem parsePartitionCommit_partitionValue : parsePartitionCommit (partitionValue partition) =
      if acceptsPartition partition then some partition else none := by
  have hread : parsePartitionCommit (partitionValue partition) =
      (asSafeCount (.num partition.size)).bind fun size ↦
        (asDigest (.str partition.digest)).bind fun digest ↦
          (asSafeCount (.num partition.records)).bind fun records ↦
            some { size, digest, records, complete := partition.complete } := rfl
  rw [hread, acceptsPartition]
  simp [asSafeCount_num, asDigest_str, ite_some_bind, ite_and]

theorem parseHeader_headerValue (header : SidecarIndexHeaderV2) :
    parseHeader (headerValue header) = some header := by
  unfold parseHeader
  rfl

theorem mapM_map_eq_ite {α β : Type} {read : β → Option α} {write : α → β} {accepts : α → Bool}
    (h : ∀ item, read (write item) = if accepts item then some item else none) (items : List α) :
    (items.map write).mapM read = if items.all accepts then some items else none := by
  induction items with
  | nil => rfl
  | cons item rest ih =>
    rw [map_cons, mapM_cons, ih, h, all_cons]
    cases accepts item <;> cases rest.all accepts <;> rfl

/-- The checks accept exactly the objects written for acceptable commits. -/
theorem parsePayload_metaValue :
    parsePayload (metaValue commit) = if acceptsPayload commit then some commit else none := by
  have hread : parsePayload (metaValue commit) =
      (parseHeader (headerValue commit.header)).bind fun header ↦
      (asDigest (.str commit.indexDigest)).bind fun indexDigest ↦
      (guard ((commit.partitions.map partitionValue).length = dictionaryPartitionCount) :
        Option Unit).bind fun _ ↦
      ((commit.partitions.map partitionValue).mapM parsePartitionCommit).bind fun partitions ↦
      (asSafeCount (.num commit.recordCount)).bind fun recordCount ↦
      (asSafeCount (.num commit.uniqueTerms)).bind fun uniqueTerms ↦
      (asSafeCount (.num commit.totalBytes)).bind fun totalBytes ↦
      ((commit.duplicateIds.map str).mapM asString).bind fun duplicateIds ↦
      some { header, indexDigest, partitions, recordCount, uniqueTerms, totalBytes, duplicateIds,
             sidecarIneligible := commit.sidecarIneligible } := rfl
  have hids : (commit.duplicateIds.map str).mapM asString = some commit.duplicateIds := by
    have h (item) :
        asString (.str item) = if (fun _ ↦ true) item then some item else none := rfl
    simpa using mapM_map_eq_ite h commit.duplicateIds
  rw [hread, parseHeader_headerValue, hids, mapM_map_eq_ite parsePartitionCommit_partitionValue,
    length_map]
  simp only [asSafeCount_num, asDigest_str, ite_some_bind, Option.bind_some, guard, acceptsPayload,
    Bool.and_eq_true, beq_iff_eq, ite_and]
  split_ifs <;> rfl

theorem cleanItems_map {α : Type} {write : α → JsValue} (h : ∀ item, (write item).clean = write item)
    (items : List α) : cleanItems (items.map write) = items.map write := by
  induction items with
  | nil => rfl
  | cons item rest ih => rw [map_cons, cleanItems, h, ih]

theorem metaValue_clean : (metaValue commit).clean = metaValue commit := by
  have hpartitions := cleanItems_map (fun partition ↦ (rfl : (partitionValue partition).clean = _))
    commit.partitions
  have hids := cleanItems_map (fun id ↦ (rfl : (str id).clean = _)) commit.duplicateIds
  simp [metaValue, headerValue, clean, cleanFields, isUndefined, hpartitions, hids]

theorem metaValue_distinctKeys : (metaValue commit).DistinctKeys := by
  have hpart (partition) : (partitionValue partition).DistinctKeys := by
    simp only [partitionValue, DistinctKeys, DistinctKeysFields, and_true, map_cons, map_nil]
    decide
  have hparts : DistinctKeysItems (commit.partitions.map partitionValue) := by
    rw [distinctKeysItems_iff, forall_mem_map]
    exact fun partition _ ↦ hpart partition
  have hids : DistinctKeysItems (commit.duplicateIds.map .str) := by
    rw [distinctKeysItems_iff, forall_mem_map]
    exact fun id _ ↦ trivial
  simp only [metaValue, headerValue, DistinctKeys, DistinctKeysFields, hparts,
    hids, and_true, map_cons, map_nil]
  constructor <;> decide

/-- The parser's answer on a written line: the commit with the byte length of the line. -/
theorem parseDictionaryArtifactCommit_metaBytes (commit : DictionaryArtifactPayload) :
    parseDictionaryArtifactCommit computeLineDigest (.text (dictionaryArtifactMetaBytes commit)) =
      if acceptsPayload commit then
        some { commit with
          metaSize := byteLength (dictionaryArtifactMetaBytes commit)
          metaDigest := computeLineDigest (encodeUtf8 (dictionaryArtifactMetaBytes commit)) }
      else none := by
  have hparse : parseJson (dictionaryArtifactMetaBytes commit) = some (metaValue commit) := by
    have hkeys : (metaValue commit).clean.DistinctKeys := by
      rw [metaValue_clean]
      exact metaValue_distinctKeys commit
    have h := parseJson_valueText_append hkeys
      (by decide : ∀ unit ∈ [newlineUnit], isWhitespace unit)
    rwa [metaValue_clean] at h
  generalize dictionaryArtifactMetaBytes commit = line at *
  have hread : parseDictionaryArtifactCommit computeLineDigest (.text line) =
      (parseJson line).bind fun record ↦
        (parsePayload record).bind fun payload ↦
          some { payload with
            metaSize := byteLength line
            metaDigest := computeLineDigest (encodeUtf8 line) } := rfl
  rw [hread, hparse, Option.bind_some, parsePayload_metaValue, ite_some_bind]

/-! ## When the line is ASCII -/

theorem isAscii_bool (value : Bool) : IsAscii (valueText (.bool value)) := by
  cases value <;> decide

theorem isAscii_num (value : Decimal) : IsAscii (valueText (.num value)) :=
  (isPrintable_numberText value).isAscii

theorem isAscii_partitionValue {partition : DictionaryPartitionCommit}
    (h : acceptsPartition partition) : IsAscii (valueText (partitionValue partition)) := by
  simp only [acceptsPartition, Bool.and_eq_true] at h
  have hdigest : IsAscii (quote partition.digest) :=
    (isAscii_quote_iff _).mpr (asciiOrUnpaired_of_isAscii (isAscii_of_isHexDigest h.1.2))
  rw [partitionValue, isAscii_valueText_obj_iff]
  simp only [forall_mem_cons, not_mem_nil, false_imp_iff, implies_true, and_true]
  exact ⟨fun _ ↦ ⟨by decide, isAscii_num _⟩, fun _ ↦ ⟨by decide, hdigest⟩,
    fun _ ↦ ⟨by decide, isAscii_num _⟩, fun _ ↦ ⟨by decide, isAscii_bool _⟩⟩

/-- The line is ASCII when the session id and the duplicate ids are. -/
theorem isAscii_metaBytes_iff {commit : DictionaryArtifactPayload} (h : acceptsPayload commit) :
    IsAscii (dictionaryArtifactMetaBytes commit) ↔ AsciiOrUnpaired commit.header.sessionId ∧
      ∀ id ∈ commit.duplicateIds, AsciiOrUnpaired id := by
  simp only [acceptsPayload, Bool.and_eq_true, all_eq_true] at h

  have hidx : IsAscii (quote commit.indexDigest) :=
    (isAscii_quote_iff _).mpr (asciiOrUnpaired_of_isAscii (isAscii_of_isHexDigest h.1.1.1.1.1))
  have hparts : IsAscii (valueText (.arr (commit.partitions.map partitionValue))) := by
    rw [isAscii_valueText_arr_iff, forall_mem_map]
    exact fun partition hpart ↦ isAscii_partitionValue (h.1.1.1.2 partition hpart)
  have hids : IsAscii (valueText (.arr (commit.duplicateIds.map .str))) ↔
      ∀ id ∈ commit.duplicateIds, AsciiOrUnpaired id := by
    rw [isAscii_valueText_arr_iff, forall_mem_map]
    exact forall₂_congr fun id _ ↦ isAscii_quote_iff id
  have hheader : IsAscii (valueText (headerValue commit.header)) ↔
      AsciiOrUnpaired commit.header.sessionId := by
    rw [headerValue, isAscii_valueText_obj_iff, ← isAscii_quote_iff]
    simp only [forall_mem_cons, not_mem_nil, false_imp_iff, implies_true, and_true]
    constructor
    · rintro ⟨-, hsession, -⟩
      exact (hsession rfl).2
    · intro hsession
      exact ⟨fun _ ↦ ⟨by decide, isAscii_num _⟩, fun _ ↦ ⟨by decide, hsession⟩,
        fun _ ↦ ⟨by decide, isAscii_bool _⟩⟩
  rw [dictionaryArtifactMetaBytes, isAscii_append, metaValue, isAscii_valueText_obj_iff]
  simp only [forall_mem_cons, not_mem_nil, false_imp_iff, implies_true, and_true]
  constructor
  · rintro ⟨⟨hhead, -, -, -, -, -, hdup, -⟩, -⟩
    exact ⟨hheader.mp (hhead rfl).2, hids.mp (hdup rfl).2⟩
  · rintro ⟨hsession, hdup⟩
    refine ⟨⟨fun _ ↦ ⟨by decide, hheader.mpr hsession⟩, fun _ ↦ ⟨by decide, hidx⟩,
      fun _ ↦ ⟨by decide, hparts⟩, fun _ ↦ ⟨by decide, isAscii_num _⟩,
      fun _ ↦ ⟨by decide, isAscii_num _⟩, fun _ ↦ ⟨by decide, isAscii_num _⟩,
      fun _ ↦ ⟨by decide, hids.mpr hdup⟩, fun _ ↦ ⟨by decide, isAscii_bool _⟩⟩, by decide⟩

/-- A finalized commit is read back exactly when it passes the parser's checks and its session
id and duplicate ids have no characters beyond ASCII, unpaired surrogates apart. -/
theorem parse_finalizeDictionaryArtifactCommit_iff (computeLineDigest : Bytes → JsString)
    (commit : DictionaryArtifactPayload) :
    parseDictionaryArtifactCommit computeLineDigest
        (.text (finalizeDictionaryArtifactCommit computeLineDigest commit).1) =
      some (finalizeDictionaryArtifactCommit computeLineDigest commit).2 ↔
    acceptsPayload commit = true ∧ AsciiOrUnpaired commit.header.sessionId ∧
      ∀ id ∈ commit.duplicateIds, AsciiOrUnpaired id := by
  dsimp only [finalizeDictionaryArtifactCommit]
  rw [parseDictionaryArtifactCommit_metaBytes]
  cases haccepts : acceptsPayload commit with
  | false => simp
  | true =>
    rw [if_pos rfl, ← isAscii_metaBytes_iff haccepts, ← byteLength_eq_length_iff]
    simp

/-- An acceptable commit of a session with the given id. -/
def sampleCommit (sessionId : JsString) : DictionaryArtifactPayload :=
  let digest := List.replicate 64 0x30
  { header := { sessionId, sidecarIneligible := false }
    indexDigest := digest
    partitions := List.replicate 4 { size := .zero, digest, records := .zero, complete := true }
    recordCount := .zero
    uniqueTerms := .zero
    totalBytes := .zero
    duplicateIds := []
    sidecarIneligible := false }

/-- The session id `é` is two bytes long and one code unit. -/
theorem accented_sessionId_not_readBack : acceptsPayload (sampleCommit (utf16 "é")) = true ∧
      parseDictionaryArtifactCommit (fun _ ↦ replicate 64 0x30)
          (.text (finalizeDictionaryArtifactCommit (fun _ ↦ replicate 64 0x30)
            (sampleCommit (utf16 "é"))).1) ≠
        some (finalizeDictionaryArtifactCommit (fun _ ↦ replicate 64 0x30)
          (sampleCommit (utf16 "é"))).2 := by
  decide +kernel

end GajaeCode.Session
