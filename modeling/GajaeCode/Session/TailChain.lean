import GajaeCode.Chain.Linked
import GajaeCode.Text.Decimal
import GajaeCode.Text.Framing

/-!
# The rolling tail checksum chain

The records appended after the anchored base of a transcript carry a checksum over the previous
checksum and all other fields of the record. `hashChain` frames its parts, so the bytes it hashes
determine the parts; what is lost is lost before framing, where strings become UTF-8 and an
absent parent becomes the text `<null>`.

SHA-256 is represented by an arbitrary injective digest with ASCII output. Sequence numbers,
ordinals, offsets and lengths are integers.
-/

namespace GajaeCode.Session.TailChain

open Text Chain List Option

variable {builder : RollingTailChainBuilder} {base : BaseAnchor}

/-- A collision-free digest written in ASCII. -/
structure IdealDigest where
  hex : Bytes → JsString
  injective : Function.Injective hex
  ascii : ∀ bytes, ∀ unit ∈ hex bytes, unit.toNat < 0x80

structure BaseAnchor where
  baseDigest : JsString
  baseEndOffset : ℤ

inductive TailRecordKind
  | user
  | assistant
  | tool
  | modelChange
  | ttsrInjection
  | internal
  | other
  deriving DecidableEq

def TailRecordKind.text : TailRecordKind → JsString
  | user => utf16 "user"
  | assistant => utf16 "assistant"
  | tool => utf16 "tool"
  | modelChange => utf16 "model_change"
  | ttsrInjection => utf16 "ttsr_injection"
  | internal => utf16 "internal"
  | other => utf16 "other"

structure TailRecordInput where
  gen : Option ℤ
  seq : ℤ
  kind : TailRecordKind
  ordinal : ℤ
  id : JsString
  parentId : Option JsString
  type : JsString
  byteOffset : ℤ
  byteLength : ℤ
  recordDigest : JsString

@[ext] structure TailRecord where
  gen : ℤ
  seq : ℤ
  kind : TailRecordKind
  ordinal : ℤ
  id : JsString
  parentId : Option JsString
  type : JsString
  byteOffset : ℤ
  byteLength : ℤ
  recordDigest : JsString
  checksum : JsString
  deriving DecidableEq

variable (record : TailRecord)

def TailRecord.toInput : TailRecordInput where
  gen := some record.gen
  seq := record.seq
  kind := record.kind
  ordinal := record.ordinal
  id := record.id
  parentId := record.parentId
  type := record.type
  byteOffset := record.byteOffset
  byteLength := record.byteLength
  recordDigest := record.recordDigest

/-! ## Checksums -/

inductive ChainPart
  | string (text : JsString)
  | number (value : ℤ)
  | bigint (value : ℤ)
  | bytes (raw : Bytes)

def ChainPart.encode : ChainPart → Bytes
  | string text => encodeUtf8 text
  | number value => encodeUtf8 (intText value)
  | bigint value => encodeUtf8 (intText value)
  | bytes raw => raw

variable (sha256 : IdealDigest)

/-- `none` is the `RangeError` of a part whose length does not fit in four bytes. -/
def hashChain (parts : List ChainPart) : Option JsString :=
  (frames (parts.map ChainPart.encode)).map sha256.hex

/-- What stands for an absent parent. -/
def nullParent : JsString := utf16 "<null>"

def recordFields (record : TailRecordInput) : List ChainPart :=
  [.number (record.gen.getD 0), .number record.seq, .string record.kind.text,
    .number record.ordinal, .string record.id, .string (record.parentId.getD nullParent),
    .string record.type, .number record.byteOffset, .number record.byteLength,
    .string record.recordDigest]

variable (base : BaseAnchor)

def computeTailRecordChecksum
    (previousChecksum : Option JsString) (record : TailRecordInput) : Option JsString :=
  match previousChecksum with
  | none =>
      hashChain sha256
        (.string base.baseDigest :: .number base.baseEndOffset :: recordFields record)
  | some checksum => hashChain sha256 (.string checksum :: recordFields record)

variable (records : List TailRecord)

def computeTerminalChecksum : Option JsString :=
  match records.getLast? with
  | none => hashChain sha256 [.string base.baseDigest, .number base.baseEndOffset]
  | some record => some record.checksum

/-! ## Validation -/

inductive TailInvalidReason
  | seqDiscontinuity
  | offsetDiscontinuity
  | checksumMismatch
  deriving DecidableEq

def TailInvalidReason.text : TailInvalidReason → JsString
  | seqDiscontinuity => utf16 "seq_discontinuity"
  | offsetDiscontinuity => utf16 "offset_discontinuity"
  | checksumMismatch => utf16 "checksum_mismatch"

structure TailValidationResult where
  valid : Bool
  firstInvalidSeq : Option ℤ := none
  reason : Option TailInvalidReason := none
  deriving DecidableEq

/-- The loop of `validateTailChain` from a given expected sequence number, offset and checksum. -/
def validateFrom (sha256 : IdealDigest) (base : BaseAnchor) :
    ℤ → ℤ → Option JsString → List TailRecord → Option TailValidationResult
  | _, _, _, [] => some { valid := true }
  | expectedSeq, expectedOffset, previousChecksum, record :: rest =>
      if record.seq ≠ expectedSeq then
        some ⟨false, some record.seq, some .seqDiscontinuity⟩
      else if record.byteOffset ≠ expectedOffset then
        some ⟨false, some record.seq, some .offsetDiscontinuity⟩
      else
        (computeTailRecordChecksum sha256 base previousChecksum record.toInput).bind
          fun expectedChecksum ↦
            if record.checksum ≠ expectedChecksum then
              some ⟨false, some record.seq, some .checksumMismatch⟩
            else
              validateFrom sha256 base (expectedSeq + 1) (record.byteOffset + record.byteLength)
                (some expectedChecksum) rest

def validateTailChain : Option TailValidationResult :=
  validateFrom sha256 base 0 base.baseEndOffset none records

/-- The validator returned, and accepted the records. -/
def Accepts : Prop :=
  validateTailChain sha256 base records = some { valid := true }

/-! ## What the checksum binds -/

/-- The fields of a record as far as the hashed bytes show them. -/
structure HashedFields where
  gen : ℤ
  seq : ℤ
  kind : TailRecordKind
  ordinal : ℤ
  id : JsString
  parent : JsString
  type : JsString
  byteOffset : ℤ
  byteLength : ℤ
  recordDigest : JsString

def hashedFields : HashedFields where
  gen := record.gen
  seq := record.seq
  kind := record.kind
  ordinal := record.ordinal
  id := toWellFormed record.id
  parent := toWellFormed (record.parentId.getD nullParent)
  type := toWellFormed record.type
  byteOffset := record.byteOffset
  byteLength := record.byteLength
  recordDigest := toWellFormed record.recordDigest

/-- `computeTailRecordChecksum` on a stored record. -/
def recordLink (previous : Option JsString) (record : TailRecord) : Option JsString :=
  computeTailRecordChecksum sha256 base previous record.toInput

def IsAscii (text : JsString) : Prop := ∀ unit ∈ text, unit.toNat < 0x80

theorem isAscii_intText (n : ℤ) : IsAscii (intText n) := by
  have hdigits : ∀ unit ∈ natText n.natAbs, unit.toNat < 0x80 := by
    intro unit hunit
    have := isDigit_of_mem_natText hunit
    simp only [isDigit, Bool.and_eq_true, decide_eq_true_eq] at this
    omega
  unfold intText
  split_ifs
  · exact forall_mem_cons.mpr ⟨by decide, hdigits⟩
  · exact hdigits

theorem eq_of_encodeUtf8_eq_of_isAscii {left right : JsString} (hleft : IsAscii left)
    (h : encodeUtf8 right = encodeUtf8 left) : right = left :=
  (utf8Faithful_iff left).mp (utf8Faithful_of_ascii hleft) right h

theorem encodeUtf8_intText_inj {m n : ℤ} :
    encodeUtf8 (intText m) = encodeUtf8 (intText n) ↔ m = n := by
  constructor
  · intro h
    exact intText_injective (eq_of_encodeUtf8_eq_of_isAscii (isAscii_intText n) h)
  · intro h
    rw [h]

theorem TailRecordKind.encodeUtf8_text_inj {left right : TailRecordKind} :
    encodeUtf8 left.text = encodeUtf8 right.text ↔ left = right := by
  constructor
  · intro h
    cases left <;> cases right <;> first | rfl | exact absurd h (by decide)
  · intro h
    rw [h]

theorem hashChain_inj {left right : List ChainPart} {out : JsString}
    (hleft : hashChain sha256 left = some out) (hright : hashChain sha256 right = some out) :
    left.map ChainPart.encode = right.map ChainPart.encode := by
  obtain ⟨bytes, hbytes, rfl⟩ := map_eq_some_iff.mp hleft
  obtain ⟨bytes', hbytes', hsame⟩ := map_eq_some_iff.mp hright
  rw [sha256.injective hsame] at hbytes'
  exact frames_inj hbytes hbytes'

/-- The encoded fields agree exactly when the hashed fields do. -/
theorem encode_recordFields_eq_iff (left right : TailRecord) :
    (recordFields left.toInput).map ChainPart.encode =
        (recordFields right.toInput).map ChainPart.encode ↔
      hashedFields left = hashedFields right := by
  simp only [recordFields, TailRecord.toInput, map_cons, map_nil, ChainPart.encode,
    cons.injEq, and_true, encodeUtf8_intText_inj, TailRecordKind.encodeUtf8_text_inj,
    getD_some, hashedFields, HashedFields.mk.injEq]
  simp [encodeUtf8_eq_encodeUtf8_iff]

/-- What is hashed in front of the fields of a record. -/
def chainHead (base : BaseAnchor) : Option JsString → List ChainPart
  | none => [.string base.baseDigest, .number base.baseEndOffset]
  | some checksum => [.string checksum]

theorem recordLink_eq (base : BaseAnchor) (prev : Option JsString) (record : TailRecord) :
    recordLink sha256 base prev record =
      hashChain sha256 (chainHead base prev ++ recordFields record.toInput) := by
  cases prev <;> rfl

/-- The checksum of a record binds the previous checksum and the hashed fields. -/
theorem recordLink_binding (base : BaseAnchor) :
    Binding (recordLink sha256 base) hashedFields IsAscii where
  isStamp := by
    intro prev record out h
    rw [recordLink_eq] at h
    obtain ⟨bytes, -, rfl⟩ := map_eq_some_iff.mp h
    exact sha256.ascii bytes
  congr := by
    intro prev left right h
    rw [recordLink_eq, recordLink_eq, hashChain, hashChain, map_append, map_append,
      (encode_recordFields_eq_iff left right).mpr h]
  inj := by
    intro prev prev' left right out hprev hprev' hleft hright
    rw [recordLink_eq] at hleft hright
    have h := hashChain_inj sha256 hleft hright
    rw [map_append, map_append] at h
    obtain ⟨hheads, hfields⟩ := append_inj' h rfl
    refine ⟨?_, (encode_recordFields_eq_iff left right).mp hfields⟩
    cases prev with
    | none =>
      cases prev' with
      | none => rfl
      | some => simp [chainHead] at hheads
    | some =>
      cases prev' with
      | none => simp [chainHead] at hheads
      | some checksum' =>
        have hsame := (cons.inj hheads).1
        rw [eq_of_encodeUtf8_eq_of_isAscii (hprev' checksum' rfl) hsame]

/-! ## Validation as a property of the chain -/

/-- Sequence numbers count up and each record starts where the previous one ended. -/
def Contiguous : ℤ → ℤ → List HashedFields → Prop
  | _, _, [] => True
  | seq, offset, fields :: rest =>
      fields.seq = seq ∧ fields.byteOffset = offset ∧
        Contiguous (seq + 1) (fields.byteOffset + fields.byteLength) rest

/-- The validator accepts the contiguous and linked chains. -/
theorem validateFrom_eq_valid_iff (base : BaseAnchor) (seq offset : ℤ)
    (prev : Option JsString) (records : List TailRecord) :
    validateFrom sha256 base seq offset prev records = some { valid := true } ↔
      Linked (recordLink sha256 base) TailRecord.checksum prev records ∧
        Contiguous seq offset (records.map hashedFields) := by
  induction records generalizing seq offset prev with
  | nil => simp [validateFrom, Linked, Contiguous]
  | cons record rest ih =>
    simp only [validateFrom, map_cons, Linked, Contiguous]
    by_cases hseq : record.seq = seq
    · by_cases hoffset : record.byteOffset = offset
      · cases hlink : recordLink sha256 base prev record with
        | none =>
          rw [recordLink] at hlink
          simp [hseq, hoffset, hlink]
        | some expected =>
          rw [recordLink] at hlink
          by_cases hchecksum : record.checksum = expected
          · simp [hseq, hoffset, hlink, hchecksum, hashedFields, ih]
          · simp [hseq, hoffset, hlink, hchecksum, Ne.symm hchecksum]
      · simp [hseq, hoffset, hashedFields]
    · simp [hseq, hashedFields]

theorem accepts_iff (base : BaseAnchor) (records : List TailRecord) : Accepts sha256 base records ↔
      Linked (recordLink sha256 base) TailRecord.checksum none records ∧
        Contiguous 0 base.baseEndOffset (records.map hashedFields) :=
  validateFrom_eq_valid_iff sha256 base 0 base.baseEndOffset none records

/-! ## Which chains are tamper evident -/

/-- Nothing in the record is lost when its fields become bytes: the parent is present and is not
the text that stands for an absent one, and every free text is determined by its UTF-8 bytes. -/
def TailRecord.Unambiguous : Prop :=
  (∃ parent ∈ record.parentId, parent ≠ nullParent ∧ Utf8Faithful parent) ∧
    Utf8Faithful record.id ∧ Utf8Faithful record.type ∧ Utf8Faithful record.recordDigest

theorem utf8Faithful_iff_toWellFormed (text : JsString) :
    Utf8Faithful text ↔ ∀ other, toWellFormed other = toWellFormed text → other = text := by
  simp [utf8Faithful_iff, encodeUtf8_eq_encodeUtf8_iff]

theorem TailRecord.Unambiguous.eq_of_shown_eq {record other : TailRecord} (h : record.Unambiguous)
    (hshown : shown TailRecord.checksum hashedFields other =
      shown TailRecord.checksum hashedFields record) : other = record := by
  obtain ⟨⟨parent, hparent, hnull, hfaith⟩, hid, htype, hdigest⟩ := h
  simp only [utf8Faithful_iff_toWellFormed] at hfaith hid htype hdigest
  simp only [shown, hashedFields, Prod.mk.injEq, HashedFields.mk.injEq,
    mem_def.mp hparent, getD_some] at hshown
  obtain ⟨⟨hgen, hseq, hkind, hordinal, hid', hparent', htype', hoffset, hlen, hdigest'⟩,
    hchecksum⟩ := hshown
  have hsameParent : other.parentId = record.parentId := by
    have hget := hfaith _ hparent'
    cases hother : other.parentId with
    | none => exact absurd (by simpa [hother] using hget.symm) hnull
    | some =>
      rw [hother, getD_some] at hget
      rw [hget, mem_def.mp hparent]
  exact TailRecord.ext hgen hseq hkind hordinal (hid _ hid') hsameParent (htype _ htype') hoffset
    hlen (hdigest _ hdigest') hchecksum

/-- A record is unambiguous exactly when no other record shows the same to the chain. -/
theorem TailRecord.unambiguous_iff :
    record.Unambiguous ↔ ∀ other, shown TailRecord.checksum hashedFields other =
      shown TailRecord.checksum hashedFields record → other = record := by
  refine ⟨fun h other hshown ↦ h.eq_of_shown_eq hshown, fun h ↦ ?_⟩
  have hsame (parentId : Option JsString) (hshown : toWellFormed (parentId.getD nullParent) =
      toWellFormed (record.parentId.getD nullParent)) : parentId = record.parentId :=
    congrArg TailRecord.parentId (h { record with parentId } (by simp [shown, hashedFields, hshown]))
  have hparent : ∃ parent ∈ record.parentId, parent ≠ nullParent ∧ Utf8Faithful parent := by
    cases hrecord : record.parentId with
    | none =>
      -- an absent parent can be exchanged for the text that stands for it
      simpa [hrecord] using hsame (some nullParent) (by rw [hrecord]; rfl)
    | some parent =>
      refine ⟨parent, rfl, fun hnull ↦ ?_, (utf8Faithful_iff_toWellFormed _).mpr fun text htext ↦ ?_⟩
      · simpa [hrecord] using hsame none (by rw [hrecord, hnull]; rfl)
      · simpa [hrecord] using hsame (some text) (by rwa [hrecord])
  simp only [TailRecord.Unambiguous, utf8Faithful_iff_toWellFormed] at hparent ⊢
  refine ⟨hparent, fun text htext ↦ ?_, fun text htext ↦ ?_, fun text htext ↦ ?_⟩
  · exact congrArg TailRecord.id (h { record with id := text } (by simp [shown, hashedFields, htext]))
  · exact congrArg TailRecord.type
      (h { record with type := text } (by simp [shown, hashedFields, htext]))
  · exact congrArg TailRecord.recordDigest
      (h { record with recordDigest := text } (by simp [shown, hashedFields, htext]))

theorem recordLink_ne_emptyChain (base : BaseAnchor)
    (prev : Option JsString) (record : TailRecord) (checksum : JsString)
    (h : recordLink sha256 base prev record = some checksum) :
    hashChain sha256 [.string base.baseDigest, .number base.baseEndOffset] ≠ some checksum := by
  intro hempty
  rw [recordLink_eq] at h
  have := congrArg length (hashChain_inj sha256 h hempty)
  simp [recordFields] at this

/-- Linked chains end in the same terminal checksum exactly when they end in the same stamp. -/
theorem computeTerminalChecksum_eq_iff (base : BaseAnchor) {left right : List TailRecord}
    (hleft : Linked (recordLink sha256 base) TailRecord.checksum none left)
    (hright : Linked (recordLink sha256 base) TailRecord.checksum none right) :
    computeTerminalChecksum sha256 base left = computeTerminalChecksum sha256 base right ↔
      lastStamp TailRecord.checksum left = lastStamp TailRecord.checksum right := by
  cases left using reverseRecOn with
  | nil =>
    cases right using reverseRecOn with
    | nil => simp
    | append_singleton front record =>
      have hlink := ((linked_append_singleton none front record).mp hright).2
      have hne := recordLink_ne_emptyChain sha256 base _ record _ hlink
      simpa [computeTerminalChecksum, lastStamp] using hne
  | append_singleton front record =>
    have hlink := ((linked_append_singleton none front record).mp hleft).2
    have hne := recordLink_ne_emptyChain sha256 base _ record _ hlink
    cases right using reverseRecOn with
    | nil => simpa [computeTerminalChecksum, lastStamp, eq_comm] using hne
    | append_singleton => simp [computeTerminalChecksum, lastStamp]

/-- No other accepted chain over the base ends in the same terminal checksum. -/
def TamperEvident : Prop :=
  ∀ other, Accepts sha256 base other →
    computeTerminalChecksum sha256 base other = computeTerminalChecksum sha256 base records →
      other = records

variable {records}

variable {base}

theorem tamperEvident_iff (base : BaseAnchor) {records : List TailRecord}
    (h : Accepts sha256 base records) :
    TamperEvident sha256 base records ↔ ∀ record ∈ records, record.Unambiguous := by
  obtain ⟨hlinked, hcontiguous⟩ := (accepts_iff sha256 base records).mp h
  simp only [TailRecord.unambiguous_iff]
  rw [← unique_iff_forall_mem_unique (recordLink_binding sha256 base)
    (Contiguous 0 base.baseEndOffset) hlinked hcontiguous]
  constructor
  · intro hevident other hlinked' hcontiguous' hlast
    apply hevident other ((accepts_iff sha256 base other).mpr ⟨hlinked', hcontiguous'⟩)
    exact (computeTerminalChecksum_eq_iff sha256 base hlinked' hlinked).mpr hlast
  · intro hunique other haccepts hterm
    obtain ⟨hlinked', hcontiguous'⟩ := (accepts_iff sha256 base other).mp haccepts
    exact hunique other hlinked' hcontiguous'
      ((computeTerminalChecksum_eq_iff sha256 base hlinked' hlinked).mp hterm)

/-! ## The rolling builder -/

def recordObjectOverheadBytes : ℤ := 48

def tailBufferBudgetBytes : ℤ := 4 * 1024 * 1024

def residentStringBytes (value : JsString) : ℤ := 2 * value.length + 16

def residentRecordBytes (childBytes : ℤ) : ℤ := recordObjectOverheadBytes + childBytes

def tailRecordResidentBytes (record : TailRecordInput) (checksumChars : ℕ) : ℤ :=
  residentRecordBytes
    (residentStringBytes record.id + (record.parentId.map residentStringBytes).getD 0 +
      residentStringBytes record.type + residentStringBytes record.kind.text +
      residentStringBytes record.recordDigest + (2 * checksumChars + 16))

structure RollingTailChainBuilder where
  records : List TailRecord
  base : BaseAnchor
  lastChecksum : Option JsString
  lastSeq : ℤ
  lastEndOffset : ℤ
  remainingTailBytes : ℤ

structure CommittedTail where
  base : BaseAnchor
  records : List TailRecord
  terminalChecksum : JsString
  terminalSeq : ℤ
  transcriptSize : ℤ

inductive AppendError
  | seqDiscontinuity
  | offsetDiscontinuity
  | partTooLong

/-- The returned record, `undefined` when the budget is hit, or a thrown error. -/
inductive AppendOutcome
  | appended (record : TailRecord)
  | rejected
  | threw (error : AppendError)

namespace RollingTailChainBuilder

def new (base : BaseAnchor) (tailBufferBytes : Option ℤ) : RollingTailChainBuilder where
  records := []
  base := base
  lastChecksum := none
  lastSeq := -1
  lastEndOffset := base.baseEndOffset
  remainingTailBytes := tailBufferBytes.getD tailBufferBudgetBytes

def committedRecord (input : TailRecordInput) (checksum : JsString) : TailRecord where
  gen := input.gen.getD 0
  seq := input.seq
  kind := input.kind
  ordinal := input.ordinal
  id := input.id
  parentId := input.parentId
  type := input.type
  byteOffset := input.byteOffset
  byteLength := input.byteLength
  recordDigest := input.recordDigest
  checksum := checksum

variable (sha256 : IdealDigest) (builder : RollingTailChainBuilder)

def append (input : TailRecordInput) : AppendOutcome × RollingTailChainBuilder :=
  if input.seq ≠ builder.lastSeq + 1 then (.threw .seqDiscontinuity, builder)
  else if input.byteOffset ≠ builder.lastEndOffset then (.threw .offsetDiscontinuity, builder)
  else
    match computeTailRecordChecksum sha256 builder.base builder.lastChecksum input with
    | none => (.threw .partTooLong, builder)
    | some checksum =>
        let residentBytes := tailRecordResidentBytes input checksum.length
        if residentBytes > builder.remainingTailBytes then (.rejected, builder)
        else
          let record := committedRecord input checksum
          (.appended record,
            { builder with
              remainingTailBytes := builder.remainingTailBytes - residentBytes
              records := builder.records ++ [record]
              lastSeq := input.seq
              lastEndOffset := input.byteOffset + input.byteLength
              lastChecksum := some checksum })

def build : Option CommittedTail :=
  (computeTerminalChecksum sha256 builder.base builder.records).map fun terminalChecksum ↦
    ⟨builder.base, builder.records, terminalChecksum, builder.lastSeq, builder.lastEndOffset⟩

/-- Any sequence of appends, whatever their outcomes; a caller may go on after an error. -/
def appendAll (inputs : List TailRecordInput) : RollingTailChainBuilder :=
  inputs.foldl (fun current input ↦ (append sha256 current input).2) builder

variable {builder}

/-- The validator, having read the builder's records, is in the builder's state. -/
def Resumes (base : BaseAnchor) (builder : RollingTailChainBuilder) : Prop :=
  builder.base = base ∧ ∀ more, validateTailChain sha256 base (builder.records ++ more) =
    validateFrom sha256 base (builder.lastSeq + 1) builder.lastEndOffset builder.lastChecksum more

section

variable (sha256 : IdealDigest)

/-- An append either leaves the builder alone or adds the record that comes next. -/
theorem append_cases (builder : RollingTailChainBuilder) (input : TailRecordInput) :
    (append sha256 builder input).2 = builder ∨
      ∃ checksum, input.seq = builder.lastSeq + 1 ∧ input.byteOffset = builder.lastEndOffset ∧
        computeTailRecordChecksum sha256 builder.base builder.lastChecksum input = some checksum ∧
        (append sha256 builder input).2 = { builder with
            remainingTailBytes := builder.remainingTailBytes -
              tailRecordResidentBytes input checksum.length
            records := builder.records ++ [committedRecord input checksum]
            lastSeq := input.seq
            lastEndOffset := input.byteOffset + input.byteLength
            lastChecksum := some checksum } := by
  unfold append
  split_ifs with hseq hoffset
  · exact Or.inl rfl
  · exact Or.inl rfl
  · rw [not_not] at hseq hoffset
    split
    · exact Or.inl rfl
    · rename_i checksum hchecksum
      dsimp only
      split_ifs with hbudget
      · exact Or.inl rfl
      · exact .inr ⟨checksum, hseq, hoffset, hchecksum, rfl⟩

theorem resumes_append (h : Resumes sha256 base builder)
    (input : TailRecordInput) : Resumes sha256 base (append sha256 builder input).2 := by
  obtain ⟨hbase, hresume⟩ := h
  obtain hsame | ⟨checksum, hseq, hoffset, hchecksum, hnext⟩ := append_cases sha256 builder input
  · rw [hsame]
    exact ⟨hbase, hresume⟩
  · rw [hnext]
    refine ⟨hbase, fun more ↦ ?_⟩
    have hgen : computeTailRecordChecksum sha256 base builder.lastChecksum
        (committedRecord input checksum).toInput = some checksum := by
      rw [← hbase, ← hchecksum]
      cases builder.lastChecksum with
      | none => rfl
      | some => rfl
    rw [append_assoc, singleton_append, hresume, validateFrom, if_neg (by simp [committedRecord, hseq]),
      if_neg (by simp [committedRecord, hoffset]), hgen]
    simp [committedRecord, hseq]

theorem resumes_appendAll (h : Resumes sha256 base builder)
    (inputs : List TailRecordInput) : Resumes sha256 base (appendAll sha256 builder inputs) := by
  induction inputs generalizing builder with
  | nil => exact h
  | cons input rest ih => exact ih (resumes_append sha256 h input)

/-- Whatever the outcomes of its appends, the records of a builder are accepted. -/
theorem accepts_records_of_resumes (h : Resumes sha256 base builder) :
    Accepts sha256 base builder.records := by
  have := h.2 []
  rw [append_nil] at this
  exact this

end

end RollingTailChainBuilder

/-- The input itself, written in hexadecimal. -/
def hexDigest : IdealDigest where
  hex := List.flatMap fun byte ↦
    [UInt16.ofNat (0x30 + byte.toNat / 16), UInt16.ofNat (0x30 + byte.toNat % 16)]
  injective := by
    intro left
    induction left with
    | nil =>
      intro right h
      cases right with
      | nil => rfl
      | cons => simp at h
    | cons byte rest ih =>
      intro right h
      cases right with
      | nil => simp at h
      | cons byte' =>
        simp only [List.flatMap_cons, List.cons_append, List.nil_append, List.cons.injEq,
          ← UInt16.toNat_inj, UInt16.toNat_ofNat'] at h
        have hlt := byte.toNat_lt
        have hlt' := byte'.toNat_lt
        have hbyte : byte = byte' := by
          rw [← UInt8.toNat_inj]
          omega
        rw [hbyte, ih h.2.2]
  ascii := by
    intro bytes unit hunit
    obtain ⟨byte, -, hmem⟩ := List.mem_flatMap.mp hunit
    have hlt := byte.toNat_lt
    simp only [List.mem_cons, List.not_mem_nil, or_false] at hmem
    rcases hmem with rfl | rfl <;> rw [UInt16.toNat_ofNat'] <;> omega

/-! ## Tamper evidence of accepted chains, acceptance of built ones -/

/-- An accepted chain is determined by its base and terminal checksum exactly when none of its
records has an absent parent or one named like the absent parent, and no free text of a record
holds an unpaired surrogate or U+FFFD. Every chain a builder commits is accepted. -/
theorem tailChain_tamperEvident_iff (sha256 : IdealDigest) (base : BaseAnchor)
    (records : List TailRecord) (h : Accepts sha256 base records) :
    (TamperEvident sha256 base records ↔ ∀ record ∈ records, record.Unambiguous) ∧
      ∀ (tailBufferBytes : Option ℤ) (inputs : List TailRecordInput),
        let builder := (RollingTailChainBuilder.new base tailBufferBytes).appendAll sha256 inputs
        Accepts sha256 base builder.records ∧
          ∀ tail ∈ builder.build sha256, Accepts sha256 base tail.records := by
  refine ⟨tamperEvident_iff sha256 base h, fun tailBufferBytes inputs ↦ ?_⟩
  have hnew : (RollingTailChainBuilder.new base tailBufferBytes).Resumes sha256 base :=
    ⟨rfl, fun _ ↦ rfl⟩
  have haccepts := RollingTailChainBuilder.accepts_records_of_resumes sha256
    (RollingTailChainBuilder.resumes_appendAll sha256 hnew inputs)
  refine ⟨haccepts, fun tail hbuild ↦ ?_⟩
  obtain ⟨terminal, -, rfl⟩ := map_eq_some_iff.mp hbuild
  exact haccepts

def emptyBase : BaseAnchor := ⟨[], 0⟩

/-- A first tail record over `emptyBase`, with the checksum the chain asks for. -/
def firstRecord (parentId : Option JsString) : TailRecord :=
  let input : TailRecordInput :=
    ⟨none, 0, .user, 0, utf16 "b", parentId, utf16 "message", 0, 1, utf16 "d"⟩
  RollingTailChainBuilder.committedRecord input
    ((computeTailRecordChecksum hexDigest emptyBase none input).getD [])

theorem tailChain_tamperEvident_child :
    Accepts hexDigest emptyBase [firstRecord (some (utf16 "a"))] ∧
      TamperEvident hexDigest emptyBase [firstRecord (some (utf16 "a"))] := by
  have haccepts : Accepts hexDigest emptyBase [firstRecord (some (utf16 "a"))] := by
    unfold Accepts
    decide
  refine ⟨haccepts, (tailChain_tamperEvident_iff hexDigest emptyBase _ haccepts).1.mpr ?_⟩
  intro record hrecord
  rw [mem_singleton.mp hrecord]
  exact ⟨⟨utf16 "a", rfl, by decide, by decide⟩, by decide, by decide, by decide⟩

/-- The root record and a record whose parent is named `<null>` share a terminal checksum. -/
theorem tailChain_null_parent_collision : Accepts hexDigest emptyBase [firstRecord none] ∧
      Accepts hexDigest emptyBase [firstRecord (some nullParent)] ∧
      computeTerminalChecksum hexDigest emptyBase [firstRecord none] =
        computeTerminalChecksum hexDigest emptyBase [firstRecord (some nullParent)] ∧
      (firstRecord none).parentId ≠ (firstRecord (some nullParent)).parentId := by
  unfold Accepts
  decide

end GajaeCode.Session.TailChain
