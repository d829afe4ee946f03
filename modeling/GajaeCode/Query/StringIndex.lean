import GajaeCode.Json.RoundTrip
import GajaeCode.Query.SnapshotBytes

/-!
# Strings in a snapshot

A string is written as JSON. A string with escapes gets an index with its decoded length and
checkpoints, each a decoded offset and where the text of that offset starts. A page of a string is
read from the bytes themselves where nothing is escaped, and decoded unit by unit from the last
checkpoint before the offset otherwise.
-/

namespace GajaeCode.Query

open Text Json

/-! ## Writing -/

structure StringCheckpoint where
  decodedOffset : ℕ
  serializedOffset : ℕ

structure EscapedStringIndex where
  byteLength : ℕ
  checkpoints : List StringCheckpoint

structure IndexedField where
  start : ℕ
  stop : ℕ
  plainStringBytes : Option ℕ
  isString : Bool
  stringIndex : Option EscapedStringIndex

namespace EscapedStringIndex

def opened : EscapedStringIndex := ⟨0, [⟨0, 1⟩]⟩

/-- `checkpoints[checkpoints.length - 1]`. -/
def last (index : EscapedStringIndex) : StringCheckpoint := index.checkpoints.getLastD ⟨0, 1⟩

def push (index : EscapedStringIndex) (serializedOffset : ℕ) : EscapedStringIndex :=
  { index with checkpoints := index.checkpoints ++ [⟨index.byteLength, serializedOffset⟩] }

/-- The index behind one more character. -/
def advance (limits : StoreLimits) (index : EscapedStringIndex) (decodedBytes serializedOffset : ℕ) :
    EscapedStringIndex :=
  let longer := { index with byteLength := index.byteLength + decodedBytes }
  if limits.stringIndexBytes ≤ longer.byteLength - index.last.decodedOffset then
    longer.push serializedOffset
  else longer

/-- The index behind the last character. -/
def close (index : EscapedStringIndex) (serializedOffset : ℕ) : EscapedStringIndex :=
  if index.last.decodedOffset ≠ index.byteLength then index.push serializedOffset else index

end EscapedStringIndex

/-- What the loop of `#encodeString` carries along. -/
structure EncodeState where
  writer : ChunkWriter
  output : JsString
  serializedOffset : ℕ
  stringIndex : Option EscapedStringIndex

variable (limits : StoreLimits)

/-- The end of a round, once the encoded and the decoded text of a character are known. -/
def EncodeState.emit (state : EncodeState) (encoded decoded : JsString) : EncodeState :=
  let output := state.output ++ encoded
  let serializedOffset := state.serializedOffset + byteLength encoded
  let full := limits.outputUnits ≤ output.length
  { writer := if full then state.writer.append limits.chunkBytes output else state.writer
    output := if full then [] else output
    serializedOffset
    stringIndex := state.stringIndex.map fun index ↦
      index.advance limits (byteLength decoded) serializedOffset }

/-- The encoded text of a code unit that does not start a surrogate pair. -/
def encodeUnit (unit : UInt16) : JsString :=
  match shortEscape unit with
  | some letter => [backslashUnit, letter]
  | none =>
      if unit.toNat < 0x20 || isHighSurrogate unit || isLowSurrogate unit then unicodeEscape unit
      else [unit]

/-- The loop of `#encodeString`. -/
def encodeLoop (limits : StoreLimits) : EncodeState → JsString → EncodeState
  | state, [] => state
  | state, [unit] => state.emit limits (encodeUnit unit) [unit]
  | state, unit :: next :: rest =>
      if isHighSurrogate unit && isLowSurrogate next then
        encodeLoop limits (state.emit limits [unit, next] [unit, next]) rest
      else encodeLoop limits (state.emit limits (encodeUnit unit) [unit]) (next :: rest)

variable (writer : ChunkWriter)

/-- `#encodeString(value, append, indexEscapedString)`. -/
def encodeString (value : JsString)
    (indexEscapedString : Bool) : ChunkWriter × Option EscapedStringIndex :=
  let state := encodeLoop limits
    { writer := writer.append limits.chunkBytes [quoteUnit]
      output := []
      serializedOffset := 1
      stringIndex := if indexEscapedString then some .opened else none } value
  let written :=
    if state.output = [] then state.writer else state.writer.append limits.chunkBytes state.output
  (written.append limits.chunkBytes [quoteUnit],
    state.stringIndex.map fun index ↦ index.close state.serializedOffset)

/-- `isPlainJsonString(value)`. -/
def isPlainJsonString (value : JsString) : Bool :=
  value.all fun unit ↦ !(unit == quoteUnit || unit == backslashUnit || unit.toNat < 0x20 ||
    isHighSurrogate unit || isLowSurrogate unit)

/-- The field of a string that is written without an index. -/
def encodePlainField (value : JsString) : ChunkWriter × IndexedField :=
  let written := (encodeString limits writer value false).1
  (written,
    { start := writer.bytes.length
      stop := written.bytes.length
      plainStringBytes := some (byteLength value)
      isString := true
      stringIndex := none })

/-- The field of a string that is written with an index. -/
def encodeEscapedField (value : JsString) : ChunkWriter × IndexedField :=
  let written := encodeString limits writer value true
  (written.1,
    { start := writer.bytes.length
      stop := written.1.bytes.length
      plainStringBytes := none
      isString := true
      stringIndex := written.2 })

/-- `#encodeIndexedValue(value, append)` of a string, with the range of the field. -/
def encodeIndexedValue (value : JsString) : ChunkWriter × IndexedField :=
  if isPlainJsonString value then encodePlainField limits writer value
  else encodeEscapedField limits writer value

/-! ## Reading -/

/-- A page, as the readers return it. -/
structure StringPage where
  body : JsString
  complete : Bool
  offset : ℕ
deriving DecidableEq

/-- A `SyntaxError`, or a loop that has not come to its end. -/
inductive ReadError where
  | syntaxError (message : String)
  | unfinished
deriving DecidableEq

/-- `utf8ContinuationPrefixLength(bytes)`. -/
def utf8ContinuationLength (bytes : Bytes) : ℕ := (bytes.takeWhile isContinuation).length

/-- `utf8BoundaryAtOrBefore(bytes, offset)`. -/
def utf8BoundaryAtOrBefore (bytes : Bytes) (offset : ℕ) : ℕ :=
  boundaryAtOrBefore isContinuation bytes offset

variable (revision : StoredBytes)

/-- The part of `#readStringRange` for a string without an index. -/
def readPlainStringRange (start plainStringBytes offset length : ℕ) : Option StringPage :=
  let requestedStart := min offset plainStringBytes
  let source := revision.readBytes (start + 1 + requestedStart)
    (start + 1 + min plainStringBytes (requestedStart + length + 7))
  let skipped := utf8ContinuationLength source
  let first := requestedStart + skipped
  let body := source.drop skipped
  let stop := utf8BoundaryAtOrBefore body (min body.length length)
  if stop = 0 ∧ first < plainStringBytes then none
  else
    some
      { body := decodeUtf8 (body.take stop)
        complete := first + stop == plainStringBytes
        offset := first }

/-- The search of `stringCheckpointAtOrBefore`. -/
def checkpointSearch (checkpoints : List StringCheckpoint) (offset : ℕ) : ℕ → ℕ → ℕ → ℕ
  | 0, low, _ => low
  | fuel + 1, low, high =>
      if low < high then
        if checkpoints[low + (high - low) / 2]?.any fun checkpoint ↦ checkpoint.decodedOffset ≤ offset then
          checkpointSearch checkpoints offset fuel (low + (high - low) / 2 + 1) high
        else checkpointSearch checkpoints offset fuel low (low + (high - low) / 2)
      else low

/-- `stringCheckpointAtOrBefore(checkpoints, offset)`; there is none in an empty list. -/
def stringCheckpointAtOrBefore (checkpoints : List StringCheckpoint) (offset : ℕ) :
    Option StringCheckpoint :=
  checkpoints[checkpointSearch checkpoints offset checkpoints.length 0 checkpoints.length - 1]?

/-! ## Decoding from a checkpoint -/

/-- The variables that the helpers of `#readEscapedStringRange` share. -/
structure Window where
  position : ℕ
  sourceStart : ℕ
  source : Bytes

abbrev SnapshotReader := StateT Window (Except ReadError)

/-- The bytes of the source from the position on. -/
def Window.ahead (window : Window) : Bytes := window.source.drop (window.position - window.sourceStart)

/-- The next bytes of the source. -/
def peek (count : ℕ) : SnapshotReader Bytes := do
  let window ← get
  pure (window.ahead.take count)

/-- `position += count`. -/
def skip (count : ℕ) : SnapshotReader Unit :=
  modify fun window ↦ { window with position := window.position + count }

/-- `String.fromCharCode(byte)`. -/
def byteUnit (byte : UInt8) : UInt16 := UInt16.ofNat byte.toNat

/-- A byte as `toString("ascii")` reads it. -/
def asciiUnit (byte : UInt8) : UInt16 := UInt16.ofNat (byte.toNat % 0x80)

/-- How many bytes a character with this first byte takes; none for a byte that starts none. -/
def sequenceWidth (first : UInt8) : ℕ :=
  if 0xC2 ≤ first.toNat ∧ first.toNat ≤ 0xDF then 2
  else if 0xE0 ≤ first.toNat ∧ first.toNat ≤ 0xEF then 3
  else if 0xF0 ≤ first.toNat ∧ first.toNat ≤ 0xF4 then 4
  else 0

/-- The bytes behind a byte order mark. -/
def withoutMark : Bytes → Bytes
  | 0xEF :: 0xBB :: 0xBF :: rest => rest
  | bytes => bytes

/-- `new TextDecoder("utf-8", { fatal: true }).decode(bytes)`: a byte order mark at the start is left
out, and bytes that are not the encoding of a text are an error. -/
def decodeFatal (bytes : Bytes) : Option JsString :=
  let text := decodeUtf8 (withoutMark bytes)
  if encodeUtf8 text = withoutMark bytes then some text else none

section

variable (limits : StoreLimits) (revision : StoredBytes) (stop : ℕ)

/-- `fill(needed)`. -/
def fill (needed : ℕ) : SnapshotReader Bool := do
  let window ← get
  if stop < window.position + needed then pure false
  else if window.sourceStart ≤ window.position ∧
      window.position + needed ≤ window.sourceStart + window.source.length then pure true
  else
    let source := revision.readBytes window.position
      (min stop (window.position + max limits.stringReadBytes needed))
    set ({ window with sourceStart := window.position, source } : Window)
    pure (decide (needed ≤ source.length))

/-- `take()`. -/
def takeByte : SnapshotReader UInt8 := do
  if ← fill limits revision stop 1 then
    let bytes ← peek 1
    skip 1
    pure (bytes.headD 0)
  else throw (.syntaxError "unexpected end of JSON string")

/-- `readUnicodeEscape()`. -/
def readUnicodeEscape : SnapshotReader UInt16 := do
  let first ← takeByte limits revision stop
  let second ← takeByte limits revision stop
  let third ← takeByte limits revision stop
  let fourth ← takeByte limits revision stop
  match hexQuad (byteUnit first) (byteUnit second) (byteUnit third) (byteUnit fourth) with
  | some unit => pure unit
  | none => throw (.syntaxError "invalid Unicode escape in JSON snapshot")

/-- Six bytes that are the escape of a low surrogate. -/
def isEscapedLowSurrogate : Bytes → Bool
  | [backslash, letter, first, second, third, fourth] =>
      backslash == 0x5C && letter == 0x75 &&
        (hexQuad (asciiUnit first) (asciiUnit second) (asciiUnit third) (asciiUnit fourth)).any isLowSurrogate
  | _ => false

/-- `hasEscapedLowSurrogate()`. -/
def hasEscapedLowSurrogate : SnapshotReader Bool := do
  if ← fill limits revision stop 6 then
    let bytes ← peek 6
    pure (isEscapedLowSurrogate bytes)
  else pure false

/-- The part of `readUnit()` behind a backslash. -/
def readEscape : SnapshotReader JsString := do
  let letter ← takeByte limits revision stop
  if letter = 0x75 then
    let unit ← readUnicodeEscape limits revision stop
    if isHighSurrogate unit then
      if ← hasEscapedLowSurrogate limits revision stop then
        skip 2
        let low ← readUnicodeEscape limits revision stop
        pure [unit, low]
      else pure [unit]
    else pure [unit]
  else
    match unescapeLetter (byteUnit letter) with
    | some unit => pure [unit]
    | none => throw (.syntaxError "invalid string escape in JSON snapshot")

/-- The part of `readUnit()` for a character of several bytes. -/
def readSequence (first : UInt8) : SnapshotReader JsString := do
  if sequenceWidth first = 0 then throw (.syntaxError "invalid UTF-8 in JSON string")
  else if ← fill limits revision stop (sequenceWidth first) then
    let bytes ← peek (sequenceWidth first)
    if bytes.tail.all isContinuation then
      skip (sequenceWidth first)
      match decodeFatal bytes with
      | some text => pure text
      | none => throw (.syntaxError "invalid UTF-8 in JSON string")
    else throw (.syntaxError "invalid UTF-8 in JSON string")
  else throw (.syntaxError "invalid UTF-8 in JSON string")

/-- `readUnit()`. -/
def readUnit : SnapshotReader (Option JsString) := do
  if ← fill limits revision stop 1 then
    let source ← peek 1
    let first := source.headD 0
    if first = 0x22 then
      skip 1
      pure none
    else if first = 0x5C then
      skip 1
      let unit ← readEscape limits revision stop
      pure (some unit)
    else if first.toNat < 0x20 then
      throw (.syntaxError "unescaped control character in JSON snapshot")
    else if first.toNat < 0x80 then
      skip 1
      pure (some [byteUnit first])
    else
      let unit ← readSequence limits revision stop first
      pure (some unit)
  else throw (.syntaxError "unexpected end of JSON string")

/-- `position === range.end`. -/
def atEnd : SnapshotReader Bool := do
  let window ← get
  pure (window.position == stop)

/-- The variables of the loop of `#readEscapedStringRange`. -/
structure PageState where
  decodedOffset : ℕ
  responseOffset : Option ℕ
  bodyBytes : ℕ
  parts : List JsString
  body : JsString

namespace PageState

/-- `append(value)`, with the counts behind it. -/
def append (limits : StoreLimits) (state : PageState) (value : JsString) : PageState :=
  let body := state.body ++ value
  let full := limits.outputUnits ≤ body.length
  { state with
    decodedOffset := state.decodedOffset + byteLength value
    bodyBytes := state.bodyBytes + byteLength value
    parts := if full then state.parts ++ [body] else state.parts
    body := if full then [] else body }

/-- `result(complete)`. -/
def result (state : PageState) (requestedOffset : ℕ) (complete : Bool) : StringPage where
  body := if state.parts = [] then state.body else state.parts.flatten ++ state.body
  complete := complete
  offset := state.responseOffset.getD requestedOffset

end PageState

/-- The loop of `#readEscapedStringRange`. -/
def readUnits (byteLength requestedOffset length : ℕ) : ℕ → PageState → SnapshotReader (Option StringPage)
  | 0, _ => throw .unfinished
  | fuel + 1, state => do
      match ← readUnit limits revision stop with
      | none =>
          if !(← atEnd stop) || state.decodedOffset != byteLength then
            throw (.syntaxError "escaped string index does not match JSON snapshot")
          else pure (some (state.result requestedOffset true))
      | some unit =>
          if state.responseOffset = none ∧ state.decodedOffset < requestedOffset then
            let decodedOffset := state.decodedOffset + Text.byteLength unit
            readUnits byteLength requestedOffset length fuel
              { state with
                decodedOffset
                responseOffset := if decodedOffset ≤ requestedOffset then none else some decodedOffset }
          else
            let state := { state with responseOffset := some (state.responseOffset.getD state.decodedOffset) }
            if length < state.bodyBytes + Text.byteLength unit then
              pure (if state.bodyBytes = 0 then none else some (state.result requestedOffset false))
            else
              let state := state.append limits unit
              if state.decodedOffset = byteLength then
                if (← readUnit limits revision stop).isSome || !(← atEnd stop) then
                  throw (.syntaxError "escaped string index does not match JSON snapshot")
                else pure (some (state.result requestedOffset true))
              else if state.bodyBytes = length then pure (some (state.result requestedOffset false))
              else readUnits byteLength requestedOffset length fuel state

end

/-- `#readEscapedStringRange(revision, range, offset, length)`. Every round reads a byte, so that
there are fewer rounds than the range has bytes. -/
def readEscapedStringRange (range : IndexedField)
    (offset length : ℕ) : Except ReadError (Option StringPage) :=
  match range.stringIndex with
  | none => throw (.syntaxError "escaped string index is unavailable")
  | some index =>
      if revision.readBytes range.start (range.start + 1) ≠ [0x22] then
        throw (.syntaxError "expected string in JSON snapshot")
      else
        let requestedOffset := min offset index.byteLength
        match stringCheckpointAtOrBefore index.checkpoints requestedOffset with
        | none => throw (.syntaxError "escaped string index has no checkpoints")
        | some checkpoint =>
            let position := range.start + checkpoint.serializedOffset
            (readUnits limits revision range.stop index.byteLength requestedOffset length
              (range.stop - range.start + 1)
              { decodedOffset := checkpoint.decodedOffset
                responseOffset := none
                bodyBytes := 0
                parts := []
                body := [] }).run' { position, sourceStart := position, source := [] }

/-- `#readStringRange(revision, range, offset, length)`. -/
def readStringRange (range : IndexedField)
    (offset length : ℤ) : Except ReadError (Option StringPage) :=
  if offset < 0 ∨ length ≤ 0 ∨ range.isString = false then pure none
  else
    match range.plainStringBytes with
    | some plainStringBytes =>
        pure (readPlainStringRange revision range.start plainStringBytes offset.toNat length.toNat)
    | none => readEscapedStringRange limits revision range offset.toNat length.toNat

end GajaeCode.Query
