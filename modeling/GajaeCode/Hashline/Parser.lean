import GajaeCode.Hashline.Edit
import GajaeCode.Json.Stringify

/-!
# The hashline edit language

A diff is a list of operations. An operation stands on a line that begins with its sigil and names a
cursor or a range of anchors; the lines up to the next operation are its payload, whatever they hold.
The regular expressions of the parser have one way to match at most, and are written here as the scans
they amount to. Line numbers are exact, and the hash of a line is a parameter.
-/

namespace GajaeCode.Hashline

open Text
open Json (quote)

/-! ## Sigils and markers -/

inductive OpSigil
  | insertBefore
  | insertAfter
  | replace
  deriving DecidableEq

def OpSigil.unit : OpSigil → UInt16
  | .insertBefore => 0xAB
  | .insertAfter => 0xBB
  | .replace => 0x2254

def filePrefixUnit : UInt16 := 0xA7

def bodySeparator : UInt16 := 0x7C

def dotUnit : UInt16 := 0x2E

def beginPatchMarker : JsString := utf16 "*** Begin Patch"

def endPatchMarker : JsString := utf16 "*** End Patch"

def abortMarker : JsString := utf16 "*** Abort"

def abortWarning : JsString :=
  utf16 ("Tool stream truncated mid-call due to detected output corruption. Applied ops above are valid. " ++
    "Re-issue any remaining edits.")

def isOpUnit (unit : UInt16) : Bool :=
  unit = OpSigil.insertBefore.unit || unit = OpSigil.insertAfter.unit || unit = OpSigil.replace.unit

def isEnvelopeOrAbortMarkerLine (line : JsString) : Bool :=
  trimEnd line = beginPatchMarker || trimEnd line = endPatchMarker || trimEnd line = abortMarker

def isPayloadTerminatorLine (line : JsString) : Bool :=
  line.head? = some filePrefixUnit || line.head?.any isOpUnit || isEnvelopeOrAbortMarkerLine line

/-! ## Anchors -/

/-- The code units that `.` matches. -/
def isDot (unit : UInt16) : Bool :=
  unit ≠ newlineUnit && unit ≠ returnUnit && unit ≠ 0x2028 && unit ≠ 0x2029

def isLower (unit : UInt16) : Bool := 0x61 ≤ unit.toNat && unit.toNat ≤ 0x7A

/-- `[>+\-*]`. -/
def isDecoration (unit : UInt16) : Bool :=
  unit = 0x3E || unit = 0x2B || unit = minusUnit || unit = 0x2A

/-- `\s*[>+\-*]*\s*`. -/
def skipDecoration (text : JsString) : JsString :=
  ((text.dropWhile isTrimmed).dropWhile isDecoration).dropWhile isTrimmed

/-- `([1-9]\d*)`. -/
def captureNumber : JsString → Option (ℕ × JsString)
  | [] => none
  | first :: rest =>
    if isDigit first && first ≠ 0x30 then
      some (readNat ((first :: rest).takeWhile isDigit), (first :: rest).dropWhile isDigit)
    else none

/-- `([a-z]{2})`. -/
def captureHash : JsString → Option (JsString × JsString)
  | first :: second :: rest =>
    if isLower first && isLower second then some ([first, second], rest) else none
  | _ => none

/-- `(?:\|(.*))?\s*$`, with the captured text. -/
def captureBody : JsString → Option (Option JsString)
  | [] => some none
  | first :: rest =>
    if first = bodySeparator then
      if (rest.dropWhile isDot).all isTrimmed then some (some (rest.takeWhile isDot)) else none
    else if (first :: rest).all isTrimmed then some none
    else none

/-- `LID_CAPTURE_RE`. -/
def captureLid (raw : JsString) : Option Anchor := do
  let (line, rest) ← captureNumber (skipDecoration raw)
  let (hash, rest) ← captureHash rest
  let _ ← captureBody rest
  some ⟨line, hash⟩

/-- `HASH_ONLY_REF_RE`. -/
def captureHashOnly (raw : JsString) : Option JsString := do
  let (hash, rest) ← captureHash (skipDecoration raw)
  let _ ← captureBody rest
  some hash

/-- Two dots with something behind them that may be the end of a range. -/
def startsEndpoint : JsString → Bool
  | first :: second :: rest =>
    first = dotUnit && second = dotUnit &&
      ((captureNumber (skipDecoration rest)).isSome ||
        (captureHash (skipDecoration rest)).any fun (_, behind) ↦
          behind.head? = some bodySeparator || behind.all isTrimmed)
  | _ => false

/-- The copied text of a bare reference, which may not hold the end of a range. -/
def matchesBareText : JsString → Bool
  | [] => true
  | first :: rest =>
    if startsEndpoint (first :: rest) || !isDot first then (first :: rest).all isTrimmed
    else matchesBareText rest

def matchesBareTail : JsString → Bool
  | [] => true
  | first :: rest =>
    if first = bodySeparator then matchesBareText rest else (first :: rest).all isTrimmed

/-- `\s*(?:-|\.\.)\s*([1-9]\d*)`. -/
def captureRangeEnd (text : JsString) : Option (ℕ × JsString) :=
  match text.dropWhile isTrimmed with
  | [] => none
  | first :: rest =>
    if first = minusUnit then captureNumber (rest.dropWhile isTrimmed)
    else if first = dotUnit ∧ rest.head? = some dotUnit then captureNumber (rest.tail.dropWhile isTrimmed)
    else none

/-- `BARE_LINE_REF_RE`. -/
def captureBareLine (raw : JsString) : Option (ℕ × Option ℕ) := do
  let (start, rest) ← captureNumber (skipDecoration raw)
  match captureRangeEnd rest with
  | some (stop, behind) =>
    if matchesBareTail behind then some (start, some stop)
    else if matchesBareTail rest then some (start, none)
    else none
  | none => if matchesBareTail rest then some (start, none) else none

/-! ## Errors -/

inductive HashlineParseError
  | missingHash (message : JsString) (start stop : ℕ) (opSigil : OpSigil)
      (rangeRaw : Option (JsString × JsString))
  | missingLine (hash : JsString) (lineNum : Option ℕ) (opSigil : OpSigil)
      (rangeRaw : Option (JsString × JsString))
  | plain (message : JsString)
  deriving DecidableEq

def HashlineParseError.message : HashlineParseError → JsString
  | .missingHash message _ _ _ _ => message
  | .missingLine hash none _ _ => utf16 "Anchor \"" ++ hash ++ utf16 "\" lacks its line number."
  | .missingLine hash (some lineNum) opSigil _ =>
    utf16 "Anchor \"" ++ hash ++ utf16 "\" lacks its line number. Did you mean " ++ [opSigil.unit] ++
      natText lineNum ++ hash ++ utf16 "?"
  | .plain message => message

/-- The error of one end of a range names the whole range. -/
def HashlineParseError.withRange (rangeRaw : JsString × JsString) : HashlineParseError → HashlineParseError
  | .missingHash message start stop opSigil _ => .missingHash message start stop opSigil (some rangeRaw)
  | .missingLine hash lineNum opSigil _ => .missingLine hash lineNum opSigil (some rangeRaw)
  | .plain message => .plain message

/-- `line N: `. -/
def linePart (lineNum : ℕ) : JsString := utf16 "line " ++ natText lineNum ++ utf16 ": "

def describeAnchorExamples (lineText : JsString) : JsString :=
  (utf16 ", ").intercalate
    ([utf16 "sr", utf16 "ab", utf16 "th"].map fun hash ↦ utf16 "\"" ++ lineText ++ hash ++ utf16 "\"")

def parseLid (raw : JsString) (lineNum : ℕ) (opSigil : OpSigil) : Except HashlineParseError Anchor :=
  match captureLid raw with
  | some anchor => .ok anchor
  | none =>
    match captureHashOnly raw with
    | some hash => .error (.missingLine hash none opSigil none)
    | none =>
      match captureBareLine raw with
      | some (start, stop) =>
        .error (.missingHash
          (linePart lineNum ++ utf16 "anchor " ++ quote (trim raw) ++ utf16 " is missing its hash.")
          (min start (stop.getD start)) (max start (stop.getD start)) opSigil none)
      | none =>
        .error (.plain
          (linePart lineNum ++ utf16 "expected a full anchor such as " ++ describeAnchorExamples (utf16 "119") ++
            utf16 "; got " ++ quote raw ++ utf16 "."))

/-! ## Ranges -/

structure ParsedRange where
  start : Anchor
  stop : Anchor
  deriving DecidableEq

/-- `raw.split("..")`. -/
def splitDots : JsString → List JsString
  | [] => [[]]
  | [unit] => [[unit]]
  | first :: second :: rest =>
    if first = dotUnit ∧ second = dotUnit then [] :: splitDots rest
    else (splitDots (second :: rest)).modifyHead (first :: ·)

/-- Both ends of a range, with the errors that name the range. -/
def parseRangeEnds (startRaw endRaw : JsString) (lineNum : ℕ) (opSigil : OpSigil) :
    Except HashlineParseError ParsedRange := do
  let start ← (parseLid startRaw lineNum opSigil).mapError (.withRange (startRaw, endRaw))
  let stop ← (parseLid endRaw lineNum opSigil).mapError (.withRange (startRaw, endRaw))
  if stop.line < start.line then
    .error (.plain
      (linePart lineNum ++ utf16 "range " ++ startRaw ++ utf16 ".." ++ endRaw ++
        utf16 " ends before it starts."))
  else if stop.line = start.line ∧ stop.hash ≠ start.hash then
    .error (.plain
      (linePart lineNum ++ utf16 "range " ++ startRaw ++ utf16 ".." ++ endRaw ++
        utf16 " uses two different hashes for the same line."))
  else .ok ⟨start, stop⟩

def incompleteRange (lineNum : ℕ) : HashlineParseError :=
  .plain (linePart lineNum ++
    utf16 ("range must include exactly two full anchors separated by \"..\". " ++
      "For a one-line edit, repeat the same anchor on both sides."))

def parseRangeParts (raw : JsString) (lineNum : ℕ) (opSigil : OpSigil) :
    Except HashlineParseError ParsedRange :=
  match splitDots raw with
  | [_] => (parseLid raw lineNum opSigil).map fun start ↦ ⟨start, start⟩
  | [startRaw, endRaw] =>
    if startRaw = [] ∨ endRaw = [] then .error (incompleteRange lineNum)
    else parseRangeEnds startRaw endRaw lineNum opSigil
  | _ => .error (incompleteRange lineNum)

/-- A range of bare numbers is rejected as a whole. -/
def parseRange (raw : JsString) (lineNum : ℕ) (opSigil : OpSigil) : Except HashlineParseError ParsedRange := do
  if (captureBareLine raw).isSome then
    let _ ← parseLid raw lineNum opSigil
  parseRangeParts raw lineNum opSigil

def expandRange (range : ParsedRange) : List Anchor :=
  (List.range (range.stop.line + 1 - range.start.line)).map fun offset ↦
    let line := range.start.line + offset
    ⟨line,
      if line = range.start.line then range.start.hash
      else if line = range.stop.line then range.stop.hash
      else rangeInteriorHash⟩

/-! ## Operations -/

/-- `INSERT_BEFORE_OP_RE` and `INSERT_AFTER_OP_RE`: the target, and the text behind the separator. -/
def captureInsert (opSigil : OpSigil) : JsString → Option (JsString × Option JsString)
  | [] => none
  | first :: rest =>
    let text := rest.dropWhile isTrimmed
    let target := text.takeWhile fun unit ↦ unit ≠ bodySeparator && !isTrimmed unit
    if first = opSigil.unit ∧ target ≠ [] then
      (captureBody (text.drop target.length)).map fun body ↦ (target, body)
    else none

/-- `[+<\-=]`, which may not begin a range. -/
def isRangeStray (unit : UInt16) : Bool :=
  unit = 0x2B || unit = 0x3C || unit = minusUnit || unit = 0x3D

/-- `REPLACE_OP_RE`. -/
def captureReplace : JsString → Option JsString
  | [] => none
  | first :: rest =>
    let text := rest.dropWhile isTrimmed
    let run := text.takeWhile (!isTrimmed ·)
    if first = OpSigil.replace.unit ∧ text ≠ [] ∧ text.head?.any isRangeStray = false then
      if (text.drop run.length).all isTrimmed then some run
      else if bodySeparator ∈ run.tail ∧ (text.dropWhile isDot).all isTrimmed then some (text.takeWhile isDot)
      else none
    else none

def parseInsertTarget (raw : JsString) (lineNum : ℕ) (opSigil : OpSigil) :
    Except HashlineParseError HashlineCursor :=
  if raw = utf16 "BOF" then .ok .bof
  else if raw = utf16 "EOF" then .ok .eof
  else (parseLid raw lineNum opSigil).map
    (if opSigil = .insertBefore then .beforeAnchor else .afterAnchor)

/-- Context for diagnosing an insert without payload lines. -/
structure EmptyInsertContext where
  op : JsString
  echoedAnchorText : Bool
  deriving DecidableEq

def insertSigils : JsString :=
  [OpSigil.insertBefore.unit] ++ utf16 " and " ++ [OpSigil.insertAfter.unit]

def formatEmptyInsertError (opLineNum : ℕ) (context : EmptyInsertContext) : JsString :=
  linePart opLineNum ++ insertSigils ++ utf16 " operations require at least one verbatim payload line." ++
    if context.echoedAnchorText then
      utf16 " The text after \"|\" on \"" ++ context.op ++
        utf16 ("|…\" matches the supplied anchor hash, so it was read as an anchor echo, not as new content. " ++
          "Put the lines to insert on the lines after \"") ++ context.op ++ utf16 "\"."
    else
      utf16 " To insert a single blank line, put one empty line after \"" ++ context.op ++
        utf16 "\" (when it is the last op, the edit input ends with two newlines)."

/-- An operation line that has been read. -/
inductive HashlineOp
  | insert (cursor : HashlineCursor) (inlineBody : Option JsString) (emptyInsert : Option EmptyInsertContext)
  | replace (range : ParsedRange)
  deriving DecidableEq

section

variable (computeLineHash : ℕ → JsString → JsString)

/-- The text behind the separator, unless it repeats the anchored line. -/
def resolveInlineInsertBody (cursor : HashlineCursor) (body : Option JsString) : Option JsString :=
  match body, cursor.anchor? with
  | some text, some anchor => if computeLineHash anchor.line text = anchor.hash then none else some text
  | body, _ => body

/-- Payload is required only when the operation line carries no usable text. -/
def emptyInsertContext (opSigil : OpSigil) (target : JsString) (body inlineBody : Option JsString) :
    Option EmptyInsertContext :=
  if inlineBody.isSome then none else some ⟨opSigil.unit :: target, body.isSome⟩

def parseInsert (opSigil : OpSigil) (lineNum : ℕ) (target : JsString) (body : Option JsString) :
    Except HashlineParseError HashlineOp := do
  let cursor ← parseInsertTarget target lineNum opSigil
  let inlineBody := resolveInlineInsertBody computeLineHash cursor body
  .ok (.insert cursor inlineBody (emptyInsertContext opSigil target body inlineBody))

def unrecognizedOp (lineNum : ℕ) (line : JsString) : JsString :=
  linePart lineNum ++ utf16 "unrecognized op. Use " ++ [OpSigil.insertBefore.unit] ++
    utf16 "ANCHOR (insert before), " ++ [OpSigil.insertAfter.unit] ++
    utf16 "ANCHOR (insert after), or " ++ [OpSigil.replace.unit] ++
    utf16 "A..B (replace/delete). Got " ++ quote line ++ utf16 "."

def payloadWithoutOp (lineNum : ℕ) (line : JsString) : JsString :=
  linePart lineNum ++ utf16 "payload line has no preceding " ++ [OpSigil.insertBefore.unit] ++ utf16 ", " ++
    [OpSigil.insertAfter.unit] ++ utf16 ", or " ++ [OpSigil.replace.unit] ++ utf16 " operation. Got " ++
    quote line ++ utf16 "."

/-- `/^[-@\u00B6]/u`. -/
def startsLikeOp (line : JsString) : Bool :=
  line.head?.any fun unit ↦ unit = minusUnit || unit = 0x40 || unit = 0xB6

def parseOpLine (lineNum : ℕ) (line : JsString) : Except HashlineParseError HashlineOp :=
  match captureInsert .insertBefore line with
  | some (target, body) => parseInsert computeLineHash .insertBefore lineNum target body
  | none =>
    match captureInsert .insertAfter line with
    | some (target, body) => parseInsert computeLineHash .insertAfter lineNum target body
    | none =>
      match captureReplace line with
      | some raw => (parseRange raw lineNum .replace).map .replace
      | none =>
        if isPayloadTerminatorLine line || startsLikeOp line then .error (.plain (unrecognizedOp lineNum line))
        else .error (.plain (payloadWithoutOp lineNum line))

/-! ## The loop -/

/-- An edit without its source line and index. -/
inductive EditShape
  | insert (cursor : HashlineCursor) (text : JsString)
  | delete (anchor : Anchor)
  deriving DecidableEq

def EditShape.toEdit (lineNum : ℕ) : EditShape × ℕ → HashlineEdit
  | (.insert cursor text, index) => .insert ⟨cursor, text, lineNum, index⟩
  | (.delete anchor, index) => .delete ⟨anchor, lineNum, index⟩

def HashlineEdit.shape : HashlineEdit → EditShape
  | .insert edit => .insert edit.cursor edit.text
  | .delete edit => .delete edit.anchor

/-- The edits of an operation with its payload, in the order in which they are pushed. -/
def HashlineOp.shapes : HashlineOp → List JsString → List EditShape
  | .insert cursor inlineBody _, payload => (inlineBody.toList ++ payload).map (.insert cursor)
  | .replace range, payload =>
    payload.map (.insert (.beforeAnchor range.start)) ++ (expandRange range).map .delete

/-- The payload lines of an operation; an insert without text needs one. -/
def collectPayload (opLineNum : ℕ) (op : HashlineOp) (rest : List JsString) :
    Except HashlineParseError (List JsString) :=
  match rest.takeWhile (!isPayloadTerminatorLine ·), op with
  | [], .insert _ _ (some context) => .error (.plain (formatEmptyInsertError opLineNum context))
  | payload, _ => .ok payload

structure ParsedHashline where
  edits : List HashlineEdit
  warnings : List JsString
  deriving DecidableEq

/-- The loop over the lines, with as many rounds as there are lines. -/
def parseLines : ℕ → ℕ → ℕ → List JsString → Except HashlineParseError ParsedHashline
  | 0, _, _, _ => .ok ⟨[], []⟩
  | _ + 1, _, _, [] => .ok ⟨[], []⟩
  | rounds + 1, lineNum, editIndex, line :: rest =>
    if isBlank line then parseLines rounds (lineNum + 1) editIndex rest
    else if line = endPatchMarker then .ok ⟨[], []⟩
    else if line = abortMarker then .ok ⟨[], [abortWarning]⟩
    else if line = beginPatchMarker then parseLines rounds (lineNum + 1) editIndex rest
    else do
      let op ← parseOpLine computeLineHash lineNum line
      let payload ← collectPayload lineNum op rest
      let edits := ((op.shapes payload).zipIdx editIndex).map (EditShape.toEdit lineNum)
      let parsed ← parseLines rounds (lineNum + 1 + payload.length) (editIndex + edits.length)
        (rest.drop payload.length)
      .ok ⟨edits ++ parsed.edits, parsed.warnings⟩

/-- The lines of a diff, without the empty one behind a last newline. -/
def diffLines (diff : JsString) : List JsString :=
  if diff.getLast? = some newlineUnit ∧ (splitCrlfLines diff).getLast? = some [] then
    (splitCrlfLines diff).dropLast
  else splitCrlfLines diff

def parseHashlineWithWarnings (diff : JsString) : Except HashlineParseError ParsedHashline :=
  parseLines computeLineHash (diffLines diff).length 1 0 (diffLines diff)

end

end GajaeCode.Hashline
