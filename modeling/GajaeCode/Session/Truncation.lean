import GajaeCode.Text.Lines
import GajaeCode.Text.Utf8Boundary

/-!
# Truncating long outputs

`truncateHead` keeps whole lines from the start, `truncateTail` from the end or, when the last line
alone is too long, the end of that line. `truncateMiddle` keeps both and puts a marker between them.
Positions are UTF-16 indices, budgets are lines and UTF-8 bytes.
-/

namespace GajaeCode.Session

open Text

def defaultMaxLines : ℕ := 3000

def defaultMaxBytes : ℕ := 50 * 1024

structure TruncationOptions where
  maxLines : Option ℕ
  maxBytes : Option ℕ
  maxHeadBytes : Option ℕ
  maxHeadLines : Option ℕ

inductive TruncatedBy
  | lines
  | bytes
  | middle
  deriving DecidableEq

/-- An absent flag is false. -/
structure TruncationResult where
  content : JsString
  truncated : Bool
  truncatedBy : Option TruncatedBy
  totalLines : ℕ
  totalBytes : ℕ
  outputLines : Option ℕ
  outputBytes : Option ℕ
  elidedBytes : Option ℕ
  elidedLines : Option ℕ
  lastLinePartial : Bool
  firstLineExceedsLimit : Bool
  lastLineExceedsLimit : Bool
  deriving DecidableEq

def countNewlines (text : JsString) : ℕ := text.count newlineUnit

variable (content : JsString) (totalLines totalBytes : ℕ)

def noTruncResult : TruncationResult where
  content := content
  truncated := false
  truncatedBy := none
  totalLines := totalLines
  totalBytes := totalBytes
  outputLines := none
  outputBytes := none
  elidedBytes := none
  elidedLines := none
  lastLinePartial := false
  firstLineExceedsLimit := false
  lastLineExceedsLimit := false

/-! ## From the start -/

/-- The line that begins at an index, up to its newline or the end. -/
def lineFrom (cursor : ℕ) : JsString :=
  (content.drop cursor).takeWhile (· ≠ newlineUnit)

/-- A newline stands before every line but the first. -/
def separatorBytes (includedLines : ℕ) : ℕ := if 0 < includedLines then 1 else 0

structure HeadScan where
  includedLines : ℕ
  bytesUsed : ℕ
  cutIndex : ℕ
  truncatedBy : TruncatedBy
  exceeds : Bool

/-- The loop of `truncateHead`, with the number of lines that may still be included. -/
def scanHead (content : JsString) (maxBytes : ℕ) : ℕ → ℕ → ℕ → ℕ → ℕ → HeadScan
  | 0, _, includedLines, bytesUsed, cutIndex => ⟨includedLines, bytesUsed, cutIndex, .lines, false⟩
  | rounds + 1, cursor, includedLines, bytesUsed, cutIndex =>
    if maxBytes < bytesUsed + separatorBytes includedLines then
      ⟨includedLines, bytesUsed, cutIndex, .bytes, false⟩
    else if maxBytes - bytesUsed - separatorBytes includedLines < (lineFrom content cursor).length then
      ⟨includedLines, bytesUsed, cutIndex, .bytes, includedLines = 0⟩
    else if maxBytes - bytesUsed - separatorBytes includedLines < byteLength (lineFrom content cursor) then
      ⟨includedLines, bytesUsed, cutIndex, .bytes, includedLines = 0⟩
    else if cursor + (lineFrom content cursor).length = content.length then
      ⟨includedLines + 1, bytesUsed + (separatorBytes includedLines + byteLength (lineFrom content cursor)),
        content.length, .lines, false⟩
    else
      scanHead content maxBytes rounds (cursor + (lineFrom content cursor).length + 1) (includedLines + 1)
        (bytesUsed + (separatorBytes includedLines + byteLength (lineFrom content cursor)))
        (cursor + (lineFrom content cursor).length)

def truncateHead (maxLines maxBytes : ℕ) : TruncationResult :=
  let totalBytes := byteLength content
  let totalLines := countNewlines content + 1
  if totalLines ≤ maxLines ∧ totalBytes ≤ maxBytes then noTruncResult content totalLines totalBytes
  else
    let scan := scanHead content maxBytes maxLines 0 0 0 0
    { content := if scan.exceeds then [] else content.take scan.cutIndex
      truncated := true
      truncatedBy := some
        (if scan.exceeds then .bytes
        else if maxLines ≤ scan.includedLines ∧ scan.bytesUsed ≤ maxBytes then .lines
        else scan.truncatedBy)
      totalLines := totalLines
      totalBytes := totalBytes
      outputLines := some (if scan.exceeds then 0 else scan.includedLines)
      outputBytes := some (if scan.exceeds then 0 else scan.bytesUsed)
      elidedBytes := none
      elidedLines := none
      lastLinePartial := false
      firstLineExceedsLimit := scan.exceeds
      lastLineExceedsLimit := false }

/-! ## From the end -/

/-- `truncateTailBytes` of a string: the last bytes, from the start of a character on. -/
def truncateTailBytes (data : JsString) (maxBytes : ℕ) : JsString × ℕ :=
  if maxBytes = 0 then ([], 0)
  else if data.length ≤ maxBytes ∧ byteLength data ≤ maxBytes then (data, byteLength data)
  else
    let buffer := encodeUtf8 (data.drop (data.length - maxBytes))
    let startAt := buffer.length - maxBytes
    let start := startAt + ((buffer.drop startAt).takeWhile isContinuation).length
    (decodeUtf8 (buffer.drop start), (buffer.drop start).length)

/-- `content.lastIndexOf("\n", position)`. -/
def lastNewline (content : JsString) : ℕ → Option ℕ
  | 0 => if content[0]? = some newlineUnit then some 0 else none
  | position + 1 =>
    if content[position + 1]? = some newlineUnit then some (position + 1)
    else lastNewline content position

def lineStartOf : Option ℕ → ℕ
  | none => 0
  | some newline => newline + 1

inductive TailScan
  | whole (includedLines bytesUsed startIndex : ℕ) (truncatedBy : TruncatedBy)
  | partialLine (text : JsString) (bytes : ℕ)

/-- The loop of `truncateTail`. A search from before the start finds a newline at the start, as
`lastIndexOf` does for a negative position. -/
def scanTail (content : JsString) (maxBytes : ℕ) : ℕ → ℕ → ℕ → ℕ → ℕ → TailScan
  | 0, _, includedLines, bytesUsed, startIndex => .whole includedLines bytesUsed startIndex .lines
  | rounds + 1, stop, includedLines, bytesUsed, startIndex =>
    let newline := lastNewline content (stop - 1)
    let lineStart := lineStartOf newline
    let line := (content.take stop).drop lineStart
    if maxBytes < bytesUsed + separatorBytes includedLines then
      .whole includedLines bytesUsed startIndex .bytes
    else if maxBytes - bytesUsed - separatorBytes includedLines < stop - lineStart then
      if includedLines = 0 then
        let window := (content.take stop).drop (max lineStart (stop - maxBytes))
        .partialLine (truncateTailBytes window maxBytes).1 (truncateTailBytes window maxBytes).2
      else .whole includedLines bytesUsed startIndex .bytes
    else if maxBytes - bytesUsed - separatorBytes includedLines < byteLength line then
      if includedLines = 0 then
        .partialLine (truncateTailBytes line maxBytes).1 (truncateTailBytes line maxBytes).2
      else .whole includedLines bytesUsed startIndex .bytes
    else
      match newline with
      | none =>
        .whole (includedLines + 1) (bytesUsed + (separatorBytes includedLines + byteLength line)) lineStart
          .lines
      | some newline =>
        scanTail content maxBytes rounds newline (includedLines + 1)
          (bytesUsed + (separatorBytes includedLines + byteLength line)) lineStart

def truncateTail (maxLines maxBytes : ℕ) : TruncationResult :=
  let totalBytes := byteLength content
  let totalLines := countNewlines content + 1
  if totalLines ≤ maxLines ∧ totalBytes ≤ maxBytes then noTruncResult content totalLines totalBytes
  else
    match scanTail content maxBytes maxLines content.length 0 0 content.length with
    | .partialLine text bytes =>
      { content := text
        truncated := true
        truncatedBy := some .bytes
        totalLines := totalLines
        totalBytes := totalBytes
        outputLines := some 1
        outputBytes := some bytes
        elidedBytes := none
        elidedLines := none
        lastLinePartial := true
        firstLineExceedsLimit := false
        lastLineExceedsLimit := true }
    | .whole includedLines bytesUsed startIndex truncatedBy =>
      { content := content.drop startIndex
        truncated := true
        truncatedBy := some
          (if maxLines ≤ includedLines ∧ bytesUsed ≤ maxBytes then .lines else truncatedBy)
        totalLines := totalLines
        totalBytes := totalBytes
        outputLines := some includedLines
        outputBytes := some bytesUsed
        elidedBytes := none
        elidedLines := none
        lastLinePartial := false
        firstLineExceedsLimit := false
        lastLineExceedsLimit := false }

/-! ## Windows -/

inductive SegmentKind
  | lines
  | partialLine
  deriving DecidableEq

/-- A retained part of the source, with its first and last line. -/
structure ReadSegment where
  kind : SegmentKind
  content : JsString
  lines : ℕ
  bytes : ℕ
  startLine : ℕ
  endLine : ℕ
  sourceLineBytes : Option ℕ
  lastLinePartial : Bool
  deriving DecidableEq

inductive WindowKind
  | full
  | headOnly
  | tailOnly
  | middle
  deriving DecidableEq

inductive WindowOverlap
  | disjoint
  | adjacent
  | overlapping
  deriving DecidableEq

structure ReadWindow where
  kind : WindowKind
  head : Option ReadSegment
  tail : Option ReadSegment
  overlap : WindowOverlap
  elidedLines : ℕ
  elidedBytes : ℕ
  totalLines : ℕ
  totalBytes : ℕ
  truncatedBy : Option TruncatedBy
  deriving DecidableEq

variable (result : TruncationResult)

def outputLineCount : ℕ :=
  result.outputLines.getD (if result.content.length = 0 then 0 else countNewlines result.content + 1)

def outputByteCount : ℕ :=
  result.outputBytes.getD (byteLength result.content)

/-- The bytes behind the last newline. -/
def lastSourceLineBytes : ℕ :=
  byteLength (content.drop (lineStartOf (lastNewline content (content.length - 1))))

def makeReadSegment (startLine totalLines : ℕ) (sourceContent : JsString) : Option ReadSegment :=
  let lines := outputLineCount result
  if lines = 0 then none
  else
    let bytes := outputByteCount result
    let endLine := min totalLines (startLine + lines - 1)
    if result.lastLinePartial then
      some ⟨.partialLine, result.content, 1, bytes, endLine, endLine,
        some (lastSourceLineBytes sourceContent), true⟩
    else some ⟨.lines, result.content, lines, bytes, startLine, endLine, none, false⟩

def fullReadWindow (overlap : WindowOverlap) : ReadWindow where
  kind := .full
  head := some ⟨.lines, content, totalLines, totalBytes, 1, totalLines, none, false⟩
  tail := none
  overlap := overlap
  elidedLines := 0
  elidedBytes := 0
  totalLines := totalLines
  totalBytes := totalBytes
  truncatedBy := none

def oneSided (kind : WindowKind) (result : TruncationResult) (startLine : ℕ) : ReadWindow :=
  let segment := makeReadSegment result startLine totalLines content
  { kind := kind
    head := if kind = .headOnly then segment else none
    tail := if kind = .headOnly then none else segment
    overlap := .disjoint
    elidedLines := totalLines - outputLineCount result
    elidedBytes := totalBytes - outputByteCount result
    totalLines := totalLines
    totalBytes := totalBytes
    truncatedBy := some (if result.truncatedBy = some .lines then .lines else .bytes) }

namespace TruncationOptions

variable (options : TruncationOptions)

def bytes : ℕ := options.maxBytes.getD defaultMaxBytes

def lines : ℕ := options.maxLines.getD defaultMaxLines

def headBytes : ℕ := options.maxHeadBytes.getD (options.bytes / 2)

def tailBytes : ℕ := options.bytes - options.headBytes

def headLines : ℕ := options.maxHeadLines.getD (max 1 (options.lines / 2))

def tailLines : ℕ := options.lines - options.headLines

/-- `value || fallback`. -/
def orElse (value fallback : ℕ) : ℕ := if value = 0 then fallback else value

end TruncationOptions

open TruncationOptions (orElse)

/-- The two windows, once both are usable. -/
def middleWindows (head tail : TruncationResult) : ReadWindow :=
  let headEnd := outputLineCount head
  let tailStart := totalLines - outputLineCount tail + 1
  let overlap : WindowOverlap :=
    if headEnd + 1 < tailStart then .disjoint
    else if headEnd + 1 = tailStart then .adjacent else .overlapping
  if totalLines ≤ outputLineCount head + outputLineCount tail ∧ tail.lastLinePartial = false then
    fullReadWindow content totalLines totalBytes overlap
  else
    match makeReadSegment head 1 totalLines content, makeReadSegment tail tailStart totalLines content with
    | some headWindow, some tailWindow =>
      { kind := .middle
        head := some headWindow
        tail := some tailWindow
        overlap := overlap
        elidedLines :=
          if tail.lastLinePartial then tailStart - headEnd - 1
          else totalLines - outputLineCount head - outputLineCount tail
        elidedBytes :=
          if tail.lastLinePartial then
            totalBytes - outputByteCount head - tailWindow.sourceLineBytes.getD tailWindow.bytes
          else totalBytes - outputByteCount head - outputByteCount tail
        totalLines := totalLines
        totalBytes := totalBytes
        truncatedBy := some .middle }
    | _, _ => fullReadWindow content totalLines totalBytes overlap

def truncateMiddleWindows (options : TruncationOptions) : ReadWindow :=
  let totalBytes := byteLength content
  let totalLines := countNewlines content + 1
  if totalBytes ≤ options.bytes ∧ totalLines ≤ options.lines then
    fullReadWindow content totalLines totalBytes .disjoint
  else if options.headBytes = 0 ∨ options.headLines = 0 then
    let tail := truncateTail content (orElse options.tailLines options.lines)
      (orElse options.tailBytes options.bytes)
    oneSided content totalLines totalBytes .tailOnly tail (totalLines - outputLineCount tail + 1)
  else if options.tailBytes = 0 ∨ options.tailLines = 0 then
    let head := truncateHead content options.headLines options.headBytes
    oneSided content totalLines totalBytes .headOnly head 1
  else
    let head := truncateHead content options.headLines options.headBytes
    let tail := truncateTail content options.tailLines options.tailBytes
    if outputLineCount head = 0 ∨ head.firstLineExceedsLimit = true then
      oneSided content totalLines totalBytes .tailOnly tail (totalLines - outputLineCount tail + 1)
    else if outputLineCount tail = 0 then oneSided content totalLines totalBytes .headOnly head 1
    else middleWindows content totalLines totalBytes head tail

/-! ## The composed result -/

section

variable (toLocaleString formatBytes : ℕ → JsString)

def formatMiddleElisionMarker (elidedLines elidedBytes : ℕ) : JsString :=
  utf16 "[… " ++ toLocaleString elidedLines ++ utf16 " line" ++
    (if elidedLines = 1 then [] else utf16 "s") ++ utf16 " elided (" ++ formatBytes elidedBytes ++ utf16 ") …]"

def truncateMiddle (content : JsString) (options : TruncationOptions) : TruncationResult :=
  let windows := truncateMiddleWindows content options
  match windows.kind with
  | .full => noTruncResult content windows.totalLines windows.totalBytes
  | .tailOnly =>
    truncateTail content (orElse options.tailLines options.lines) (orElse options.tailBytes options.bytes)
  | .headOnly => truncateHead content options.headLines options.headBytes
  | .middle =>
    match windows.head, windows.tail with
    | some head, some tail =>
      if windows.totalLines ≤ head.lines + tail.lines then
        noTruncResult content windows.totalLines windows.totalBytes
      else
        let elidedLines := windows.totalLines - head.lines - tail.lines
        let elidedBytes :=
          if tail.kind = .partialLine then windows.totalBytes - head.bytes - tail.bytes
          else windows.elidedBytes
        let marker := formatMiddleElisionMarker toLocaleString formatBytes elidedLines elidedBytes
        { content := head.content ++ newlineUnit :: (marker ++ newlineUnit :: tail.content)
          truncated := true
          truncatedBy := some .middle
          totalLines := windows.totalLines
          totalBytes := windows.totalBytes
          outputLines := some (head.lines + tail.lines + 1)
          outputBytes := some (head.bytes + tail.bytes + byteLength marker + 2)
          elidedBytes := some elidedBytes
          elidedLines := some elidedLines
          lastLinePartial := tail.lastLinePartial
          firstLineExceedsLimit := false
          lastLineExceedsLimit := tail.lastLinePartial }
    | _, _ => noTruncResult content windows.totalLines windows.totalBytes

end

end GajaeCode.Session
