import GajaeCode.Hashline.Parser
import GajaeCode.Text.PosixPath

/-!
# Sections of a hashline input

An input is cut at its header lines into sections, each with the path of a file and the lines of its
diff. Markers of a patch envelope are dropped and an end or abort marker stops the input. Sections of
one path are then merged, with their diffs joined by newlines.
-/

namespace GajaeCode.Hashline

open Text
open Json (quote)

structure SplitHashlineOptions where
  cwd : Option JsString
  path : Option JsString

structure HashlineInputSection where
  path : JsString
  diff : JsString
  deriving DecidableEq

/-! ## Headers -/

def apostropheUnit : UInt16 := 0x27

def byteOrderMark : UInt16 := 0xFEFF

def unquoteHashlinePath (pathText : JsString) : JsString :=
  if pathText.length < 2 then pathText
  else if (pathText.head? = some Json.quoteUnit ∨ pathText.head? = some apostropheUnit) ∧
      pathText.head? = pathText.getLast? then
    pathText.tail.dropLast
  else pathText

section

variable (processCwd : JsString) (options : SplitHashlineOptions)

/-- A path inside the working directory is made relative to it. -/
def normalizeHashlinePath (rawPath : JsString) : JsString :=
  let unquoted := unquoteHashlinePath (trim rawPath)
  match options.cwd with
  | none => unquoted
  | some cwd =>
    if cwd = [] ∨ isAbsolutePath unquoted = false then unquoted
    else
      let relative := relativePath processCwd cwd unquoted
      if relative = [] ∨ (parentSegment.isPrefixOf relative = false ∧ isAbsolutePath relative = false) then
        if relative = [] then dotSegment else relative
      else unquoted

def emptyHeader : JsString :=
  utf16 "Input header \"" ++ [filePrefixUnit] ++ utf16 "\" is empty; provide a file path."

/-- The path of a header line; a run of header marks counts as one. -/
def parseHashlineHeaderLine (line : JsString) : Except JsString (Option JsString) :=
  if (trimEnd line).head? = some filePrefixUnit then
    let rest := (trimEnd line).dropWhile (· = filePrefixUnit)
    if isBlank rest then .error emptyHeader
    else if normalizeHashlinePath processCwd options rest = [] then .error emptyHeader
    else .ok (some (normalizeHashlinePath processCwd options rest))
  else .ok none

def isPatchEnvelopeMarker (line : JsString) : Bool :=
  trimEnd line = beginPatchMarker || trimEnd line = endPatchMarker

/-! ## The input -/

variable (input : JsString)

def stripByteOrderMark : JsString :=
  if input.head? = some byteOrderMark then input.tail else input

def stripLeadingBlankLines : JsString :=
  joinLines ((splitLines (stripByteOrderMark input)).dropWhile fun line ↦
    isBlank (dropReturn line) || trimEnd (dropReturn line) = beginPatchMarker)

def containsRecognizableHashlineOperations : Bool :=
  (splitCrlfLines input).any fun line ↦ line.head?.any isOpUnit

/-- Whether some line is a header; an empty header is an error. -/
def someHeader : List JsString → Except JsString Bool
  | [] => .ok false
  | line :: rest => do
    let header ← parseHashlineHeaderLine processCwd options line
    if header.isSome then .ok true else someHeader rest

/-- An input without headers gets one for the path of the call. -/
def normalizeFallbackInput : Except JsString JsString := do
  let hasExplicitHeader ← someHeader processCwd options (splitCrlfLines (stripByteOrderMark input))
  if hasExplicitHeader then .ok input
  else
    match options.path with
    | none => .ok input
    | some path =>
      if path = [] ∨ containsRecognizableHashlineOperations input = false then .ok input
      else if normalizeHashlinePath processCwd options path = [] then .ok input
      else .ok (filePrefixUnit :: (normalizeHashlinePath processCwd options path ++ newlineUnit :: input))

/-- `flush`: a section with nothing but blank lines is dropped. -/
def flushSection (currentPath : JsString) (currentLines : List JsString) : List HashlineInputSection :=
  if currentPath = [] then []
  else if currentLines.any (!isBlank ·) then [⟨currentPath, joinLines currentLines⟩]
  else []

/-- The loop over the lines of the input. -/
def scanSections (currentPath : JsString) (currentLines : List JsString) :
    List JsString → Except JsString (List HashlineInputSection)
  | [] => .ok (flushSection currentPath currentLines)
  | line :: rest =>
    if trimEnd line = endPatchMarker ∨ trimEnd line = abortMarker then
      .ok (flushSection currentPath currentLines)
    else if isPatchEnvelopeMarker line then scanSections currentPath currentLines rest
    else do
      match ← parseHashlineHeaderLine processCwd options line with
      | some path =>
        let sections ← scanSections path [] rest
        .ok (flushSection currentPath currentLines ++ sections)
      | none => scanSections currentPath (currentLines ++ [line]) rest

def missingHeader (firstLine : JsString) : JsString :=
  utf16 "input must begin with \"" ++ [filePrefixUnit] ++
    utf16 "PATH\" on the first non-blank line; got: " ++ quote (firstLine.take 120) ++
    utf16 ". Example: \"" ++ [filePrefixUnit] ++ utf16 "src/foo.ts\" then edit ops."

def splitHashlineInputs : Except JsString (List HashlineInputSection) := do
  let normalized ← normalizeFallbackInput processCwd options input
  let lines := splitCrlfLines (stripLeadingBlankLines normalized)
  let firstLine := lines.headD []
  let header ← parseHashlineHeaderLine processCwd options firstLine
  if header.isNone then .error (missingHeader firstLine)
  else scanSections processCwd options [] [] lines

end

/-! ## Merging -/

/-- `byPath`, in the order of first occurrence. -/
def addDiff (byPath : List (JsString × List JsString)) (part : HashlineInputSection) :
    List (JsString × List JsString) :=
  match byPath with
  | [] => [(part.path, [part.diff])]
  | (path, diffs) :: rest =>
    if path = part.path then (path, diffs ++ [part.diff]) :: rest
    else (path, diffs) :: addDiff rest part

def mergeSamePathSections (sections : List HashlineInputSection) : List HashlineInputSection :=
  (sections.foldl addDiff []).map fun (path, diffs) ↦ ⟨path, joinLines diffs⟩

end GajaeCode.Hashline
