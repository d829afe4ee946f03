import GajaeCode.Text.Lines
import Mathlib.Algebra.Order.Group.Nat
import Mathlib.Data.List.TakeWhile

/-!
# Indentation of a replacement

A replacement is written for the indentation of the text that was asked for; it is moved to the
indentation of the text that was found. Whatever is moved, a replacement keeps its number of lines.
-/

namespace GajaeCode.Edit

open Text List

variable {line : JsString}

def spaceUnit : UInt16 := 0x20

def tabUnit : UInt16 := 0x09

def isIndentUnit (unit : UInt16) : Bool := unit = spaceUnit || unit = tabUnit

def getLeadingWhitespace (line : JsString) : JsString := line.takeWhile isIndentUnit

def countLeadingWhitespace (line : JsString) : ℕ := (getLeadingWhitespace line).length

def isNonEmptyLine (line : JsString) : Bool := !isBlank line

variable (text : JsString)

def detectIndentChar : UInt16 :=
  ((splitLines text).findSome? fun line ↦ (getLeadingWhitespace line).head?).getD spaceUnit

structure IndentProfile where
  lines : List JsString
  char : Option UInt16
  spaceOnly : Bool
  tabOnly : Bool
  mixed : Bool
  unit : ℕ
  nonEmptyCount : ℕ

def buildIndentProfile : IndentProfile :=
  let indents := ((splitLines text).filter isNonEmptyLine).map getLeadingWhitespace
  let char := indents.findSome? List.head?
  let spaceOnly := indents.all fun indent ↦ tabUnit ∉ indent
  let tabOnly := indents.all fun indent ↦ spaceUnit ∉ indent
  { lines := splitLines text
    char, spaceOnly, tabOnly
    mixed := indents.any fun indent ↦ (spaceUnit ∈ indent && tabUnit ∈ indent) ||
      (indent ≠ [] && indent.head? ≠ char)
    unit := if indents = [] then 0 else if tabOnly then 1
      else if spaceOnly then (indents.map List.length).foldl Nat.gcd 0 else 0
    nonEmptyCount := indents.length }

/-- `line.trimStart()` after as many spaces as the tabs stand for. -/
def convertLine (spacesPerTab : ℕ) (line : JsString) : JsString :=
  let leading := getLeadingWhitespace line
  if isBlank line || tabUnit ∉ leading || spaceUnit ∈ leading then line
  else List.replicate (leading.length * spacesPerTab) spaceUnit ++ line.dropWhile isTrimmed

def convertLeadingTabsToSpaces (spacesPerTab : ℕ) : JsString :=
  if spacesPerTab = 0 then text else joinLines ((splitLines text).map (convertLine spacesPerTab))

def isIndentationOnlyRewrite (oldText newText : JsString) : Bool :=
  (splitLines oldText).map trim = (splitLines newText).map trim

/-- The pairs of lines that have something on both sides. -/
def nonEmptyPairs (old actual : IndentProfile) : List (JsString × JsString) :=
  (old.lines.zip actual.lines).filter fun pair ↦ isNonEmptyLine pair.1 && isNonEmptyLine pair.2

def maybeConvertTabIndentation (old actual new : IndentProfile) (newText : JsString) : Option JsString :=
  if !actual.spaceOnly || !old.tabOnly || !new.tabOnly || actual.unit = 0 then none
  else if (nonEmptyPairs old actual).all fun pair ↦ countLeadingWhitespace pair.1 = 0 ||
      countLeadingWhitespace pair.2 = countLeadingWhitespace pair.1 * actual.unit then
    some (convertLeadingTabsToSpaces newText actual.unit)
  else none

def computeUniformIndentDelta (old actual : IndentProfile) : Option ℤ :=
  match (nonEmptyPairs old actual).map fun pair ↦
      (countLeadingWhitespace pair.2 : ℤ) - countLeadingWhitespace pair.1 with
  | [] => none
  | delta :: rest => if rest.all (· = delta) then some delta else none

def shiftLine (delta : ℤ) (indentChar : UInt16) (line : JsString) : JsString :=
  if !isNonEmptyLine line then line
  else if 0 < delta then List.replicate delta.toNat indentChar ++ line
  else line.drop (min (-delta).toNat (countLeadingWhitespace line))

def applyIndentDelta (delta : ℤ) (indentChar : UInt16) : JsString :=
  joinLines ((splitLines text).map (shiftLine delta indentChar))

def adjustIndentation (oldText actualText newText : JsString) : JsString :=
  let old := buildIndentProfile oldText
  let actual := buildIndentProfile actualText
  let new := buildIndentProfile newText
  let differ (left right : Option UInt16) : Bool := left.isSome && right.isSome && left ≠ right
  if oldText = actualText || isIndentationOnlyRewrite oldText newText then newText
  else if old.nonEmptyCount = 0 || actual.nonEmptyCount = 0 || new.nonEmptyCount = 0 then newText
  else if old.mixed || actual.mixed || new.mixed then newText
  else if differ old.char actual.char then
    (maybeConvertTabIndentation old actual new newText).getD newText
  else
    match computeUniformIndentDelta old actual with
    | none => newText
    | some delta =>
      if delta = 0 || differ new.char actual.char then newText
      else applyIndentDelta newText delta
        ((actual.char.or old.char).getD (detectIndentChar actualText))

/-! ## The number of lines -/

theorem length_splitLines_joinLines_map {change : JsString → JsString}
    (h : ∀ line, newlineUnit ∉ line → newlineUnit ∉ change line) :
    (splitLines (joinLines ((splitLines text).map change))).length = (splitLines text).length := by
  have hlines : ∀ line ∈ (splitLines text).map change, newlineUnit ∉ line := by
    rw [forall_mem_map]
    exact fun line hline ↦ h line (newlineUnit_notMem_of_mem_splitLines hline)
  have hne : (splitLines text).map change ≠ [] := by simp [splitLines_ne_nil]
  rw [splitLines_joinLines hne, flatMap_splitLines hlines, length_map]

theorem newlineUnit_notMem_convertLine (spacesPerTab : ℕ) (h : newlineUnit ∉ line) :
    newlineUnit ∉ convertLine spacesPerTab line := by
  rw [convertLine]
  split_ifs
  · exact h
  · rw [mem_append, not_or]
    refine ⟨fun hmem ↦ ?_, fun hmem ↦ h ((dropWhile_suffix _).subset hmem)⟩
    exact absurd (eq_of_mem_replicate hmem) (by decide)

theorem newlineUnit_notMem_shiftLine (delta : ℤ) {indentChar : UInt16} (hchar : newlineUnit ≠ indentChar)
    (h : newlineUnit ∉ line) : newlineUnit ∉ shiftLine delta indentChar line := by
  rw [shiftLine]
  split_ifs
  · exact h
  · rw [mem_append, not_or]
    exact ⟨fun hmem ↦ hchar (eq_of_mem_replicate hmem), h⟩
  · exact fun hmem ↦ h (mem_of_mem_drop hmem)

theorem newlineUnit_ne_of_head? {char : UInt16}
    (h : (getLeadingWhitespace line).head? = some char) : newlineUnit ≠ char := by
  have hunit : isIndentUnit char := mem_takeWhile_imp (mem_of_mem_head? h)
  rintro rfl
  cases hunit

theorem newlineUnit_ne_detectIndentChar : newlineUnit ≠ detectIndentChar text := by
  rw [detectIndentChar]
  cases hfound : (splitLines text).findSome? fun line ↦ (getLeadingWhitespace line).head? with
  | none => decide
  | some =>
    obtain ⟨line, -, hhead⟩ := exists_of_findSome?_eq_some hfound
    exact newlineUnit_ne_of_head? hhead

theorem newlineUnit_ne_profile_char {text : JsString} {char : UInt16}
    (h : (buildIndentProfile text).char = some char) : newlineUnit ≠ char := by
  obtain ⟨indent, hindent, hhead⟩ := exists_of_findSome?_eq_some h
  obtain ⟨line, -, rfl⟩ := mem_map.mp hindent
  exact newlineUnit_ne_of_head? hhead

/-- A moved replacement has as many lines as before. -/
theorem length_splitLines_adjustIndentation (oldText actualText newText : JsString) :
    (splitLines (adjustIndentation oldText actualText newText)).length = (splitLines newText).length := by
  have hconvert : ∀ spacesPerTab, (splitLines (convertLeadingTabsToSpaces newText spacesPerTab)).length =
      (splitLines newText).length := by
    intro spacesPerTab
    rw [convertLeadingTabsToSpaces]
    split_ifs
    · rfl
    · exact length_splitLines_joinLines_map newText fun _ ↦ newlineUnit_notMem_convertLine spacesPerTab
  have hshift : ∀ delta indentChar, newlineUnit ≠ indentChar →
      (splitLines (applyIndentDelta newText delta indentChar)).length = (splitLines newText).length :=
    fun delta _ hchar ↦
      length_splitLines_joinLines_map newText fun _ ↦ newlineUnit_notMem_shiftLine delta hchar
  unfold adjustIndentation
  dsimp only
  split_ifs
  · rfl
  · rfl
  · rfl
  · rw [maybeConvertTabIndentation]
    split_ifs
    · rfl
    · exact hconvert _
    · rfl
  · split
    · rfl
    · split_ifs
      · rfl
      · apply hshift
        cases hactual : (buildIndentProfile actualText).char with
        | some => exact newlineUnit_ne_profile_char hactual
        | none =>
          cases hold : (buildIndentProfile oldText).char with
          | some => exact newlineUnit_ne_profile_char hold
          | none => exact newlineUnit_ne_detectIndentChar actualText

end GajaeCode.Edit
