import GajaeCode.Text.Utf16
import Mathlib.Data.List.Flatten

/-!
# Lines of a text

A text is cut at its newlines and joined again with newlines. Joining undoes cutting. Cutting a
joined list gives its lines back once every line has itself been cut, so lines without a newline
survive the round trip in their order.
-/

namespace GajaeCode.Text

open List

variable {lines : List JsString}

def newlineUnit : UInt16 := 0x0A

variable (text : JsString)

/-- `text.split("\n")`. -/
def splitLines : List JsString := text.splitOn newlineUnit

/-- `lines.join("\n")`. -/
def joinLines (lines : List JsString) : JsString := [newlineUnit].intercalate lines

theorem joinLines_splitLines : joinLines (splitLines text) = text := intercalate_splitOn newlineUnit

theorem splitLines_ne_nil : splitLines text ≠ [] := by
  exact splitOnP_ne_nil _ text

theorem splitLines_eq_singleton {line : JsString} (h : newlineUnit ∉ line) :
    splitLines line = [line] :=
  splitOn_eq_singleton h

/-- No piece of a cut text holds the unit it was cut at. -/
theorem notMem_of_mem_splitOn {sep : UInt16} {text piece : JsString}
    (h : piece ∈ text.splitOn sep) : sep ∉ piece := by
  induction text generalizing piece with
  | nil =>
    have hpiece : piece = [] := by simpa [splitOn] using h
    simp [hpiece]
  | cons unit rest ih =>
    rw [splitOn_cons_eq_if_modifyHead] at h
    by_cases hunit : unit = sep
    · simp only [hunit, beq_self_eq_true, if_true, mem_cons] at h
      rcases h with rfl | hrest
      · exact not_mem_nil
      · exact ih hrest
    · rw [if_neg (by simpa using hunit)] at h
      cases hpieces : splitOn sep rest with
      | nil => simp [hpieces] at h
      | cons first =>
        rw [hpieces] at h ih
        simp only [modifyHead_cons, mem_cons] at h ih
        rcases h with rfl | hother
        · have hfirst : sep ∉ first := ih (Or.inl rfl)
          simpa [hfirst] using fun heq ↦ hunit heq.symm
        · exact ih (.inr hother)

theorem newlineUnit_notMem_of_mem_splitLines {text line : JsString} (h : line ∈ splitLines text) :
    newlineUnit ∉ line :=
  notMem_of_mem_splitOn h

/-- Cutting a joined list cuts every one of its lines. -/
theorem splitLines_joinLines (h : lines ≠ []) :
    splitLines (joinLines lines) = lines.flatMap splitLines := by
  induction lines with
  | nil => exact absurd rfl h
  | cons line rest ih =>
    cases rest with
    | nil => simp [joinLines, intercalate]
    | cons next others =>
      have hrest : splitLines (joinLines (next :: others)) = (next :: others).flatMap splitLines :=
        ih (cons_ne_nil next others)
      have hcut : splitLines (joinLines (line :: next :: others)) =
          splitLines line ++ splitLines (joinLines (next :: others)) := by
        exact splitOn_append_cons_self line _
      rw [hcut, hrest]
      rfl

theorem flatMap_splitLines (h : ∀ line ∈ lines, newlineUnit ∉ line) :
    lines.flatMap splitLines = lines := by
  calc
    lines.flatMap splitLines = lines.flatMap fun line ↦ [line] := by
      apply flatMap_congr
      intro line hline
      exact splitLines_eq_singleton (h line hline)
    _ = lines := by simp

/-- Lines without a newline that stand in a list, in order, stand in its joined text. -/
theorem sublist_splitLines_joinLines {kept : List JsString} (h : kept.Sublist lines)
    (hkept : ∀ line ∈ kept, newlineUnit ∉ line) : kept.Sublist (splitLines (joinLines lines)) := by
  by_cases hlines : lines = []
  · rw [hlines, sublist_nil] at h
    rw [h]
    exact nil_sublist _
  · rw [splitLines_joinLines hlines, ← flatMap_splitLines hkept]
    exact h.flatMap _

theorem joinLines_append {front back : List JsString} (hfront : front ≠ []) (hback : back ≠ []) :
    joinLines (front ++ back) = joinLines front ++ newlineUnit :: joinLines back := by
  induction front with
  | nil => exact absurd rfl hfront
  | cons line rest ih =>
    cases rest with
    | nil =>
      obtain ⟨next, others, rfl⟩ := exists_cons_of_ne_nil hback
      simp [joinLines]
    | cons next others =>
      have hrest := ih (cons_ne_nil next others)
      simp only [joinLines, cons_append, intercalate_cons_cons, append_assoc] at hrest ⊢
      rw [hrest]

theorem length_splitLines : (splitLines text).length = text.count newlineUnit + 1 := by
  induction text with
  | nil => rfl
  | cons unit rest ih =>
    rw [splitLines] at ih ⊢
    rw [splitOn_cons_eq_if_modifyHead, count_cons]
    split_ifs
    · rw [length_cons, ih]
    · rw [length_modifyHead, ih]

/-! ## Blanks and carriage returns -/

def returnUnit : UInt16 := 0x0D

def trimEnd : JsString := (text.reverse.dropWhile isTrimmed).reverse

def trim : JsString := trimEnd (text.dropWhile isTrimmed)

/-- `text.trim().length === 0`. -/
def isBlank : Bool := text.all isTrimmed

def dropReturn (line : JsString) : JsString :=
  if line.getLast? = some returnUnit then line.dropLast else line

/-- `text.split(/\r?\n/)`: only a carriage return right before a newline belongs to the separator. -/
def splitCrlfLines : List JsString :=
  (splitLines text).dropLast.map dropReturn ++ (splitLines text).getLast?.toList

end GajaeCode.Text
