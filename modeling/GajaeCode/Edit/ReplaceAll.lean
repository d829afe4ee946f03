import GajaeCode.Edit.Indentation

/-!
# Replacing all fuzzy matches

Without an exact match, the loop looks for the only window of lines that is similar enough to the old
text, puts the moved new text in its place and looks again, in the text it has just rewritten. A
replacement that brings a similar window with it keeps the loop going, so the loop need not end. It
ends when every replacement takes lines away, or when the first one leaves nothing to replace.

How similar two texts are is a parameter. The texts have no carriage returns.
-/

namespace GajaeCode.Edit

open Text List

variable {window : FuzzyMatch}

structure FuzzyMatch where
  startIndex : ℕ
  actualText : JsString
  deriving DecidableEq

/-- The windows of a number of lines, with their places in the text. -/
def windowsFrom (lineCount : ℕ) : ℕ → List JsString → List FuzzyMatch
  | _, [] => []
  | offset, line :: rest =>
    if (line :: rest).length < lineCount then []
    else ⟨offset, joinLines ((line :: rest).take lineCount)⟩ ::
      windowsFrom lineCount (offset + line.length + 1) rest

section

variable {Score : Type} [LinearOrder Score] (similarity : JsString → JsString → Score) (threshold : Score)
  (oldText newText : JsString)

/-- The only window that is similar enough; no match if there are none or several. -/
def findMatch (content : JsString) : Option FuzzyMatch :=
  match (windowsFrom (splitLines oldText).length 0 (splitLines content)).filter fun window ↦
      threshold ≤ similarity window.actualText oldText with
  | [window] => some window
  | _ => none

/-- The text after one replacement; nothing where the loop breaks off. -/
def replaceStep (content : JsString) : Option JsString :=
  match findMatch similarity threshold oldText content with
  | none => none
  | some found =>
    let adjustedNewText := adjustIndentation oldText found.actualText newText
    if adjustedNewText = found.actualText then none
    else some (content.take found.startIndex ++ adjustedNewText ++
      content.drop (found.startIndex + found.actualText.length))

/-- The fuzzy loop of `replaceText` with `all`; nothing if the fuel does not reach its end. -/
def fuzzyLoop : ℕ → JsString → ℕ → Option (JsString × ℕ)
  | 0, _, _ => none
  | fuel + 1, content, count =>
    match replaceStep similarity threshold oldText newText content with
    | none => some (content, count)
    | some next => fuzzyLoop fuel next (count + 1)

end

/-! ## Windows -/

theorem exists_joinLines_take {lineCount : ℕ} (hpos : 0 < lineCount) {lines : List JsString} (h : lines ≠ []) :
    ∃ back, joinLines lines = joinLines (lines.take lineCount) ++ back := by
  by_cases hall : lines.length ≤ lineCount
  · exact ⟨[], by rw [take_of_length_le hall, append_nil]⟩
  · have hfront : lines.take lineCount ≠ [] := by simp [h, hpos.ne']
    have hback : lines.drop lineCount ≠ [] := by simpa using hall
    refine ⟨newlineUnit :: joinLines (lines.drop lineCount), ?_⟩
    rw [← joinLines_append hfront hback, take_append_drop]

/-- A window stands at its place in the text and has as many lines as it was asked for. -/
theorem of_mem_windowsFrom {lineCount : ℕ} (hpos : 0 < lineCount) {lines : List JsString}
    (hlines : ∀ line ∈ lines, newlineUnit ∉ line) {offset : ℕ}
    (h : window ∈ windowsFrom lineCount offset lines) :
    (splitLines window.actualText).length = lineCount ∧
      ∃ front back, joinLines lines = front ++ window.actualText ++ back ∧
        window.startIndex = offset + front.length := by
  induction lines generalizing offset with
  | nil => exact absurd h not_mem_nil
  | cons line rest ih =>
    rw [windowsFrom] at h
    split_ifs at h with hshort
    · exact absurd h not_mem_nil
    rcases mem_cons.mp h with rfl | hrest
    · have htake : (line :: rest).take lineCount ≠ [] := by simp [hpos.ne']
      obtain ⟨back, hback⟩ := exists_joinLines_take hpos (cons_ne_nil line rest)
      refine ⟨?_, [], back, hback, rfl⟩
      rw [splitLines_joinLines htake, flatMap_splitLines fun other hother ↦
        hlines other (mem_of_mem_take hother), length_take]
      exact Nat.min_eq_left (not_lt.mp hshort)
    · have hne : rest ≠ [] := by
        rintro rfl
        exact absurd hrest not_mem_nil
      obtain ⟨hcount, front, back, hjoin, hstart⟩ :=
        ih (fun other hother ↦ hlines other (mem_cons_of_mem _ hother)) hrest
      refine ⟨hcount, line ++ newlineUnit :: front, back, ?_, ?_⟩
      · have hline : joinLines [line] = line := intercalate_singleton
        rw [← singleton_append, joinLines_append (cons_ne_nil line []) hne, hjoin, hline]
        simp
      · rw [hstart, length_append, length_cons]
        omega

section

variable {Score : Type} [LinearOrder Score] {similarity : JsString → JsString → Score} {threshold : Score}
  {oldText newText content next : JsString}

theorem mem_windows_of_findMatch
    (h : findMatch similarity threshold oldText content = some window) :
    window ∈ windowsFrom (splitLines oldText).length 0 (splitLines content) := by
  rw [findMatch] at h
  split at h
  next found hfound =>
    cases h
    exact mem_of_mem_filter (hfound ▸ mem_cons_self)
  next => cases h

/-- A replacement exchanges the lines of the old text for those of the new one. -/
theorem length_splitLines_replaceStep
    (h : replaceStep similarity threshold oldText newText content = some next) :
    (splitLines next).length + (splitLines oldText).length =
      (splitLines content).length + (splitLines newText).length := by
  rw [replaceStep] at h
  split at h
  next => cases h
  next window hwindow =>
    have hpos : 0 < (splitLines oldText).length := length_pos_of_ne_nil (splitLines_ne_nil oldText)
    obtain ⟨hcount, front, back, hcontent, hstart⟩ := of_mem_windowsFrom hpos
      (fun _ ↦ newlineUnit_notMem_of_mem_splitLines) (mem_windows_of_findMatch hwindow)
    rw [joinLines_splitLines] at hcontent
    rw [Nat.zero_add] at hstart
    dsimp only at h
    split_ifs at h
    cases h
    have hadjusted := length_splitLines_adjustIndentation oldText window.actualText newText
    have htake : content.take window.startIndex = front := by
      rw [hstart, hcontent, append_assoc, take_left]
    have hdrop : content.drop (window.startIndex + window.actualText.length) = back := by
      rw [hstart, hcontent, ← length_append, drop_left]
    rw [htake, hdrop, hcontent]
    simp only [length_splitLines, count_append] at hcount hadjusted ⊢
    omega

theorem fuzzyLoop_succ (h : replaceStep similarity threshold oldText newText content = some next)
    (fuel count : ℕ) :
    fuzzyLoop similarity threshold oldText newText (fuel + 1) content count =
      fuzzyLoop similarity threshold oldText newText fuel next (count + 1) := by
  rw [fuzzyLoop, h]

theorem exists_fuzzyLoop_of_fewer_lines (h : (splitLines newText).length < (splitLines oldText).length)
    (content : JsString) (count : ℕ) :
    ∃ fuel result, fuzzyLoop similarity threshold oldText newText fuel content count = some result := by
  -- the number of lines of the text falls with every replacement
  induction hlines : (splitLines content).length using Nat.strong_induction_on generalizing content count with
  | _ lines ih =>
    cases hstep : replaceStep similarity threshold oldText newText content with
    | none => exact ⟨1, (content, count), by rw [fuzzyLoop, hstep]⟩
    | some next =>
      have hnext := length_splitLines_replaceStep hstep
      obtain ⟨fuel, result, hloop⟩ := ih _ (by omega) next (count + 1) rfl
      exact ⟨fuel + 1, result, by rw [fuzzyLoop_succ hstep, hloop]⟩

end

/-! ## A replacement that is matched again -/

/-- Only the text `b` is similar. -/
def sampleSimilarity (text _oldText : JsString) : ℕ := if text = utf16 "b" then 1 else 0

/-- What the loop has made of `b` after a number of rounds. -/
def grownText (rounds : ℕ) : JsString := joinLines (utf16 "b" :: List.replicate rounds (utf16 "c"))

theorem actualText_of_mem_windowsFrom {rounds offset : ℕ}
    (h : window ∈ windowsFrom 1 offset (replicate rounds (utf16 "c"))) :
    window.actualText = utf16 "c" := by
  induction rounds generalizing offset with
  | zero => exact absurd h not_mem_nil
  | succ rounds ih =>
    rcases mem_cons.mp h with rfl | hrest
    · rfl
    · exact ih hrest

theorem findMatch_grownText (rounds : ℕ) :
    findMatch sampleSimilarity 1 (utf16 "a") (grownText rounds) = some ⟨0, utf16 "b"⟩ := by
  have hlines : splitLines (grownText rounds) = utf16 "b" :: replicate rounds (utf16 "c") := by
    rw [grownText, splitLines_joinLines (cons_ne_nil _ _), flatMap_splitLines]
    rw [forall_mem_cons]
    exact ⟨by decide, fun line hline ↦ by rw [eq_of_mem_replicate hline]; decide⟩
  have hrest : (windowsFrom 1 2 (replicate rounds (utf16 "c"))).filter (fun window ↦
      1 ≤ sampleSimilarity window.actualText (utf16 "a")) = [] := by
    rw [filter_eq_nil_iff]
    intro window hwindow
    rw [actualText_of_mem_windowsFrom hwindow]
    decide
  have hwindows : windowsFrom (splitLines (utf16 "a")).length 0 (splitLines (grownText rounds)) =
      ⟨0, utf16 "b"⟩ :: windowsFrom 1 2 (replicate rounds (utf16 "c")) := by
    rw [hlines]
    rfl
  rw [findMatch, hwindows, filter_cons_of_pos (by decide), hrest]

theorem replaceStep_grownText (rounds : ℕ) :
    replaceStep sampleSimilarity 1 (utf16 "a") (utf16 "b\nc") (grownText rounds) =
      some (grownText (rounds + 1)) := by
  rw [replaceStep, findMatch_grownText]
  cases rounds with
  | zero => decide
  | succ => rfl

end GajaeCode.Edit
