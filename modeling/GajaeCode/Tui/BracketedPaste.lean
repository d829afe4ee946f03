import GajaeCode.Text.Characters

/-!
# Bracketed paste framing

`BracketedPasteHandler` cuts terminal input into ordinary text and pastes, which stand between two
markers that may be split over several inputs. A frame that is stale, too long or interrupted by
Escape is released. Whatever path is taken, a call returns what was pending and its own input, up to
what is pending then, and a frame that stays pending is within the byte limit.
-/

namespace GajaeCode.Tui

open Text List

def escapeUnit : UInt16 := 0x1B

/-- `PASTE_START`, `ESC[200~`. -/
def pasteStart : JsString := escapeUnit :: utf16 "[200~"

/-- `PASTE_END`, `ESC[201~`. -/
def pasteEnd : JsString := escapeUnit :: utf16 "[201~"

def bracketedPasteFrameTimeoutMs : Float := 1000

def bracketedPasteFrameMaxBytes : ℕ := 1024 * 1024

/-- `text.indexOf(marker)`, with `none` for -1. -/
def indexOf (marker : JsString) : JsString → Option ℕ
  | [] => if marker = [] then some 0 else none
  | unit :: rest =>
      if marker.isPrefixOf (unit :: rest) then some 0 else (indexOf marker rest).map (· + 1)

/-- The lengths from the given one down. -/
def partialSuffixFrom (value : JsString) : ℕ → ℕ
  | 0 => 0
  | length + 1 =>
      if (pasteStart.take (length + 1)).isSuffixOf value then length + 1
      else partialSuffixFrom value length

def partialStartSuffixLength (value : JsString) : ℕ :=
  partialSuffixFrom value (min value.length (pasteStart.length - 1))

/-- A result with `handled: true`. `closed` is not part of it: it says that the paste ended with the
end marker. -/
structure PasteResult where
  leading : JsString := []
  pasteContent : Option JsString := none
  remaining : JsString := []
  closed : Bool := false

structure BracketedPasteHandler where
  buffer : JsString := []
  leading : JsString := []
  active : Bool := false
  pendingSince : Option Float := none

namespace BracketedPasteHandler

variable (handler : BracketedPasteHandler)

def hasPendingFrame : Bool :=
  handler.active || 0 < handler.buffer.length || 0 < handler.leading.length

/-- The text that `#flushBuffered` returns. -/
def pending : JsString :=
  if handler.active then handler.leading ++ pasteStart ++ handler.buffer
  else handler.leading ++ handler.buffer

/-- A call returns its result, `none` for `handled: false`, and the handler after it. -/
abbrev Step := Option PasteResult × BracketedPasteHandler

def flushActive (remaining : JsString) : Step :=
  (some { leading := handler.leading, pasteContent := some handler.buffer, remaining }, {})

/-- A stale or interrupted frame is released in front of the input. -/
def release (data : JsString) : Step :=
  if handler.active then handler.flushActive data
  else (some { leading := handler.pending ++ data }, {})

/-- The end of `process`, with an active frame. -/
def endFrame : Step :=
  match indexOf pasteEnd handler.buffer with
  | none =>
      if byteLength handler.leading + byteLength pasteStart + byteLength handler.buffer >
          bracketedPasteFrameMaxBytes then handler.flushActive []
      else (some {}, handler)
  | some endIndex =>
      (some { leading := handler.leading, pasteContent := some (handler.buffer.take endIndex),
              remaining := handler.buffer.drop (endIndex + pasteEnd.length), closed := true }, {})

/-- `process` without a start marker in the buffer and the input. -/
def holdPartial (combined : JsString) (now : Float) : Step :=
  let partialLength := partialStartSuffixLength combined
  if 0 < partialLength then
    let nextLeading := handler.leading ++ combined.take (combined.length - partialLength)
    let nextBuffer := combined.drop (combined.length - partialLength)
    if byteLength nextLeading + byteLength nextBuffer > bracketedPasteFrameMaxBytes then
      (some { leading := nextLeading ++ nextBuffer }, {})
    else
      (some {}, { handler with
        leading := nextLeading, buffer := nextBuffer, pendingSince := handler.pendingSince.getD now })
  else if handler.hasPendingFrame || 0 < handler.leading.length then
    (some { leading := handler.leading ++ combined }, {})
  else (none, { handler with buffer := [] })

def isStale (now : Float) : Bool :=
  handler.pendingSince.any fun since ↦ now - since ≥ bracketedPasteFrameTimeoutMs

def process (data : JsString) (now : Float) : Step :=
  if handler.hasPendingFrame && handler.isStale now then handler.release data
  else if handler.hasPendingFrame && data = [escapeUnit] then handler.release data
  else if handler.active then { handler with buffer := handler.buffer ++ data }.endFrame
  else
    let combined := handler.buffer ++ data
    match indexOf pasteStart combined with
    | none => handler.holdPartial combined now
    | some startIndex => endFrame
        { leading := handler.leading ++ combined.take startIndex
          buffer := combined.drop (startIndex + pasteStart.length)
          active := true
          pendingSince := handler.pendingSince.getD now }

end BracketedPasteHandler

open BracketedPasteHandler

/-- The text that a call returns: its input if it is unhandled, else the parts of the result with
the markers around the paste. -/
def returnedText (data : JsString) : Option PasteResult → JsString
  | none => data
  | some result =>
      let paste := result.pasteContent.elim [] fun content ↦
        pasteStart ++ content ++ if result.closed then pasteEnd else []
      result.leading ++ paste ++ result.remaining

/-- The texts that the calls return, joined, and the handler after them. -/
def processAll (handler : BracketedPasteHandler) :
    List (JsString × Float) → JsString × BracketedPasteHandler
  | [] => ([], handler)
  | (data, now) :: rest =>
      let (result, next) := handler.process data now
      let (returned, last) := processAll next rest
      (returnedText data result ++ returned, last)

theorem split_of_indexOf {marker text : JsString} {index : ℕ} (h : indexOf marker text = some index) :
    text.take index ++ marker ++ text.drop (index + marker.length) = text := by
  induction text generalizing index with
  | nil =>
    rw [indexOf] at h
    split_ifs at h with hmarker
    simp [hmarker]
  | cons unit rest ih =>
    rw [indexOf] at h
    split_ifs at h with hfound
    · obtain ⟨behind, hbehind⟩ := isPrefixOf_iff_prefix.mp hfound
      obtain rfl := Option.some.inj h
      rw [← hbehind, take_zero, nil_append, Nat.zero_add, drop_left]
    · obtain ⟨previous, hprevious, rfl⟩ := Option.map_eq_some_iff.mp h
      rw [Nat.add_right_comm, take_succ_cons, drop_succ_cons, cons_append, cons_append, ih hprevious]

/-- A step keeps the text, and what it leaves pending is within the limit. -/
def IsSound (before data : JsString) (step : Step) : Prop :=
  returnedText data step.1 ++ step.2.pending = before ++ data ∧
    byteLength step.2.pending ≤ bracketedPasteFrameMaxBytes

theorem byteLength_append_le (left right : JsString) :
    byteLength (left ++ right) ≤ byteLength left + byteLength right := by
  cases h : splitsPair left right with
  | false => exact (byteLength_append h).le
  | true => have := (byteLength_append_of_splitsPair h).1; omega

variable {handler : BracketedPasteHandler} {before data : JsString} {result : Option PasteResult}

/-- Everything is returned and nothing is pending. -/
theorem isSound_reset (h : returnedText data result = before ++ data) :
    IsSound before data (result, {}) := by
  constructor
  · rw [← h]
    exact append_nil _
  · exact Nat.zero_le _

theorem isSound_release : IsSound handler.pending data (handler.release data) := by
  rw [release]
  split_ifs with hactive
  · apply isSound_reset
    simp [returnedText, pending, hactive]
  · apply isSound_reset
    simp [returnedText]

theorem isSound_endFrame (hactive : handler.active) (h : handler.pending = before ++ data) :
    IsSound before data handler.endFrame := by
  have hpending : handler.pending = handler.leading ++ pasteStart ++ handler.buffer := if_pos hactive
  rw [endFrame]
  split
  · split_ifs
    · apply isSound_reset
      simp [returnedText, ← h, hpending]
    · have houter := byteLength_append_le (handler.leading ++ pasteStart) handler.buffer
      have hinner := byteLength_append_le handler.leading pasteStart
      exact ⟨h, by rw [hpending]; omega⟩
  · next endIndex hend =>
    apply isSound_reset
    rw [← h, hpending, ← split_of_indexOf hend]
    simp [returnedText, split_of_indexOf hend]

theorem isSound_holdPartial (hinactive : handler.active = false) (now : Float) :
    IsSound handler.pending data (handler.holdPartial (handler.buffer ++ data) now) := by
  have htext : handler.pending ++ data = handler.leading ++ (handler.buffer ++ data) := by
    simp [pending, hinactive]
  unfold holdPartial
  dsimp only
  generalize handler.buffer ++ data = combined at htext ⊢
  generalize combined.length - partialStartSuffixLength combined = cut
  split_ifs with _ _ hbuffered
  · exact isSound_reset (by simp [returnedText, htext])
  · have hle := byteLength_append_le (handler.leading ++ combined.take cut) (combined.drop cut)
    constructor
    · rw [htext]
      simp [returnedText, pending, hinactive]
    · simp only [pending, hinactive, Bool.false_eq_true, if_false]
      omega
  · exact isSound_reset (by simp [returnedText, htext])
  · obtain ⟨⟨-, hbuffer⟩, hleading⟩ : (handler.active = false ∧ handler.buffer = []) ∧
      handler.leading = [] := by simpa [hasPendingFrame] using hbuffered
    constructor
    · simp [returnedText, pending, hinactive, hbuffer, hleading]
    · simp [pending, hinactive, hleading, byteLength, encodeUtf8, scalars]

/-- Every call keeps the text and the limit. -/
theorem isSound_process (handler : BracketedPasteHandler) (data : JsString) (now : Float) :
    IsSound handler.pending data (handler.process data now) := by
  unfold process
  split_ifs with _ _ hactive
  · exact isSound_release
  · exact isSound_release
  · exact isSound_endFrame hactive (by simp [pending, hactive])
  · have hinactive : handler.active = false := by simpa using hactive
    dsimp only
    split
    · exact isSound_holdPartial hinactive now
    · next startIndex hstart =>
      refine isSound_endFrame rfl ?_
      calc
        pending _ = handler.leading ++ ((handler.buffer ++ data).take startIndex ++ pasteStart ++
            (handler.buffer ++ data).drop (startIndex + pasteStart.length)) := by simp [pending]
        _ = handler.pending ++ data := by rw [split_of_indexOf hstart]; simp [pending, hinactive]

theorem processAll_spec (calls : List (JsString × Float)) (handler : BracketedPasteHandler)
    (h : byteLength handler.pending ≤ bracketedPasteFrameMaxBytes) :
    (processAll handler calls).1 ++ (processAll handler calls).2.pending =
        handler.pending ++ (calls.map Prod.fst).flatten ∧
      byteLength (processAll handler calls).2.pending ≤ bracketedPasteFrameMaxBytes := by
  induction calls generalizing handler with
  | nil => exact ⟨by simp [processAll], h⟩
  | cons call rest ih =>
    obtain ⟨data, now⟩ := call
    obtain ⟨hstep, hlimit⟩ := isSound_process handler data now
    obtain ⟨hrest, hlast⟩ := ih _ hlimit
    refine ⟨?_, hlast⟩
    rw [processAll, append_assoc, hrest, ← append_assoc, hstep, map_cons, flatten_cons, append_assoc]

/-- Over any calls, what was returned and what is pending is the input, and what is pending is within
the limit. -/
theorem bracketedPaste_conserves (calls : List (JsString × Float)) :
    (processAll {} calls).1 ++ (processAll {} calls).2.pending = (calls.map Prod.fst).flatten ∧
      byteLength (processAll {} calls).2.pending ≤ bracketedPasteFrameMaxBytes :=
  processAll_spec calls {} (Nat.zero_le _)

end GajaeCode.Tui
