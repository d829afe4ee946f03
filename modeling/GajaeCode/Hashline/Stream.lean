import GajaeCode.Text.Characters
import GajaeCode.Text.Decimal
import GajaeCode.Text.Lines

/-!
# Streaming hash lines

The bytes of a file arrive in chunks. The decoded text is cut into lines as soon as their newlines
arrive, each line gets its number and hash, and the formatted lines leave in chunks of bounded size.
Neither the cuts of the input nor the bounds show in the joined output.

The streaming decoder is a parameter, assumed to decode the same text however the bytes are cut.
Both kinds of source are the list of chunks they yield. Line numbers are exact integers.
-/

namespace GajaeCode.Hashline

open Text List

/-- A number that a count is compared with. A count reaches neither `NaN` nor `Infinity`, and reaches
`-Infinity` like any negative number. -/
inductive CountLimit
  | unreached
  | bound (value : ℚ)

def CountLimit.reached (count : ℕ) : CountLimit → Bool
  | .unreached => false
  | .bound value => value ≤ count

def CountLimit.exceeded (count : ℕ) : CountLimit → Bool
  | .unreached => false
  | .bound value => value < count

structure HashlineStreamOptions where
  startLine : Option ℤ
  maxChunkLines : Option CountLimit
  maxChunkBytes : Option CountLimit

structure ResolvedHashlineStreamOptions where
  startLine : ℤ
  maxChunkLines : CountLimit
  maxChunkBytes : CountLimit

def resolveHashlineStreamOptions (options : HashlineStreamOptions) :
    ResolvedHashlineStreamOptions where
  startLine := options.startLine.getD 1
  maxChunkLines := options.maxChunkLines.getD (.bound 200)
  maxChunkBytes := options.maxChunkBytes.getD (.bound (64 * 1024))

/-- What the chunks decode to, with what the decoder returns at the end of the stream. -/
def decodeAll {σ : Type} (decode : σ → Bytes → JsString × σ) (finish : σ → JsString) (coder : σ) :
    List Bytes → JsString
  | [] => finish coder
  | chunk :: rest =>
      (decode coder chunk).1 ++ decodeAll decode finish (decode coder chunk).2 rest

/-- `new TextDecoder("utf-8")` with `{ stream: true }`: at the end of the stream an incomplete sequence
is left over at most, which is decoded to replacement characters. -/
structure StreamDecoder where
  State : Type
  fresh : State
  decode : State → Bytes → JsString × State
  finish : State → JsString
  text : Bytes → JsString
  replaces : ∀ coder, ∀ unit ∈ finish coder, unit = replacementUnit
  chunkIndependent : ∀ chunks, decodeAll decode finish fresh chunks = text chunks.flatten

/-- A decoder that replaces every byte that is not ASCII. -/
def asciiDecoder : StreamDecoder where
  State := Unit
  fresh := ()
  decode := fun _ chunk ↦
    (chunk.map fun byte ↦ if byte < 0x80 then byte.toUInt16 else replacementUnit, ())
  finish := fun _ ↦ []
  text := List.map fun byte ↦ if byte < 0x80 then byte.toUInt16 else replacementUnit
  replaces := nofun
  chunkIndependent := by
    intro chunks
    induction chunks with
    | nil => rfl
    | cons chunk rest ih => rw [decodeAll, ih, List.flatten_cons, List.map_append]

structure HashlineChunkEmitter where
  lineNumber : ℤ
  outLines : List JsString
  outBytes : ℕ

def HashlineChunkEmitter.flush (emitter : HashlineChunkEmitter) :
    Option JsString × HashlineChunkEmitter :=
  if emitter.outLines = [] then (none, emitter)
  else (some (joinLines emitter.outLines), { emitter with outLines := [], outBytes := 0 })

/-- `if (flushed)`: neither `undefined` nor the empty string. -/
def truthy (flushed : Option JsString) : List JsString :=
  flushed.toList.filter (· ≠ [])

/-- The state of the reading loop. -/
structure StreamState where
  emitter : HashlineChunkEmitter
  pending : JsString
  sawAnyLine : Bool

section

-- `computeLineHash`
variable (hash : ℤ → JsString → JsString)

def formatHashLine (lineNumber : ℤ) (line : JsString) : JsString :=
  intText lineNumber ++ hash lineNumber line ++ utf16 "|" ++ line

variable (options : ResolvedHashlineStreamOptions)

def HashlineChunkEmitter.pushLine (emitter : HashlineChunkEmitter) (line : JsString) :
    List JsString × HashlineChunkEmitter :=
  let formatted := formatHashLine hash emitter.lineNumber line
  let emitter := { emitter with lineNumber := emitter.lineNumber + 1 }
  let sepBytes := if emitter.outLines.length = 0 then 0 else 1
  let lineBytes := byteLength formatted
  let wouldOverflow := options.maxChunkLines.reached emitter.outLines.length ||
    options.maxChunkBytes.exceeded (emitter.outBytes + sepBytes + lineBytes)
  let full := if 0 < emitter.outLines.length && wouldOverflow then emitter.flush else (none, emitter)
  let outLines := full.2.outLines ++ [formatted]
  let outBytes := full.2.outBytes + ((if outLines.length = 1 then 0 else 1) + lineBytes)
  let emitter := { full.2 with outLines := outLines, outBytes := outBytes }
  let last := if options.maxChunkLines.reached outLines.length || options.maxChunkBytes.reached outBytes
    then emitter.flush else (none, emitter)
  (truthy full.1 ++ truthy last.1, last.2)

/-- The inner loop: every line whose newline has arrived. -/
def drainLines (state : StreamState) : List JsString × StreamState :=
  if newlineUnit ∈ state.pending then
    let raw := state.pending.takeWhile (· ≠ newlineUnit)
    let pushed := state.emitter.pushLine hash options (dropReturn raw)
    let rest := drainLines ⟨pushed.2, state.pending.drop (raw.length + 1), true⟩
    (pushed.1 ++ rest.1, rest.2)
  else ([], state)
termination_by state.pending.length
decreasing_by
  have := List.length_pos_of_mem ‹_›
  simp only [List.length_drop]
  omega

/-- The loop over the chunks. -/
def readChunks (decoder : StreamDecoder) (coder : decoder.State) (state : StreamState) :
    List Bytes → List JsString × decoder.State × StreamState
  | [] => ([], coder, state)
  | chunk :: rest =>
      let decoded := decoder.decode coder chunk
      let drained := drainLines hash options
        { state with pending := state.pending ++ decoded.1 }
      let others := readChunks decoder decoded.2 drained.2 rest
      (drained.1 ++ others.1, others.2)

/-- What is pushed and flushed behind the loop. -/
def finishLines (state : StreamState) (pending : JsString) : List JsString :=
  let tail := if 0 < pending.length
    then state.emitter.pushLine hash options (dropReturn pending) else ([], state.emitter)
  let only := if !(state.sawAnyLine || 0 < pending.length)
    then tail.2.pushLine hash options [] else ([], tail.2)
  tail.1 ++ only.1 ++ truthy only.2.flush.1

variable (decoder : StreamDecoder)

def streamHashLinesFromUtf8 (options : HashlineStreamOptions) (chunks : List Bytes) : List JsString :=
  let resolved := resolveHashlineStreamOptions options
  let read := readChunks hash resolved decoder decoder.fresh
    ⟨⟨resolved.startLine, [], 0⟩, [], false⟩ chunks
  read.1 ++ finishLines hash resolved read.2.2 (read.2.2.pending ++ decoder.finish read.2.1)

/-! ## Chunks of lines -/

/-- The lines leave in joined groups, and some of them stay. -/
def Emits (lines chunks kept : List JsString) : Prop :=
  ∃ groups : List (List JsString), [] ∉ groups ∧ chunks = groups.map joinLines ∧
    lines = groups.flatten ++ kept

/-- Lines pushed one after the other. -/
def HashlineChunkEmitter.pushLines (emitter : HashlineChunkEmitter) :
    List JsString → List JsString × HashlineChunkEmitter
  | [] => ([], emitter)
  | line :: rest =>
      let pushed := emitter.pushLine hash options line
      let others := pushed.2.pushLines rest
      (pushed.1 ++ others.1, others.2)

/-- The lines under consecutive numbers. -/
def numberLines (startLine : ℤ) (lines : List JsString) : List JsString :=
  lines.mapIdx fun index line ↦ formatHashLine hash (startLine + index) line

variable {lines chunks kept more : List JsString}

theorem Emits.refl (lines : List JsString) : Emits lines [] lines := ⟨[], by simp⟩

theorem Emits.append {chunks' kept' : List JsString} (h : Emits lines chunks kept)
    (h' : Emits (kept ++ more) chunks' kept') : Emits (lines ++ more) (chunks ++ chunks') kept' := by
  obtain ⟨groups, hne, rfl, rfl⟩ := h
  obtain ⟨groups', hne', rfl, heq⟩ := h'
  refine ⟨groups ++ groups', by simp [hne, hne'], by simp, ?_⟩
  rw [append_assoc, heq, flatten_append, append_assoc]

theorem Emits.notMem (h : Emits lines chunks kept) (hlines : [] ∉ lines) : [] ∉ kept := by
  obtain ⟨groups, -, -, rfl⟩ := h
  exact fun hmem ↦ hlines (mem_append_right _ hmem)

theorem joinLines_eq_nil (h : joinLines lines = []) (hlines : [] ∉ lines) : lines = [] := by
  cases lines with
  | nil => rfl
  | cons line rest => cases rest <;> simp_all [joinLines]

theorem emits_flush (emitter : HashlineChunkEmitter) (h : [] ∉ emitter.outLines) :
    Emits emitter.outLines (truthy emitter.flush.1) [] ∧ emitter.flush.2.outLines = [] ∧
      emitter.flush.2.lineNumber = emitter.lineNumber := by
  unfold HashlineChunkEmitter.flush
  split_ifs with hempty
  · exact ⟨hempty ▸ Emits.refl _, hempty, rfl⟩
  · have hjoined : joinLines emitter.outLines ≠ [] := fun hjoin ↦ hempty (joinLines_eq_nil hjoin h)
    exact ⟨⟨[emitter.outLines], by simp [Ne.symm hempty], by simp [truthy, hjoined], by simp⟩, rfl, rfl⟩

theorem emits_flush_if (emitter : HashlineChunkEmitter) (flag : Bool) (h : [] ∉ emitter.outLines) :
    let result := if flag then emitter.flush else (none, emitter)
    Emits emitter.outLines (truthy result.1) result.2.outLines ∧
      result.2.lineNumber = emitter.lineNumber := by
  cases flag with
  | false => exact ⟨Emits.refl _, rfl⟩
  | true =>
    obtain ⟨hemits, hempty, hnumber⟩ := emits_flush emitter h
    exact ⟨hempty.symm ▸ hemits, hnumber⟩

theorem formatHashLine_ne_nil (lineNumber : ℤ) (line : JsString) :
    formatHashLine hash lineNumber line ≠ [] := by
  simp [formatHashLine, show utf16 "|" ≠ [] by decide]

/-- One line joins those that wait, under the next number. -/
theorem emits_pushLine (emitter : HashlineChunkEmitter) (line : JsString) (h : [] ∉ emitter.outLines) :
    Emits (emitter.outLines ++ [formatHashLine hash emitter.lineNumber line])
        (emitter.pushLine hash options line).1
        (emitter.pushLine hash options line).2.outLines ∧
      (emitter.pushLine hash options line).2.lineNumber = emitter.lineNumber + 1 := by
  have hfull (flag) := emits_flush_if { emitter with lineNumber := emitter.lineNumber + 1 } flag h
  have hfree (flag : Bool) : [] ∉
      (if flag then HashlineChunkEmitter.flush { emitter with lineNumber := emitter.lineNumber + 1 }
        else (none, { emitter with lineNumber := emitter.lineNumber + 1 })).2.outLines ++
        [formatHashLine hash emitter.lineNumber line] := by
    simp [(hfull flag).1.notMem h, (formatHashLine_ne_nil hash _ _).symm]
  exact ⟨(hfull _).1.append (emits_flush_if _ _ (hfree _)).1,
    (emits_flush_if _ _ (hfree _)).2.trans (hfull _).2⟩

theorem numberLines_cons (startLine : ℤ) (line : JsString) (rest : List JsString) :
    numberLines hash startLine (line :: rest) = formatHashLine hash startLine line ::
        numberLines hash (startLine + 1) rest := by
  simp [numberLines, add_comm, add_left_comm]

theorem emits_pushLines (emitter : HashlineChunkEmitter) (lines : List JsString)
    (h : [] ∉ emitter.outLines) :
    Emits (emitter.outLines ++ numberLines hash emitter.lineNumber lines)
      (emitter.pushLines hash options lines).1
      (emitter.pushLines hash options lines).2.outLines := by
  induction lines generalizing emitter with
  | nil => simpa [HashlineChunkEmitter.pushLines, numberLines] using Emits.refl emitter.outLines
  | cons line rest ih =>
    obtain ⟨hpush, hnumber⟩ := emits_pushLine hash options emitter line h
    have hrest := ih _ (hpush.notMem (by simp [h, (formatHashLine_ne_nil hash _ _).symm]))
    rw [hnumber] at hrest
    rw [numberLines_cons, ← singleton_append, ← append_assoc]
    exact hpush.append hrest

theorem pushLines_append (emitter : HashlineChunkEmitter) (front back : List JsString) :
    emitter.pushLines hash options (front ++ back) = ((emitter.pushLines hash options front).1 ++
        ((emitter.pushLines hash options front).2.pushLines hash options back).1,
      ((emitter.pushLines hash options front).2.pushLines hash options back).2) := by
  induction front generalizing emitter with
  | nil => rfl
  | cons line rest ih => simp [HashlineChunkEmitter.pushLines, ih]

/-! ## Lines of a text -/

/-- From one state to another the text completes the lines `raws`, which are pushed. -/
structure Reads (before : StreamState) (text : JsString) (out raws : List JsString)
    (after : StreamState) : Prop where
  whole : ∀ raw ∈ raws, newlineUnit ∉ raw
  cut : before.pending ++ text = raws.flatMap (· ++ [newlineUnit]) ++ after.pending
  pushed : (out, after.emitter) = before.emitter.pushLines hash options (raws.map dropReturn)
  saw : after.sawAnyLine = (before.sawAnyLine || !raws.isEmpty)

variable {before middle after : StreamState} {text text' : JsString}
  {out out' raws raws' : List JsString}

variable {hash options} in
theorem Reads.trans (h : Reads hash options before text out raws middle)
    (h' : Reads hash options middle text' out' raws' after) :
    Reads hash options before (text ++ text') (out ++ out') (raws ++ raws') after where
  whole := forall_mem_append.mpr ⟨h.whole, h'.whole⟩
  cut := by rw [← append_assoc, h.cut, append_assoc, h'.cut, flatMap_append, append_assoc]
  pushed := by rw [map_append, pushLines_append, ← h.pushed, ← h'.pushed]
  saw := by cases raws <;> simp [h'.saw, h.saw]

theorem reads_drainLines (state : StreamState) :
    newlineUnit ∉ (drainLines hash options state).2.pending ∧
      ∃ raws, Reads hash options state [] (drainLines hash options state).1 raws
        (drainLines hash options state).2 := by
  fun_induction drainLines hash options state with
  | case1 state hmem raw pushed rest ih =>
    obtain ⟨hpend, raws, hreads⟩ := ih
    obtain ⟨line, tail, hsplit, hline⟩ := eq_append_cons_of_mem hmem
    have hraw : raw = line := by
      have hstop : ∀ unit ∈ line, decide (unit ≠ newlineUnit) := by
        intro unit hunit
        exact decide_eq_true (ne_of_mem_of_not_mem hunit hline)
      simp only [raw, hsplit, takeWhile_append_of_pos hstop]
      simp
    have hfirst : Reads hash options state [] pushed.1 [raw]
        ⟨pushed.2, state.pending.drop (raw.length + 1), true⟩ :=
      ⟨by simpa [hraw] using hline, by simp [hsplit, hraw],
        by simp [HashlineChunkEmitter.pushLines, pushed], by simp⟩
    exact ⟨hpend, _, hfirst.trans hreads⟩
  | case2 state hmem => exact ⟨hmem, [], nofun, by simp, rfl, by simp⟩

theorem reads_readChunks (coder : decoder.State) (chunks : List Bytes)
    (state : StreamState) (hpend : newlineUnit ∉ state.pending) : let read := readChunks hash options decoder coder state chunks
    newlineUnit ∉ read.2.2.pending ∧ ∃ text raws,
      decodeAll decoder.decode decoder.finish coder chunks = text ++ decoder.finish read.2.1 ∧
        Reads hash options state text read.1 raws read.2.2 := by
  induction chunks generalizing coder state with
  | nil => exact ⟨hpend, [], [], rfl, nofun, by simp [readChunks], rfl, by simp [readChunks]⟩
  | cons chunk rest ih =>
    obtain ⟨hdrained, raws, hdrain⟩ := reads_drainLines hash options
      { state with pending := state.pending ++ (decoder.decode coder chunk).1 }
    obtain ⟨hrest, text, raws', htext, hreads⟩ := ih (decoder.decode coder chunk).2 _ hdrained
    have hchunk : Reads hash options state (decoder.decode coder chunk).1 _ raws _ :=
      { hdrain with cut := by rw [← hdrain.cut, append_nil] }
    refine ⟨hrest, _, _, ?_, hchunk.trans hreads⟩
    rw [decodeAll, htext, append_assoc]
    rfl

/-- The lines of a text: nothing stands behind a last newline, and a carriage return in front of a
newline or at the end is no part of the line. -/
def textLines (text : JsString) : List JsString :=
  (if text.getLast? = some newlineUnit then (splitLines text).dropLast else splitLines text).map dropReturn

theorem splitLines_cut (hraws : ∀ raw ∈ raws, newlineUnit ∉ raw) (htext : newlineUnit ∉ text) :
    splitLines (raws.flatMap (· ++ [newlineUnit]) ++ text) = raws ++ [text] := by
  induction raws with
  | nil => exact splitLines_eq_singleton htext
  | cons raw rest ih =>
    rw [forall_mem_cons] at hraws
    rw [flatMap_cons, append_assoc, append_assoc, singleton_append]
    calc
      splitLines (raw ++ newlineUnit :: (rest.flatMap (· ++ [newlineUnit]) ++ text)) =
          splitLines raw ++ splitLines (rest.flatMap (· ++ [newlineUnit]) ++ text) :=
        splitOn_append_cons_self raw _
      _ = raw :: rest ++ [text] := by rw [splitLines_eq_singleton hraws.1, ih hraws.2]; rfl

theorem textLines_cut (hraws : ∀ raw ∈ raws, newlineUnit ∉ raw) (htext : newlineUnit ∉ text) :
    textLines (raws.flatMap (· ++ [newlineUnit]) ++ text) =
      raws.map dropReturn ++ if text = [] ∧ raws ≠ [] then [] else [dropReturn text] := by
  have hends : (raws.flatMap (· ++ [newlineUnit]) ++ text).getLast? = some newlineUnit ↔
      text = [] ∧ raws ≠ [] := by
    rcases eq_nil_or_concat' text with rfl | ⟨front, last, rfl⟩
    · rcases eq_nil_or_concat' raws with rfl | ⟨front, last, rfl⟩
      · simp
      · simp
    · have hlast : last ≠ newlineUnit := by
        rintro rfl
        exact htext (by simp)
      simp [← append_assoc, hlast]
  rw [textLines, splitLines_cut hraws htext, if_congr hends rfl rfl, dropLast_concat]
  split_ifs
  · rw [append_nil]
  · rw [map_append, map_singleton]

theorem finishLines_eq (state : StreamState) (pending : JsString)
    (h : state.sawAnyLine = !raws.isEmpty) :
    let pushed := state.emitter.pushLines hash options
      (if pending = [] ∧ raws ≠ [] then [] else [dropReturn pending])
    finishLines hash options state pending = pushed.1 ++ truthy pushed.2.flush.1 := by
  cases pending with
  | nil => cases raws <;> simp_all [finishLines, HashlineChunkEmitter.pushLines, dropReturn]
  | cons => simp [finishLines, HashlineChunkEmitter.pushLines]

theorem joinLines_flatten {groups : List (List JsString)} (h : [] ∉ groups) :
    joinLines (groups.map joinLines) = joinLines groups.flatten := by
  induction groups with
  | nil => rfl
  | cons group rest ih =>
    rw [mem_cons, not_or] at h
    cases rest with
    | nil => simp [joinLines]
    | cons next others =>
      have hrest : (next :: others).flatten ≠ [] := by
        simp only [mem_cons, not_or] at h
        simp [Ne.symm h.2.1]
      rw [flatten_cons, joinLines_append (Ne.symm h.1) hrest, ← ih h.2]
      simp [joinLines]

/-- The whole run pushes the lines of the decoded text and flushes. -/
theorem streamHashLinesFromUtf8_eq (options : HashlineStreamOptions) (chunks : List Bytes) :
    let pushed := HashlineChunkEmitter.pushLines hash (resolveHashlineStreamOptions options)
      ⟨options.startLine.getD 1, [], 0⟩ (textLines (decoder.text chunks.flatten))
    streamHashLinesFromUtf8 hash decoder options chunks = pushed.1 ++ truthy pushed.2.flush.1 := by
  obtain ⟨hpend, text, raws, htext, hreads⟩ := reads_readChunks hash
    (resolveHashlineStreamOptions options) decoder decoder.fresh chunks
    ⟨⟨options.startLine.getD 1, [], 0⟩, [], false⟩ (by simp)
  have hfinish {coder} {pending} (h : newlineUnit ∉ pending) :
      newlineUnit ∉ pending ++ decoder.finish coder := by
    rw [mem_append, not_or]
    exact ⟨h, fun hmem ↦ absurd (decoder.replaces _ _ hmem) (by decide)⟩
  have hcut := hreads.cut
  rw [nil_append] at hcut
  rw [← decoder.chunkIndependent, htext, hcut, append_assoc,
    textLines_cut hreads.whole (hfinish hpend), pushLines_append, ← hreads.pushed]
  dsimp only
  rw [append_assoc]
  exact congrArg _ (finishLines_eq _ _ _ _ hreads.saw)

/-- The chunks join to the numbered lines of the decoded text, for every cut of the bytes and all
limits. -/
theorem join_streamHashLinesFromUtf8 (decoder : StreamDecoder) (options : HashlineStreamOptions)
    (chunks : List Bytes) :
    joinLines (streamHashLinesFromUtf8 hash decoder options chunks) =
      joinLines (numberLines hash (options.startLine.getD 1)
        (textLines (decoder.text chunks.flatten))) := by
  have hpushed := emits_pushLines hash (resolveHashlineStreamOptions options)
    ⟨options.startLine.getD 1, [], 0⟩ (textLines (decoder.text chunks.flatten)) (by simp)
  obtain ⟨hflush, -⟩ := emits_flush _ (hpushed.notMem (by simp [numberLines, formatHashLine_ne_nil]))
  rw [← append_nil (HashlineChunkEmitter.outLines _)] at hflush
  obtain ⟨groups, hgroups, hchunks, hlines⟩ := hpushed.append hflush
  simp only [append_nil, nil_append] at hlines
  rw [streamHashLinesFromUtf8_eq, hchunks, joinLines_flatten hgroups, ← hlines]

end

end GajaeCode.Hashline
