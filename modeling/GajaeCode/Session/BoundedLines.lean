import GajaeCode.Machine.Checks
import GajaeCode.Text.LineFile

/-!
# Bounded readers of lines that arrive in chunks

Two readers hand the lines of a transcript to a visitor. One keeps the slices of an unfinished line
and joins them, the other copies them into a scratch buffer that grows. Both are compared with a
scan that takes one byte at a time, which does not know of chunks.
-/

namespace GajaeCode.Session

open Text Machine List

variable {required : ℕ} {bytes : Bytes}

/-- Why a scan ends early; a failed read does not reach the readers. -/
inductive LineScanFailure
  | oversizedLine
  | unterminated
  | aborted
  deriving DecidableEq

/-- The offset and the bytes of a visited line. -/
abbrev LineVisit := ℕ × Bytes

/-- A failed scan with the visits made before. -/
structure LineScanStop where
  failure : LineScanFailure
  visits : List LineVisit
  deriving DecidableEq

/-- The terminated lines of some bytes, each with its line break, and what is behind the last one. -/
def cutLines : Bytes → List Bytes × Bytes
  | [] => ([], [])
  | byte :: rest =>
      if byte = lineBreak then ([byte] :: (cutLines rest).1, (cutLines rest).2)
      else
        match (cutLines rest).1 with
        | [] => ([], byte :: (cutLines rest).2)
        | line :: more => ((byte :: line) :: more, (cutLines rest).2)

section

-- The visitor may look at everything it has seen; `false` makes the scan stop.
variable (maxLineBytes : ℕ) (visit : List LineVisit → Bool)

def visitLine (visits : List LineVisit) (start : ℕ) (line : Bytes) : Except LineScanStop (List LineVisit) :=
  if visit (visits ++ [(start, line)]) then .ok (visits ++ [(start, line)])
  else .error ⟨.aborted, visits ++ [(start, line)]⟩

/-! ## Slices -/

/-- The state of `createBoundedLineChunkConsumer`, with the visits made so far. -/
structure SliceReader where
  visits : List LineVisit
  pendingChunks : List Bytes
  pendingBytes : ℕ
  pendingStart : ℕ

namespace SliceReader

def initial : SliceReader := ⟨[], [], 0, 0⟩

/-- A segment that ends with a line break, at its place in the input. -/
def onSegment (reader : SliceReader) (place : ℕ) (segment : Bytes) : Except LineScanStop SliceReader :=
  if maxLineBytes < reader.pendingBytes + segment.length then .error ⟨.oversizedLine, reader.visits⟩
  else
    (visitLine visit reader.visits (if reader.pendingChunks = [] then place else reader.pendingStart)
      (if reader.pendingChunks = [] then segment else (reader.pendingChunks ++ [segment]).flatten)).map
        fun visits ↦ { reader with visits, pendingChunks := [], pendingBytes := 0 }

def onRemainder (reader : SliceReader) (place : ℕ) (remainder : Bytes) : Except LineScanStop SliceReader :=
  if remainder = [] then .ok reader
  else if maxLineBytes < reader.pendingBytes + remainder.length then .error ⟨.oversizedLine, reader.visits⟩
  else
    .ok { reader with
      pendingStart := if reader.pendingChunks = [] then place else reader.pendingStart
      pendingBytes := reader.pendingBytes + remainder.length
      pendingChunks := reader.pendingChunks ++ [remainder] }

def finish (includeUnterminated : Bool) (reader : SliceReader) : Except LineScanStop (List LineVisit) :=
  if reader.pendingBytes = 0 then .ok reader.visits
  else if !includeUnterminated then .error ⟨.unterminated, reader.visits⟩
  else visitLine visit reader.visits reader.pendingStart reader.pendingChunks.flatten

end SliceReader

/-! ## The scratch buffer -/

/-- The capacity is doubled up to the limit until it suffices. -/
def growCapacity {required : ℕ} (h : required ≤ maxLineBytes) (capacity : ℕ) (hpositive : 0 < capacity) :
    ℕ :=
  if hless : capacity < required then
    growCapacity h (min maxLineBytes (capacity * 2)) (by omega)
  else capacity
termination_by required - capacity

theorem growCapacity_spec (h : required ≤ maxLineBytes) (cap : ℕ) (hpositive : 0 < cap) :
    required ≤ growCapacity maxLineBytes h cap hpositive ∧
      0 < growCapacity maxLineBytes h cap hpositive := by
  induction cap, hpositive using growCapacity.induct maxLineBytes h with
  | case1 cap hpositive hless ih =>
    rw [growCapacity, dif_pos hless]
    exact ih
  | case2 cap hpositive hless =>
    rw [growCapacity, dif_neg hless]
    exact ⟨Nat.le_of_not_lt hless, hpositive⟩

theorem growCapacity_pos (h : required ≤ maxLineBytes) (cap : ℕ)
    (hpositive : 0 < cap) : 0 < growCapacity maxLineBytes h cap hpositive :=
  (growCapacity_spec maxLineBytes h cap hpositive).2

/-- A buffer has room for at least one byte. -/
abbrev Scratch := { buffer : Bytes // 0 < buffer.length }

/-- `source.copy(target, offset)`, for a source that fits. -/
def copyInto (target source : Bytes) (offset : ℕ) : Bytes :=
  target.take offset ++ source ++ target.drop (offset + source.length)

theorem le_length_copyInto (target source : Bytes) (offset : ℕ) :
    target.length ≤ (copyInto target source offset).length := by
  simp only [copyInto, length_append, length_take, length_drop]
  omega

def Scratch.copy (target : Scratch) (source : Bytes) (offset : ℕ) : Scratch :=
  ⟨copyInto target.val source offset,
    Nat.lt_of_lt_of_le target.property (le_length_copyInto target.val source offset)⟩

/-- The state of `createReusableBoundedLineChunkConsumer`, with the visits made so far. -/
structure ScratchReader where
  visits : List LineVisit
  pendingBuffer : Option Scratch
  pendingBytes : ℕ
  pendingStart : ℕ

namespace ScratchReader

def initial : ScratchReader := ⟨[], none, 0, 0⟩

-- What `Buffer.allocUnsafe` finds in memory.
variable (memory : ℕ → ℕ → UInt8)

def allocUnsafe {capacity : ℕ} (h : 0 < capacity) : Scratch :=
  ⟨(List.range capacity).map (memory capacity), by rwa [List.length_map, List.length_range]⟩

variable (reader : ScratchReader)

def ensureCapacity {required : ℕ} (h : required ≤ maxLineBytes) : Scratch :=
  match reader.pendingBuffer with
  | none => allocUnsafe memory (growCapacity_pos maxLineBytes h (64 * 1024) (by decide))
  | some buffer =>
      if required ≤ buffer.val.length then buffer
      else
        (allocUnsafe memory (growCapacity_pos maxLineBytes h buffer.val.length buffer.property)).copy
          (buffer.val.take reader.pendingBytes) 0

/-- The buffer with some bytes behind the pending ones. -/
def assemble (bytes : Bytes) (h : ¬maxLineBytes < reader.pendingBytes + bytes.length) : Scratch :=
  (reader.ensureCapacity maxLineBytes memory (Nat.le_of_not_lt h)).copy bytes reader.pendingBytes

def onSegment (place : ℕ) (segment : Bytes) : Except LineScanStop ScratchReader :=
  if h : maxLineBytes < reader.pendingBytes + segment.length then .error ⟨.oversizedLine, reader.visits⟩
  else if reader.pendingBytes = 0 then
    (visitLine visit reader.visits place segment).map fun visits ↦ { reader with visits }
  else
    (visitLine visit reader.visits reader.pendingStart
      ((reader.assemble maxLineBytes memory segment h).val.take (reader.pendingBytes + segment.length))).map
        fun visits ↦
          { reader with
            visits
            pendingBuffer := some (reader.assemble maxLineBytes memory segment h)
            pendingBytes := 0 }

def onRemainder (place : ℕ) (remainder : Bytes) : Except LineScanStop ScratchReader :=
  if remainder = [] then .ok reader
  else if h : maxLineBytes < reader.pendingBytes + remainder.length then
    .error ⟨.oversizedLine, reader.visits⟩
  else
    .ok { reader with
      pendingStart := if reader.pendingBytes = 0 then place else reader.pendingStart
      pendingBuffer := some (reader.assemble maxLineBytes memory remainder h)
      pendingBytes := reader.pendingBytes + remainder.length }

def finish (includeUnterminated : Bool) (reader : ScratchReader) : Except LineScanStop (List LineVisit) :=
  if reader.pendingBytes = 0 then .ok reader.visits
  else if !includeUnterminated then .error ⟨.unterminated, reader.visits⟩
  else
    visitLine visit reader.visits reader.pendingStart
      ((reader.pendingBuffer.elim [] Subtype.val).take reader.pendingBytes)

end ScratchReader

end

/-! ## Reading chunks -/

/-- What a reader does with the parts of a chunk, and at the end. -/
structure ChunkReader (σ : Type) where
  onSegment : σ → ℕ → Bytes → Except LineScanStop σ
  onRemainder : σ → ℕ → Bytes → Except LineScanStop σ
  finish : σ → Except LineScanStop (List LineVisit)

namespace ChunkReader

variable {σ : Type} (reader : ChunkReader σ)

def consumeSegments (state : σ) (place : ℕ) : List Bytes → Except LineScanStop σ
  | [] => .ok state
  | segment :: rest =>
      (reader.onSegment state place segment).bind fun next ↦
        consumeSegments next (place + segment.length) rest

def consume (state : σ) (chunk : Bytes) (chunkStart : ℕ) : Except LineScanStop σ :=
  (reader.consumeSegments state chunkStart (cutLines chunk).1).bind fun next ↦
    reader.onRemainder next (chunkStart + (cutLines chunk).1.flatten.length) (cutLines chunk).2

def consumeChunks (state : σ) (place : ℕ) : List Bytes → Except LineScanStop σ
  | [] => .ok state
  | chunk :: rest =>
      (reader.consume state chunk place).bind fun next ↦ consumeChunks next (place + chunk.length) rest

/-- The visits of a complete scan, or the failure that ended it. -/
def read (initial : σ) (chunks : List Bytes) : Except LineScanStop (List LineVisit) :=
  (reader.consumeChunks initial 0 chunks).bind reader.finish

end ChunkReader

/-! ## One byte at a time -/

theorem cutLines_spec (bytes : Bytes) :
    bytes = (cutLines bytes).1.flatten ++ (cutLines bytes).2 ∧ lineBreak ∉ (cutLines bytes).2 ∧
      ∀ line ∈ (cutLines bytes).1, ∃ body, line = body ++ [lineBreak] ∧ lineBreak ∉ body := by
  induction bytes with
  | nil => simp [cutLines]
  | cons byte rest ih =>
    obtain ⟨hrest, htail, hlines⟩ := ih
    rw [cutLines]
    split_ifs with hbreak
    · refine ⟨?_, htail, ?_⟩
      · rw [flatten_cons, append_assoc, ← hrest]
        rfl
      · rw [forall_mem_cons]
        exact ⟨⟨[], by rw [hbreak]; rfl, not_mem_nil⟩, hlines⟩
    · cases hcut : (cutLines rest).1 with
      | nil =>
        rw [hcut] at hrest
        refine ⟨by rw [flatten_nil, nil_append] at hrest ⊢; rw [← hrest], ?_, by simp⟩
        exact fun hmem ↦ (mem_cons.mp hmem).elim (fun h ↦ hbreak h.symm) htail
      | cons =>
        rw [hcut] at hrest hlines
        rw [forall_mem_cons] at hlines
        obtain ⟨⟨body, hline, hbody⟩, hmore⟩ := hlines
        refine ⟨?_, htail, ?_⟩
        · rw [flatten_cons, cons_append, cons_append, ← flatten_cons, ← hrest]
        · rw [forall_mem_cons]
          refine ⟨⟨byte :: body, by rw [hline]; rfl, ?_⟩, hmore⟩
          exact fun hmem ↦ (mem_cons.mp hmem).elim (fun h ↦ hbreak h.symm) hbody

/-- The visits, the offset of the unfinished line and its bytes. -/
structure LineScan where
  visits : List LineVisit
  start : ℕ
  pending : Bytes

namespace LineScan

variable (maxLineBytes : ℕ) (visit : List LineVisit → Bool)

def feed (scan : LineScan) (byte : UInt8) : Except LineScanStop LineScan :=
  if maxLineBytes < (scan.pending ++ [byte]).length then .error ⟨.oversizedLine, scan.visits⟩
  else if byte = lineBreak then
    (visitLine visit scan.visits scan.start (scan.pending ++ [byte])).map fun visits ↦
      ⟨visits, scan.start + (scan.pending ++ [byte]).length, []⟩
  else .ok { scan with pending := scan.pending ++ [byte] }

/-- The offset of the next byte. -/
def place (scan : LineScan) : ℕ := scan.start + scan.pending.length

def finish (includeUnterminated : Bool) (scan : LineScan) : Except LineScanStop (List LineVisit) :=
  if scan.pending = [] then .ok scan.visits
  else if !includeUnterminated then .error ⟨.unterminated, scan.visits⟩
  else visitLine visit scan.visits scan.start scan.pending

variable {maxLineBytes visit} {scan : LineScan}

theorem place_feed {byte : UInt8} {next : LineScan} (h : scan.feed maxLineBytes visit byte = .ok next) :
    next.place = scan.place + 1 := by
  rw [feed] at h
  split_ifs at h
  · rw [visitLine] at h
    split_ifs at h
    · cases h
      simp only [place, length_append, length_singleton, length_nil]
      omega
    · cases h
  · cases h
    simp only [place, length_append, length_singleton]
    omega

theorem place_foldlM_feed {next : LineScan}
    (h : bytes.foldlM (feed maxLineBytes visit) scan = .ok next) : next.place = scan.place + bytes.length := by
  induction bytes generalizing scan with
  | nil =>
    cases h
    rfl
  | cons byte rest ih =>
    rw [foldlM_cons, bind_eq_ok_iff] at h
    obtain ⟨middle, hfirst, hrest⟩ := h
    rw [ih hrest, place_feed hfirst, length_cons]
    omega

/-- Bytes without a line break are only taken into the unfinished line, which may become too long early. -/
theorem foldlM_feed_concat {body : Bytes} (hbreak : lineBreak ∉ body) (last : UInt8) :
    (body ++ [last]).foldlM (feed maxLineBytes visit) scan =
      { scan with pending := scan.pending ++ body }.feed maxLineBytes visit last := by
  induction body generalizing scan with
  | nil =>
    rw [nil_append, foldlM_cons, append_nil]
    cases scan.feed maxLineBytes visit last <;> rfl
  | cons byte rest ih =>
    rw [mem_cons, not_or] at hbreak
    rw [cons_append, foldlM_cons, feed]
    by_cases hlong : maxLineBytes < (scan.pending ++ [byte]).length
    · rw [if_pos hlong, feed, if_pos (Nat.lt_of_lt_of_le hlong (by simp))]
      rfl
    · rw [if_neg hlong, if_neg (Ne.symm hbreak.1)]
      exact (ih hbreak.2).trans (by rw [append_assoc, singleton_append])

/-- Bytes without a line break extend the unfinished line. -/
theorem foldlM_feed_plain (hbreak : lineBreak ∉ bytes) (hne : bytes ≠ []) :
    bytes.foldlM (feed maxLineBytes visit) scan =
      if maxLineBytes < (scan.pending ++ bytes).length then .error ⟨.oversizedLine, scan.visits⟩
      else .ok { scan with pending := scan.pending ++ bytes } := by
  obtain rfl | ⟨body, last, rfl⟩ := eq_nil_or_concat' bytes
  · exact absurd rfl hne
  · rw [mem_append, not_or, mem_singleton] at hbreak
    rw [foldlM_feed_concat hbreak.1, feed, if_neg (Ne.symm hbreak.2)]
    dsimp only
    rw [append_assoc]

/-- Bytes that end with their only line break end the line. -/
theorem foldlM_feed_line {body : Bytes} (hbreak : lineBreak ∉ body) :
    (body ++ [lineBreak]).foldlM (feed maxLineBytes visit) scan =
      if maxLineBytes < (scan.pending ++ (body ++ [lineBreak])).length then
        .error ⟨.oversizedLine, scan.visits⟩
      else
        (visitLine visit scan.visits scan.start (scan.pending ++ (body ++ [lineBreak]))).map fun visits ↦
          ⟨visits, scan.start + (scan.pending ++ (body ++ [lineBreak])).length, []⟩ := by
  rw [foldlM_feed_concat hbreak, feed, if_pos rfl]
  dsimp only
  rw [append_assoc]

end LineScan

/-! ## Readers that follow the scan -/

/-- On whole segments and remainders the reader does what the scan does byte by byte. -/
structure FollowsScan {σ : Type} (maxLineBytes : ℕ) (visit : List LineVisit → Bool) (includeUnterminated : Bool)
    (reader : ChunkReader σ) (relation : σ → LineScan → Prop) : Prop where
  segment : ∀ {state scan body}, relation state scan → lineBreak ∉ body →
    Agree relation (reader.onSegment state scan.place (body ++ [lineBreak]))
      ((body ++ [lineBreak]).foldlM (LineScan.feed maxLineBytes visit) scan)
  remainder : ∀ {state scan bytes}, relation state scan → lineBreak ∉ bytes →
    Agree relation (reader.onRemainder state scan.place bytes)
      (bytes.foldlM (LineScan.feed maxLineBytes visit) scan)
  finish : ∀ {state scan}, relation state scan →
    reader.finish state = scan.finish visit includeUnterminated

namespace FollowsScan

variable {σ : Type} {maxLineBytes : ℕ} {visit : List LineVisit → Bool} {includeUnterminated : Bool}
  {reader : ChunkReader σ} {relation : σ → LineScan → Prop} {state : σ} {scan : LineScan}

section

variable (h : FollowsScan maxLineBytes visit includeUnterminated reader relation)

include h

theorem consumeSegments (hstate : relation state scan) {lines : List Bytes}
    (hlines : ∀ line ∈ lines, ∃ body, line = body ++ [lineBreak] ∧ lineBreak ∉ body) :
    Agree relation (reader.consumeSegments state scan.place lines)
      (lines.flatten.foldlM (LineScan.feed maxLineBytes visit) scan) := by
  induction lines generalizing state scan with
  | nil => exact hstate
  | cons line rest ih =>
    rw [forall_mem_cons] at hlines
    obtain ⟨⟨body, rfl, hbody⟩, hrest⟩ := hlines
    rw [flatten_cons, foldlM_append]
    apply ((h.segment hstate hbody).and_right fun _ ↦ LineScan.place_foldlM_feed).bind
    rintro next nextScan ⟨hnext, hplace⟩
    rw [← hplace]
    exact ih hnext hrest

theorem consume (hstate : relation state scan) (chunk : Bytes) :
    Agree relation (reader.consume state chunk scan.place)
      (chunk.foldlM (LineScan.feed maxLineBytes visit) scan) := by
  obtain ⟨hchunk, htail, hlines⟩ := cutLines_spec chunk
  have hfeed : chunk.foldlM (LineScan.feed maxLineBytes visit) scan =
      ((cutLines chunk).1.flatten.foldlM (LineScan.feed maxLineBytes visit) scan).bind fun next ↦
        (cutLines chunk).2.foldlM (LineScan.feed maxLineBytes visit) next := by
    conv_lhs => rw [hchunk, foldlM_append]
    rfl
  rw [hfeed, ChunkReader.consume]
  apply ((h.consumeSegments hstate hlines).and_right fun _ ↦ LineScan.place_foldlM_feed).bind
  rintro next nextScan ⟨hnext, hplace⟩
  rw [← hplace]
  exact h.remainder hnext htail

theorem consumeChunks (hstate : relation state scan) (chunks : List Bytes) :
    Agree relation (reader.consumeChunks state scan.place chunks)
      (chunks.flatten.foldlM (LineScan.feed maxLineBytes visit) scan) := by
  induction chunks generalizing state scan with
  | nil => exact hstate
  | cons chunk rest ih =>
    rw [flatten_cons, foldlM_append]
    apply ((h.consume hstate chunk).and_right fun _ ↦ LineScan.place_foldlM_feed).bind
    rintro next nextScan ⟨hnext, hplace⟩
    rw [← hplace]
    exact ih hnext

/-- The chunks do not matter to a reader that follows the scan. -/
theorem read_eq (hstate : relation state ⟨[], 0, []⟩) (chunks : List Bytes) :
    reader.read state chunks =
      (chunks.flatten.foldlM (LineScan.feed maxLineBytes visit) ⟨[], 0, []⟩).bind
        (LineScan.finish visit includeUnterminated) := by
  apply Agree.eq
  apply (h.consumeChunks hstate chunks).bind
  intro next nextScan hnext
  exact agree_of_eq (h.finish hnext)

end

end FollowsScan

open LineScan (feed finish place_foldlM_feed foldlM_feed_line foldlM_feed_plain)

/-! ## The whole input, split at its line breaks -/

section

variable (maxLineBytes : ℕ) (visit : List LineVisit → Bool) (includeUnterminated : Bool)

def visitLines (visits : List LineVisit) (start : ℕ) : List Bytes → Except LineScanStop (List LineVisit)
  | [] => .ok visits
  | line :: rest =>
      if maxLineBytes < line.length then .error ⟨.oversizedLine, visits⟩
      else
        (visitLine visit visits start line).bind fun visits ↦
          visitLines visits (start + line.length) rest

/-- What is behind the last line break. -/
def visitTail (visits : List LineVisit) (start : ℕ) (tail : Bytes) : Except LineScanStop (List LineVisit) :=
  if tail = [] then .ok visits
  else if maxLineBytes < tail.length then .error ⟨.oversizedLine, visits⟩
  else if !includeUnterminated then .error ⟨.unterminated, visits⟩
  else visitLine visit visits start tail

/-- The lines of the input in order, and then its tail. -/
def splitRead (input : Bytes) : Except LineScanStop (List LineVisit) :=
  (visitLines maxLineBytes visit [] 0 (cutLines input).1).bind fun visits ↦
    visitTail maxLineBytes visit includeUnterminated visits (cutLines input).1.flatten.length
      (cutLines input).2

variable {maxLineBytes visit includeUnterminated}

theorem foldlM_feed_lines {lines : List Bytes}
    (hlines : ∀ line ∈ lines, ∃ body, line = body ++ [lineBreak] ∧ lineBreak ∉ body)
    (visits : List LineVisit) (start : ℕ) :
    lines.flatten.foldlM (feed maxLineBytes visit) ⟨visits, start, []⟩ =
      (visitLines maxLineBytes visit visits start lines).map fun visits ↦
        ⟨visits, start + lines.flatten.length, []⟩ := by
  induction lines generalizing visits start with
  | nil => rfl
  | cons line rest ih =>
    rw [forall_mem_cons] at hlines
    obtain ⟨⟨body, rfl, hbody⟩, hrest⟩ := hlines
    rw [flatten_cons, foldlM_append, foldlM_feed_line hbody, nil_append, visitLines]
    split_ifs with hlong
    · rfl
    · cases hvisit : visitLine visit visits start (body ++ [lineBreak]) with
      | error => rfl
      | ok visits' =>
        change rest.flatten.foldlM (feed maxLineBytes visit)
          ⟨visits', start + (body ++ [lineBreak]).length, []⟩ = _
        have hlen : start + (body ++ [lineBreak]).length + rest.flatten.length =
            start + (body ++ [lineBreak] ++ rest.flatten).length := by
          rw [@length_append _ (body ++ [lineBreak]), Nat.add_assoc]
        rw [ih hrest, hlen]
        rfl

theorem foldlM_feed_eq_splitRead (input : Bytes) :
    (input.foldlM (feed maxLineBytes visit) ⟨[], 0, []⟩).bind (finish visit includeUnterminated) =
      splitRead maxLineBytes visit includeUnterminated input := by
  obtain ⟨hinput, htail, hlines⟩ := cutLines_spec input
  conv_lhs => rw [hinput, foldlM_append, foldlM_feed_lines hlines, Nat.zero_add]
  rw [splitRead]
  cases visitLines maxLineBytes visit [] 0 (cutLines input).1 with
  | error => rfl
  | ok visits =>
    change ((cutLines input).2.foldlM (feed maxLineBytes visit) ⟨visits, _, []⟩).bind _ =
      visitTail maxLineBytes visit includeUnterminated visits _ (cutLines input).2
    rw [visitTail]
    by_cases hempty : (cutLines input).2 = []
    · rw [hempty, if_pos rfl]
      rfl
    · rw [foldlM_feed_plain htail hempty, if_neg hempty, nil_append]
      split_ifs with hlong hunterminated
      · rfl
      · change finish visit includeUnterminated _ = _
        rw [finish, if_neg hempty, if_pos hunterminated]
      · change finish visit includeUnterminated _ = _
        rw [finish, if_neg hempty, if_neg hunterminated]

end

/-! ## Both readers follow the scan -/

section

variable {maxLineBytes : ℕ} {visit : List LineVisit → Bool} {includeUnterminated : Bool}

/-- The slices are those of the unfinished line. -/
structure SliceReader.Keeps (reader : SliceReader) (scan : LineScan) : Prop where
  visits : reader.visits = scan.visits
  chunks : reader.pendingChunks.flatten = scan.pending
  bytes : reader.pendingBytes = scan.pending.length
  empty : reader.pendingChunks = [] ↔ scan.pending = []
  start : scan.pending ≠ [] → reader.pendingStart = scan.start

/-- The buffer begins with the bytes of the unfinished line. -/
structure ScratchReader.Keeps (reader : ScratchReader) (scan : LineScan) : Prop where
  visits : reader.visits = scan.visits
  bytes : reader.pendingBytes = scan.pending.length
  buffer : scan.pending ≠ [] → (reader.pendingBuffer.elim [] Subtype.val).take reader.pendingBytes = scan.pending
  start : scan.pending ≠ [] → reader.pendingStart = scan.start

theorem visitLine_map_agree {σ τ : Type} {relation : σ → τ → Prop} {visits : List LineVisit} {start : ℕ}
    {line : Bytes} {left : List LineVisit → σ} {right : List LineVisit → τ}
    (h : ∀ visits, relation (left visits) (right visits)) :
    Agree relation ((visitLine visit visits start line).map left)
      ((visitLine visit visits start line).map right) := by
  cases visitLine visit visits start line with
  | error => rfl
  | ok visits => exact h visits

def sliceReader (maxLineBytes : ℕ) (visit : List LineVisit → Bool) (includeUnterminated : Bool) :
    ChunkReader SliceReader where
  onSegment := SliceReader.onSegment maxLineBytes visit
  onRemainder := SliceReader.onRemainder maxLineBytes
  finish := SliceReader.finish visit includeUnterminated

def scratchReader (maxLineBytes : ℕ) (visit : List LineVisit → Bool) (memory : ℕ → ℕ → UInt8)
    (includeUnterminated : Bool) : ChunkReader ScratchReader where
  onSegment := ScratchReader.onSegment maxLineBytes visit memory
  onRemainder := ScratchReader.onRemainder maxLineBytes memory
  finish := ScratchReader.finish visit includeUnterminated

theorem SliceReader.Keeps.start_eq {reader : SliceReader} {scan : LineScan} (h : reader.Keeps scan) :
    (if reader.pendingChunks = [] then scan.place else reader.pendingStart) = scan.start := by
  split_ifs with hempty
  · rw [LineScan.place, h.empty.mp hempty, length_nil, Nat.add_zero]
  · exact h.start fun hpend ↦ hempty (h.empty.mpr hpend)

theorem ScratchReader.Keeps.start_eq {reader : ScratchReader} {scan : LineScan} (h : reader.Keeps scan) :
    (if reader.pendingBytes = 0 then scan.place else reader.pendingStart) = scan.start := by
  split_ifs with hempty
  · rw [LineScan.place, ← h.bytes, hempty, Nat.add_zero]
  · apply h.start
    intro hpend
    rw [h.bytes, hpend] at hempty
    exact hempty rfl

theorem sliceReader_follows :
    FollowsScan maxLineBytes visit includeUnterminated (sliceReader maxLineBytes visit includeUnterminated)
      SliceReader.Keeps where
  segment := by
    intro reader scan body h hbody
    rw [foldlM_feed_line hbody]
    generalize body ++ [lineBreak] = segment
    change Agree _ (SliceReader.onSegment maxLineBytes visit reader scan.place segment) _
    have hline : (if reader.pendingChunks = [] then segment else (reader.pendingChunks ++ [segment]).flatten) =
        scan.pending ++ segment := by
      split_ifs with hempty
      · rw [h.empty.mp hempty, nil_append]
      · rw [flatten_append, h.chunks, flatten_singleton]
    have hlen : reader.pendingBytes + segment.length = (scan.pending ++ segment).length := by
      rw [h.bytes, length_append]
    rw [SliceReader.onSegment, hline, h.start_eq, hlen, h.visits]
    split_ifs
    · rfl
    · apply visitLine_map_agree
      intro visits
      exact ⟨rfl, rfl, rfl, ⟨fun _ ↦ rfl, fun _ ↦ rfl⟩, fun hne ↦ absurd rfl hne⟩
  remainder := by
    intro reader scan bytes h hbreak
    change Agree _ (SliceReader.onRemainder maxLineBytes reader scan.place bytes) _
    have hlen : reader.pendingBytes + bytes.length = (scan.pending ++ bytes).length := by
      rw [h.bytes, length_append]
    rw [SliceReader.onRemainder]
    by_cases hempty : bytes = []
    · rw [if_pos hempty, hempty]
      exact h
    · rw [if_neg hempty, foldlM_feed_plain hbreak hempty, hlen, h.start_eq, h.visits]
      split_ifs
      · rfl
      · refine ⟨rfl, ?_, rfl, ?_, fun _ ↦ rfl⟩
        · change (reader.pendingChunks ++ [bytes]).flatten = scan.pending ++ bytes
          rw [flatten_append, h.chunks, flatten_singleton]
        · simp [hempty]
  finish := by
    intro reader scan h
    change reader.finish visit includeUnterminated = _
    simp only [SliceReader.finish, finish, h.bytes, h.visits, h.chunks, length_eq_zero_iff]
    split_ifs with hempty
    · rfl
    · rfl
    · rw [h.start hempty]

theorem take_copyInto {target source : Bytes} {offset : ℕ} (h : offset ≤ target.length) :
    (copyInto target source offset).take (offset + source.length) = target.take offset ++ source := by
  have hlen : (target.take offset ++ source).length = offset + source.length := by
    rw [length_append, length_take, Nat.min_eq_left h]
  rw [copyInto, ← hlen, take_left]

section

variable {memory : ℕ → ℕ → UInt8} {reader : ScratchReader} {scan : LineScan}

/-- A buffer of sufficient size still begins with the pending bytes. -/
theorem ScratchReader.Keeps.ensureCapacity (h : reader.Keeps scan)
    (hrequired : required ≤ maxLineBytes) :
    required ≤ (reader.ensureCapacity maxLineBytes memory hrequired).val.length ∧
      (reader.ensureCapacity maxLineBytes memory hrequired).val.take reader.pendingBytes = scan.pending := by
  have hbefore : (reader.pendingBuffer.elim [] Subtype.val).take reader.pendingBytes = scan.pending := by
    by_cases hempty : scan.pending = []
    · rw [h.bytes, hempty]
      rfl
    · exact h.buffer hempty
  rw [ScratchReader.ensureCapacity]
  cases hbuffer : reader.pendingBuffer with
  | none =>
    rw [hbuffer] at hbefore
    have hempty : scan.pending = [] := hbefore.symm.trans take_nil
    refine ⟨?_, by rw [h.bytes, hempty]; rfl⟩
    simp only [allocUnsafe, length_map, length_range]
    exact (growCapacity_spec maxLineBytes hrequired _ _).1
  | some buffer =>
    rw [hbuffer] at hbefore
    change buffer.val.take reader.pendingBytes = scan.pending at hbefore
    dsimp only
    split_ifs with hfits
    · exact ⟨hfits, hbefore⟩
    · rw [hbefore, h.bytes]
      refine ⟨Nat.le_trans ?_ (le_length_copyInto _ _ _), ?_⟩
      · simp only [allocUnsafe, length_map, length_range]
        exact (growCapacity_spec maxLineBytes hrequired _ _).1
      · have hcopied := fun target ↦ @take_copyInto target scan.pending 0 (Nat.zero_le _)
        simp only [Nat.zero_add, take_zero, nil_append] at hcopied
        exact hcopied _

/-- The assembled buffer begins with the pending bytes and the new ones. -/
theorem ScratchReader.Keeps.assemble (h : reader.Keeps scan)
    (hfits : ¬maxLineBytes < reader.pendingBytes + bytes.length) :
    (reader.assemble maxLineBytes memory bytes hfits).val.take (reader.pendingBytes + bytes.length) =
      scan.pending ++ bytes := by
  obtain ⟨hsize, htaken⟩ := @ensureCapacity _ maxLineBytes memory reader scan h (Nat.le_of_not_lt hfits)
  rw [ScratchReader.assemble, Scratch.copy, take_copyInto (by omega), htaken]

end

theorem scratchReader_follows {memory : ℕ → ℕ → UInt8} :
    FollowsScan maxLineBytes visit includeUnterminated
      (scratchReader maxLineBytes visit memory includeUnterminated) ScratchReader.Keeps where
  segment := by
    intro reader scan body h hbody
    rw [foldlM_feed_line hbody]
    generalize body ++ [lineBreak] = segment
    change Agree _ (ScratchReader.onSegment maxLineBytes visit memory reader scan.place segment) _
    have hlen : reader.pendingBytes + segment.length = (scan.pending ++ segment).length := by
      rw [h.bytes, length_append]
    have hstart := h.start_eq
    rw [ScratchReader.onSegment, ← hlen]
    split_ifs with hlong hempty
    · rw [h.visits]
      rfl
    · have hpend : scan.pending = [] := length_eq_zero_iff.mp (h.bytes.symm.trans hempty)
      rw [if_pos hempty] at hstart
      rw [hpend, nil_append, hstart, h.visits]
      apply visitLine_map_agree
      intro visits
      exact ⟨rfl, hempty, fun hne ↦ absurd rfl hne, fun hne ↦ absurd rfl hne⟩
    · rw [if_neg hempty] at hstart
      rw [h.assemble, hstart, h.visits]
      apply visitLine_map_agree
      intro visits
      exact ⟨rfl, rfl, fun hne ↦ absurd rfl hne, fun hne ↦ absurd rfl hne⟩
  remainder := by
    intro reader scan bytes h hbreak
    change Agree _ (ScratchReader.onRemainder maxLineBytes memory reader scan.place bytes) _
    have hlen : reader.pendingBytes + bytes.length = (scan.pending ++ bytes).length := by
      rw [h.bytes, length_append]
    rw [ScratchReader.onRemainder]
    by_cases hempty : bytes = []
    · rw [if_pos hempty, hempty]
      exact h
    · rw [if_neg hempty, foldlM_feed_plain hbreak hempty, ← hlen, h.start_eq]
      split_ifs with hlong
      · rw [h.visits]
        rfl
      · exact ⟨h.visits, hlen, fun _ ↦ h.assemble hlong, fun _ ↦ rfl⟩
  finish := by
    intro reader scan h
    change reader.finish visit includeUnterminated = _
    have hbytes : reader.pendingBytes = 0 ↔ scan.pending = [] := by rw [h.bytes, length_eq_zero_iff]
    simp only [ScratchReader.finish, finish, h.visits, hbytes]
    split_ifs with hempty
    · rfl
    · rfl
    · rw [h.buffer hempty, h.start hempty]

end

/-- Both readers make the visits, and fail where, the whole input split at its line breaks does;
the chunks do not matter. -/
theorem read_eq_splitRead (maxLineBytes : ℕ) (visit : List LineVisit → Bool) (memory : ℕ → ℕ → UInt8)
    (includeUnterminated : Bool) (chunks : List Bytes) :
    (sliceReader maxLineBytes visit includeUnterminated).read .initial chunks =
        splitRead maxLineBytes visit includeUnterminated chunks.flatten ∧
      (scratchReader maxLineBytes visit memory includeUnterminated).read .initial chunks =
        splitRead maxLineBytes visit includeUnterminated chunks.flatten := by
  have hslices : SliceReader.initial.Keeps ⟨[], 0, []⟩ :=
    ⟨rfl, rfl, rfl, ⟨fun _ ↦ rfl, fun _ ↦ rfl⟩, fun _ ↦ rfl⟩
  have hscratch : ScratchReader.initial.Keeps ⟨[], 0, []⟩ :=
    ⟨rfl, rfl, fun hne ↦ absurd rfl hne, fun _ ↦ rfl⟩
  rw [← foldlM_feed_eq_splitRead]
  exact ⟨sliceReader_follows.read_eq hslices chunks, scratchReader_follows.read_eq hscratch chunks⟩

end GajaeCode.Session
