import GajaeCode.Text.Utf8Boundary

/-!
# The bytes of a snapshot

The serialiser appends texts to a staging buffer and flushes it as a chunk when it is full. Texts
are cut so that what is added fits and no surrogate pair is cut in two. The chunks together are
the UTF-8 bytes of the texts, and a range of them is read back whether the snapshot is still in
memory or not.
-/

namespace GajaeCode.Query

open Text List

/-- `CHUNK_BYTES`, the size of the pieces that a string is encoded in, `STRING_INDEX_BYTES` and
`STRING_READ_BYTES`. -/
structure StoreLimits where
  chunkBytes : ℕ
  outputUnits : ℕ
  stringIndexBytes : ℕ
  stringReadBytes : ℕ

def storeLimits : StoreLimits where
  chunkBytes := 4 * 1024 * 1024
  outputUnits := 64 * 1024
  stringIndexBytes := 64 * 1024
  stringReadBytes := 512 * 1024

/-! ## Cutting a text -/

/-- The binary search of `utf8ChunkEnd`. -/
def chunkEndSearch (text : JsString) (maxBytes : ℕ) : ℕ → ℕ → ℕ → ℕ
  | 0, low, _ => low
  | fuel + 1, low, high =>
      if low < high then
        if byteLength (text.take (low + (high - low + 1) / 2)) ≤ maxBytes then
          chunkEndSearch text maxBytes fuel (low + (high - low + 1) / 2) high
        else chunkEndSearch text maxBytes fuel low (low + (high - low + 1) / 2 - 1)
      else low

/-- `utf8ChunkEnd(text, start, maxBytes)`, for the text from the start on. -/
def utf8ChunkEnd (text : JsString) (maxBytes : ℕ) : ℕ :=
  let high := min text.length maxBytes
  let low := chunkEndSearch text maxBytes high 0 high
  if splitsPair (text.take low) (text.drop low) then low - 1 else low

/-- The search passes every start that fits. -/
theorem chunkEndSearch_spec {text : JsString} {maxBytes : ℕ} (fuel : ℕ) {low high : ℕ}
    (hle : low ≤ high) (hfuel : high ≤ low + fuel) :
    chunkEndSearch text maxBytes fuel low high ≤ high ∧
      ∀ count ≤ high, byteLength (text.take count) ≤ maxBytes →
        count ≤ chunkEndSearch text maxBytes fuel low high := by
  induction fuel generalizing low high with
  | zero => exact ⟨hle, fun count hcount _ ↦ by rw [chunkEndSearch]; omega⟩
  | succ fuel ih =>
    rw [chunkEndSearch]
    by_cases hlt : low < high
    · have hmiddle : ∃ middle, middle = low + (high - low + 1) / 2 ∧ low < middle ∧ middle ≤ high :=
        ⟨_, rfl, by omega, by omega⟩
      obtain ⟨middle, heq, hlow, hhigh⟩ := hmiddle
      rw [if_pos hlt, ← heq]
      by_cases hfitsMiddle : byteLength (text.take middle) ≤ maxBytes
      · rw [if_pos hfitsMiddle]
        exact ih hhigh (by omega)
      · rw [if_neg hfitsMiddle]
        have hleft : low ≤ middle - 1 := by omega
        have hless : middle - 1 ≤ low + fuel := by omega
        obtain ⟨hbound, hmost⟩ := ih hleft hless
        refine ⟨by omega, fun count hcount hcountFits ↦ hmost count ?_ hcountFits⟩
        by_contra hgt
        exact hfitsMiddle ((byteLength_take_mono text (by omega)).trans hcountFits)
    · rw [if_neg hlt]
      exact ⟨hle, fun count hcount _ ↦ by omega⟩

/-- The text is not cut inside a pair, and what is cut off is not empty where a character fits. -/
theorem utf8ChunkEnd_spec (text : JsString) (maxBytes : ℕ) :
    splitsPair (text.take (utf8ChunkEnd text maxBytes)) (text.drop (utf8ChunkEnd text maxBytes)) = false ∧
      (text ≠ [] → 4 ≤ maxBytes → 0 < utf8ChunkEnd text maxBytes) := by
  obtain ⟨hbound, hmost⟩ := @chunkEndSearch_spec text maxBytes (min text.length maxBytes) 0
    (min text.length maxBytes) (Nat.zero_le _) (Nat.le_of_eq (Nat.zero_add _).symm)
  rw [utf8ChunkEnd]
  generalize chunkEndSearch text maxBytes (min text.length maxBytes) 0 (min text.length maxBytes) = low
    at hbound hmost ⊢
  cases hcut : splitsPair (text.take low) (text.drop low) with
  | false =>
    refine ⟨hcut, fun hne hfour ↦ hmost 1 ?_ ?_⟩
    · have hpos := length_pos_iff.mpr hne
      omega
    · obtain ⟨unit, rest, rfl⟩ := exists_cons_of_ne_nil hne
      exact (IsCharacter.byteLength_le (.inl ⟨unit, rfl⟩)).trans hfour
  | true =>
    rw [if_pos rfl]
    rw [splitsPair, Bool.and_eq_true] at hcut
    obtain ⟨hlast, hnext⟩ := hcut
    -- the cut goes in front of the first half of the pair
    cases low with
    | zero => simp at hlast
    | succ front =>
      have hlt : front + 1 < text.length := by
        by_contra hge
        rw [drop_eq_nil_of_le (Nat.not_lt.mp hge)] at hnext
        simp at hnext
      obtain ⟨high, rest, hdrop⟩ : ∃ high rest, text.drop front = high :: rest := by
        apply exists_cons_of_ne_nil
        intro hnil
        have := drop_eq_nil_iff.mp hnil
        omega
      have htake : text.take (front + 1) = text.take front ++ [high] := by
        rw [take_add, hdrop]
        rfl
      have hhigh : isHighSurrogate high := by
        rw [htake] at hlast
        simpa using hlast
      rw [Nat.add_sub_cancel]
      refine ⟨?_, fun hne hfour ↦ ?_⟩
      · rw [hdrop, splitsPair]
        simp [isLowSurrogate_of_isHighSurrogate hhigh]
      · by_contra hzero
        have hfront : front = 0 := by omega
        subst hfront
        rw [drop_zero] at hdrop
        rw [hdrop] at hnext
        obtain ⟨low, more, rfl⟩ : ∃ low more, rest = low :: more := by
          apply exists_cons_of_ne_nil
          rintro rfl
          simp at hnext
        have hlow : isLowSurrogate low := by simpa using hnext
        have htwo := hmost 2 (by omega) (by
          rw [hdrop]
          exact (byteLength_pair hhigh hlow).le.trans hfour)
        omega

/-! ## Chunks -/

/-- What `#serialise` has written: the chunks and the staging buffer. -/
structure ChunkWriter where
  chunks : List Bytes
  buffer : Bytes

namespace ChunkWriter

def empty : ChunkWriter := ⟨[], []⟩

/-- All bytes so far. -/
def bytes (writer : ChunkWriter) : Bytes := writer.chunks.flatten ++ writer.buffer

/-- `flush()`. -/
def flush (writer : ChunkWriter) : ChunkWriter :=
  if writer.buffer = [] then writer else ⟨writer.chunks ++ [writer.buffer], []⟩

/-- The loop of `append(text)` on the rest of the text. -/
def appendLoop (capacity : ℕ) : ℕ → ChunkWriter → JsString → ChunkWriter
  | 0, writer, _ => writer
  | fuel + 1, writer, text =>
      if text = [] then writer
      else
        let ready := if capacity - writer.buffer.length = 0 then writer.flush else writer
        let stop := utf8ChunkEnd text (capacity - ready.buffer.length)
        if stop = 0 then appendLoop capacity fuel ready.flush text
        else
          let filled : ChunkWriter := ⟨ready.chunks, ready.buffer ++ encodeUtf8 (text.take stop)⟩
          appendLoop capacity fuel (if filled.buffer.length = capacity then filled.flush else filled)
            (text.drop stop)

/-- `append(text)`: a round that cuts nothing off is followed by one that does. -/
def append (capacity : ℕ) (writer : ChunkWriter) (text : JsString) : ChunkWriter :=
  appendLoop capacity (2 * text.length + 1) writer text

@[simp] theorem bytes_flush (writer : ChunkWriter) : writer.flush.bytes = writer.bytes := by
  unfold flush
  split_ifs with hempty
  · rfl
  · simp [bytes]

theorem buffer_flush (writer : ChunkWriter) : writer.flush.buffer = [] := by
  unfold flush
  split_ifs with hempty
  · exact hempty
  · rfl

/-- The loop writes the bytes of the text. The bound counts two rounds for each unit, and one less
where the buffer is empty. -/
theorem bytes_appendLoop {cap : ℕ} (hcap : 4 ≤ cap) (fuel : ℕ) (writer : ChunkWriter)
    (text : JsString) (hfuel : 2 * text.length + (if writer.buffer = [] then 0 else 1) ≤ fuel) :
    (appendLoop cap fuel writer text).bytes = writer.bytes ++ encodeUtf8 text := by
  induction fuel generalizing writer text with
  | zero =>
    have hempty : text = [] := length_eq_zero_iff.mp (by omega)
    rw [appendLoop, hempty]
    exact (append_nil _).symm
  | succ fuel ih =>
    rw [appendLoop]
    by_cases hempty : text = []
    · rw [if_pos hempty, hempty]
      exact (append_nil _).symm
    rw [if_neg hempty]
    have hready : ∃ ready, ready = (if cap - writer.buffer.length = 0 then writer.flush else writer) ∧
        ready.bytes = writer.bytes ∧ (writer.buffer = [] → ready.buffer = []) := by
      refine ⟨_, rfl, ?_, ?_⟩
      · split_ifs
        · exact bytes_flush writer
        · rfl
      · intro hnone
        split_ifs
        · exact buffer_flush writer
        · exact hnone
    obtain ⟨ready, heq, hbytes, hnone⟩ := hready
    rw [← heq]
    obtain ⟨hcut, hprog⟩ := utf8ChunkEnd_spec text (cap - ready.buffer.length)
    have hlength := length_pos_iff.mpr hempty
    by_cases hstop : utf8ChunkEnd text (cap - ready.buffer.length) = 0
    · -- nothing fits behind what is in the buffer, so there is something in it
      rw [if_pos hstop]
      have hused : writer.buffer ≠ [] := by
        intro hwriter
        rw [hnone hwriter, length_nil, Nat.sub_zero] at hprog hstop
        exact absurd hstop (hprog hempty hcap).ne'
      rw [if_neg hused] at hfuel
      rw [ih _ _ (by rw [if_pos (buffer_flush ready)]; omega), bytes_flush, hbytes]
    · rw [if_neg hstop]
      have htext : encodeUtf8 text =
          encodeUtf8 (text.take (utf8ChunkEnd text (cap - ready.buffer.length))) ++
            encodeUtf8 (text.drop (utf8ChunkEnd text (cap - ready.buffer.length))) := by
        rw [← encodeUtf8_append hcut, take_append_drop]
      rw [ih, htext, ← append_assoc, ← hbytes]
      · congr 1
        split_ifs
        · rw [bytes_flush]
          simp [bytes]
        · simp [bytes]
      · rw [length_drop]
        split_ifs <;> omega

theorem bytes_append {cap : ℕ} (hcap : 4 ≤ cap) (writer : ChunkWriter) (text : JsString) :
    (writer.append cap text).bytes = writer.bytes ++ encodeUtf8 text := by
  apply bytes_appendLoop hcap
  split_ifs <;> omega

end ChunkWriter

/-! ## Ranges -/

/-- `bytes.subarray(start, stop)`. -/
def slice (start stop : ℕ) (bytes : Bytes) : Bytes := (bytes.take stop).drop start

/-- The pieces of the chunks in the range, from the position of the first one on. -/
def readChunkRange (start stop : ℕ) : ℕ → List Bytes → Bytes
  | _, [] => []
  | position, chunk :: rest =>
      let piece := if start < position + chunk.length ∧ position < stop then
        slice (start - position) (min chunk.length (stop - position)) chunk else []
      if stop ≤ position + chunk.length then piece
      else piece ++ readChunkRange start stop (position + chunk.length) rest

/-- A revision: its payload while it is in memory, and its chunks. -/
structure StoredBytes where
  payload : Option Bytes
  chunks : List Bytes

/-- `#readBytes(revision, start, end)`. -/
def StoredBytes.readBytes (revision : StoredBytes) (start stop : ℕ) : Bytes :=
  match revision.payload with
  | some payload => slice start stop payload
  | none => readChunkRange start stop 0 revision.chunks

theorem slice_append (start stop : ℕ) (left right : Bytes) : slice start stop (left ++ right) =
      slice start stop left ++ slice (start - left.length) (stop - left.length) right := by
  rw [slice, take_append, drop_append, slice, slice, length_take]
  rcases Nat.le_total stop left.length with hle | hge
  · have hnone : stop - left.length = 0 := by omega
    simp [hnone]
  · rw [Nat.min_eq_right hge]

theorem slice_eq_nil_of_le {start stop : ℕ} {bytes : Bytes} (h : bytes.length ≤ start ∨ stop ≤ start) :
    slice start stop bytes = [] := by
  rw [slice, drop_eq_nil_iff, length_take]
  omega

theorem readChunkRange_eq_slice (start stop pos : ℕ) (chunks : List Bytes) :
    readChunkRange start stop pos chunks = slice (start - pos) (stop - pos) chunks.flatten := by
  induction chunks generalizing pos with
  | nil => simp [readChunkRange, slice]
  | cons chunk rest ih =>
    have hpiece : (if start < pos + chunk.length ∧ pos < stop then
          slice (start - pos) (min chunk.length (stop - pos)) chunk else []) =
        slice (start - pos) (stop - pos) chunk := by
      split_ifs with hin
      · rw [slice, slice, Nat.min_comm, ← take_take, take_length]
      · symm
        apply slice_eq_nil_of_le
        omega
    rw [readChunkRange]
    rw [hpiece, flatten_cons, slice_append]
    split_ifs with hlast
    · have hnone : slice (start - pos - chunk.length) (stop - pos - chunk.length) rest.flatten =
          [] := by
        apply slice_eq_nil_of_le
        omega
      rw [hnone, append_nil]
    · rw [ih, Nat.sub_sub, Nat.sub_sub]

/-- The bytes of a snapshot, in memory or not. -/
structure StoredBytes.Holds (revision : StoredBytes) (bytes : Bytes) : Prop where
  chunks : revision.chunks.flatten = bytes
  payload : ∀ payload ∈ revision.payload, payload = bytes

theorem StoredBytes.Holds.readBytes_eq {rev : StoredBytes} {bytes : Bytes}
    (h : rev.Holds bytes) (start stop : ℕ) :
    rev.readBytes start stop = slice start stop bytes := by
  unfold StoredBytes.readBytes
  cases hpayload : rev.payload with
  | some payload => rw [h.payload payload hpayload]
  | none => rw [readChunkRange_eq_slice, Nat.sub_zero, Nat.sub_zero, h.chunks]

end GajaeCode.Query
