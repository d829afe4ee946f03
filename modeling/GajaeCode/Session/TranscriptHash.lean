import GajaeCode.Session.BoundedLines

/-!
# Checkpoints of the transcript hash

The first open of a transcript hashes it line by line and copies the hash state at every multiple
of an interval. Each copy is the state of exactly that many bytes, however the lines and the
chunks they were read in are cut.
-/

namespace GajaeCode.Session

open Text List

def hashCheckpointInterval : ℕ := 64 * 1024 * 1024

/-- The running hash, the two offsets, and the checkpoints with the offset of each. -/
structure TranscriptHash (H : Type) where
  hash : H
  nextCheckpointOffset : ℕ
  hashedOffset : ℕ
  checkpoints : List (ℕ × H)

namespace TranscriptHash

-- A streaming hash takes in its bytes one after the other.
variable {H : Type} (absorb : H → UInt8 → H) (start : H) (state : TranscriptHash H)

def initial : TranscriptHash H := ⟨start, hashCheckpointInterval, 0, [(0, start)]⟩

def push : TranscriptHash H :=
  { state with
    nextCheckpointOffset := state.nextCheckpointOffset + hashCheckpointInterval
    checkpoints := state.checkpoints ++ [(state.nextCheckpointOffset, state.hash)] }

/-- `hash.update` with the bytes up to an offset, where a checkpoint may be due. -/
def update (bytes : Bytes) (stop : ℕ) : TranscriptHash H :=
  let state := { state with hash := bytes.foldl absorb state.hash, hashedOffset := stop }
  if stop = state.nextCheckpointOffset then state.push else state

/-- The loop over a line, from the offset `absolute` on. -/
def hashLine (state : TranscriptHash H) (absolute : ℕ) (rest : Bytes) : TranscriptHash H :=
  if rest = [] then state
  else if state.nextCheckpointOffset ≤ absolute then hashLine state.push absolute rest
  else
    let count := min rest.length (max 1 (state.nextCheckpointOffset - absolute))
    hashLine (state.update absorb (rest.take count) (absolute + count)) (absolute + count) (rest.drop count)
termination_by (rest.length, absolute + 1 - state.nextCheckpointOffset)
decreasing_by
  · exact .right _ (by simp only [push, hashCheckpointInterval]; omega)
  · have := length_pos_iff.mpr ‹rest ≠ []›
    exact .left _ _ (by rw [length_drop]; omega)

def updateBoundedTranscriptHash (lineStart : ℕ) (lineBytes : Bytes) : Bool × TranscriptHash H :=
  if lineStart ≠ state.hashedOffset then (false, state)
  else (true, { hashLine absorb state lineStart lineBytes with hashedOffset := lineStart + lineBytes.length })

/-- The state when some lines have been visited. -/
def ofVisits (visits : List LineVisit) : TranscriptHash H :=
  visits.foldl (fun state visit ↦ (state.updateBoundedTranscriptHash absorb visit.1 visit.2).2) (initial start)

/-- The multiples of the interval up to a size, each with the hash of that many bytes. -/
def prefixCheckpoints (bytes : Bytes) (size : ℕ) : List (ℕ × H) :=
  (range (size / hashCheckpointInterval + 1)).map fun i ↦
    (i * hashCheckpointInterval, (bytes.take (i * hashCheckpointInterval)).foldl absorb start)

/-- The state that has hashed some bytes. -/
structure Hashed (bytes : Bytes) : Prop where
  hash : state.hash = bytes.foldl absorb start
  hashed : state.hashedOffset = bytes.length
  next : state.nextCheckpointOffset = (bytes.length / hashCheckpointInterval + 1) * hashCheckpointInterval
  checkpoints : state.checkpoints = prefixCheckpoints absorb start bytes bytes.length

theorem hashed_initial : (initial start).Hashed absorb start [] := ⟨rfl, rfl, rfl, rfl⟩

variable {absorb start state} {bytes : Bytes}

theorem prefixCheckpoints_append (more : Bytes) {size : ℕ} (h : size ≤ bytes.length) :
    prefixCheckpoints absorb start (bytes ++ more) size = prefixCheckpoints absorb start bytes size := by
  refine map_congr_left fun i hi ↦ ?_
  have hle : i * hashCheckpointInterval ≤ size :=
    (Nat.le_div_iff_mul_le (by decide)).mp (Nat.le_of_lt_succ (mem_range.mp hi))
  rw [take_append_of_le_length (Nat.le_trans hle h)]

theorem Hashed.lt_next (h : state.Hashed absorb start bytes) : bytes.length < state.nextCheckpointOffset := by
  rw [h.next]
  exact Nat.lt_mul_of_div_lt (Nat.lt_succ_self _) (by decide)

theorem Hashed.update (h : state.Hashed absorb start bytes) {more : Bytes}
    (hmore : bytes.length + more.length ≤ state.nextCheckpointOffset) :
    (state.update absorb more (bytes.length + more.length)).Hashed absorb start (bytes ++ more) := by
  have hhash : more.foldl absorb state.hash = (bytes ++ more).foldl absorb start := by rw [h.hash, foldl_append]
  have hlength : (bytes ++ more).length = bytes.length + more.length := length_append
  have hkept : prefixCheckpoints absorb start (bytes ++ more) bytes.length = state.checkpoints := by
    rw [prefixCheckpoints_append more (Nat.le_refl _), h.checkpoints]
  simp only [TranscriptHash.update]
  by_cases hdue : bytes.length + more.length = state.nextCheckpointOffset
  · have hdiv : (bytes ++ more).length / hashCheckpointInterval = bytes.length / hashCheckpointInterval + 1 := by
      rw [hlength, hdue, h.next, Nat.mul_div_cancel _ (by decide)]
    rw [if_pos hdue]
    refine ⟨hhash, hlength.symm, ?_, ?_⟩
    · rw [hdiv, Nat.add_mul, ← h.next, Nat.one_mul]
      rfl
    · rw [prefixCheckpoints, hdiv, range_succ, map_append, ← prefixCheckpoints, hkept, map_singleton, ← h.next,
        take_of_length_le (Nat.le_of_eq (hlength.trans hdue)), ← hhash]
      rfl
  · have hdiv : (bytes ++ more).length / hashCheckpointInterval = bytes.length / hashCheckpointInterval := by
      have hnext := h.next
      rw [hashCheckpointInterval] at hnext ⊢
      omega
    rw [if_neg hdue]
    refine ⟨hhash, hlength.symm, hdiv ▸ h.next, ?_⟩
    rw [prefixCheckpoints, hdiv, ← prefixCheckpoints, hkept]

theorem Hashed.hashLine (h : state.Hashed absorb start bytes) {place : ℕ} (hplace : place = bytes.length)
    (more : Bytes) :
    (hashLine absorb state place more).Hashed absorb start (bytes ++ more) := by
  fun_induction TranscriptHash.hashLine absorb state place more generalizing bytes with
  | case1 => rwa [append_nil]
  | case2 state place rest hrest hdue => exact absurd (hplace ▸ hdue) (Nat.not_le.mpr h.lt_next)
  | case3 =>
    rename_i place rest _ hdue count ih
    have hnext := h.lt_next
    have htake : (rest.take count).length = count := length_take_of_le (Nat.min_le_left _ _)
    have hlength : place + count = (bytes ++ rest.take count).length := by rw [length_append, htake, hplace]
    have hupdate := h.update (htake.symm ▸ (by omega) : bytes.length + (rest.take count).length ≤ _)
    rw [htake, ← hplace] at hupdate
    have hrest := ih hupdate hlength
    rwa [append_assoc, take_append_drop] at hrest

theorem Hashed.updateBoundedTranscriptHash (h : state.Hashed absorb start bytes) (line : Bytes) :
    (state.updateBoundedTranscriptHash absorb bytes.length line).2.Hashed absorb start (bytes ++ line) := by
  have hline := h.hashLine rfl line
  rw [TranscriptHash.updateBoundedTranscriptHash, if_neg (not_not.mpr h.hashed.symm)]
  exact ⟨hline.hash, length_append.symm, hline.next, hline.checkpoints⟩

/-- Lines one behind the other, each with the offset where it starts. -/
def placeLines (place : ℕ) : List Bytes → List LineVisit
  | [] => []
  | line :: rest => (place, line) :: placeLines (place + line.length) rest

theorem Hashed.placeLines (h : state.Hashed absorb start bytes) (lines : List Bytes) :
    ((placeLines bytes.length lines).foldl (fun state visit ↦
      (state.updateBoundedTranscriptHash absorb visit.1 visit.2).2) state).Hashed absorb start
        (bytes ++ lines.flatten) := by
  induction lines generalizing state bytes with
  | nil => rwa [flatten_nil, append_nil]
  | cons line rest ih =>
    rw [flatten_cons, ← append_assoc, TranscriptHash.placeLines, foldl_cons, ← length_append]
    exact ih (h.updateBoundedTranscriptHash line)

/-- The visits of a scan, also of one that stopped. -/
def visitsOf : Except LineScanStop (List LineVisit) → List LineVisit
  | .ok visits => visits
  | .error stop => stop.visits

theorem Hashed.visitLine (visit : List LineVisit → Bool) {visits : List LineVisit}
    (h : (ofVisits absorb start visits).Hashed absorb start bytes) (line : Bytes) :
    (ofVisits absorb start (visitsOf (visitLine visit visits bytes.length line))).Hashed absorb start
      (bytes ++ line) := by
  have hvisits : visitsOf (Session.visitLine visit visits bytes.length line) = visits ++ [(bytes.length, line)] := by
    rw [Session.visitLine]
    split <;> rfl
  rw [hvisits, ofVisits, foldl_append]
  exact h.updateBoundedTranscriptHash line

/-- A scan that goes on from hashed bytes has hashed some of what it was given when it ends. -/
theorem Hashed.scan {maxLineBytes : ℕ} {visit : List LineVisit → Bool} {includeUnterminated : Bool}
    {visits : List LineVisit} (h : (ofVisits absorb start visits).Hashed absorb start bytes)
    (pending input : Bytes) :
    ∃ hashed, (ofVisits absorb start (visitsOf
      ((input.foldlM (LineScan.feed maxLineBytes visit) ⟨visits, bytes.length, pending⟩).bind
        (LineScan.finish visit includeUnterminated)))).Hashed absorb start hashed ∧
          hashed <+: bytes ++ (pending ++ input) := by
  induction input generalizing visits bytes pending with
  | nil =>
    change ∃ hashed, (ofVisits absorb start
      (visitsOf (LineScan.finish visit includeUnterminated ⟨visits, bytes.length, pending⟩))).Hashed _ _ _ ∧ _
    rw [LineScan.finish, append_nil]
    split_ifs
    · exact ⟨bytes, h, prefix_append _ _⟩
    · exact ⟨bytes, h, prefix_append _ _⟩
    · exact ⟨bytes ++ pending, h.visitLine visit pending, prefix_rfl⟩
  | cons byte rest ih =>
    have hvisited := h.visitLine visit (pending ++ [byte])
    have hinput : pending ++ byte :: rest = pending ++ [byte] ++ rest := by rw [append_assoc, singleton_append]
    rw [foldlM_cons, LineScan.feed, hinput]
    dsimp only
    split_ifs with hlong hbreak
    · exact ⟨bytes, h, prefix_append _ _⟩
    · rw [← append_assoc bytes]
      cases hvisit : Session.visitLine visit visits bytes.length (pending ++ [byte]) with
      | error stop =>
        rw [hvisit] at hvisited
        exact ⟨_, hvisited, prefix_append _ _⟩
      | ok visits =>
        rw [hvisit] at hvisited
        rw [← length_append]
        exact ih hvisited []
    · exact ih h (pending ++ [byte])

/-- However a transcript is cut into lines and chunks, the checkpoints are the multiples of the
interval up to the hashed offset, each with the hash of that many bytes. -/
theorem checkpoints_eq_prefixCheckpoints (absorb : H → UInt8 → H) (start : H) :
    (∀ lines : List Bytes,
      let state := ofVisits absorb start (TranscriptHash.placeLines 0 lines)
      state.hashedOffset = lines.flatten.length ∧
        state.checkpoints = prefixCheckpoints absorb start lines.flatten state.hashedOffset) ∧
      ∀ (maxLineBytes : ℕ) (visit : List LineVisit → Bool) (memory : ℕ → ℕ → UInt8) (includeUnterminated : Bool)
        (chunks : List Bytes),
        ∀ result ∈ [(sliceReader maxLineBytes visit includeUnterminated).read .initial chunks,
            (scratchReader maxLineBytes visit memory includeUnterminated).read .initial chunks],
          let state := ofVisits absorb start (visitsOf result)
          state.hashedOffset ≤ chunks.flatten.length ∧
            state.checkpoints = prefixCheckpoints absorb start chunks.flatten state.hashedOffset := by
  refine ⟨fun lines ↦ ?_, fun maxLineBytes visit memory includeUnterminated chunks result hresult ↦ ?_⟩
  · have hlines := (hashed_initial absorb start).placeLines lines
    exact ⟨hlines.hashed, hlines.hashed ▸ hlines.checkpoints⟩
  · have hscan : result = (chunks.flatten.foldlM (LineScan.feed maxLineBytes visit) ⟨[], 0, []⟩).bind
        (LineScan.finish visit includeUnterminated) := by
      rcases mem_pair.mp hresult with rfl | rfl
      · exact sliceReader_follows.read_eq
          ⟨rfl, rfl, rfl, ⟨fun _ ↦ rfl, fun _ ↦ rfl⟩, fun _ ↦ rfl⟩ chunks
      · exact scratchReader_follows.read_eq ⟨rfl, rfl, fun hne ↦ absurd rfl hne, fun _ ↦ rfl⟩ chunks
    have hinitial : (ofVisits absorb start []).Hashed absorb start [] := hashed_initial absorb start
    obtain ⟨hashed, hstate, rest, hrest⟩ := hinitial.scan [] chunks.flatten
    rw [nil_append, nil_append] at hrest
    rw [length_nil, ← hscan] at hstate
    intro state
    have hsize : state.hashedOffset = hashed.length := hstate.hashed
    rw [← hrest, hsize, length_append, prefixCheckpoints_append rest (Nat.le_refl _)]
    exact ⟨Nat.le_add_right _ _, hstate.checkpoints⟩

end TranscriptHash

end GajaeCode.Session
