import GajaeCode.Session.TruncationBudget

/-!
# The tail buffer

`TailBuffer` keeps the end of an appended stream. It holds more than the budget between trims, which
happen on reads and past twice the budget, and it counts the bytes of every appended text on its own.
While no surrogate pair is split between two texts, what it reads back is the longest end of the
stream within the budget; the two halves of a split pair are counted as six bytes instead of four.
-/

namespace GajaeCode.Session

open Text List

/-- `MAX_PENDING`. -/
def maxPending : ℕ := 10

structure TailBuffer where
  maxBytes : ℕ
  pending : List JsString
  pos : ℕ

namespace TailBuffer

def new (maxBytes : ℕ) : TailBuffer := ⟨maxBytes, [], 0⟩

variable (buffer : TailBuffer)

def compact : TailBuffer := { buffer with pending := [buffer.pending.flatten] }

def flush : JsString × TailBuffer :=
  if buffer.pending.length = 0 then ([], buffer)
  else
    let flushed := if 1 < buffer.pending.length then buffer.compact else buffer
    (flushed.pending.headD [], flushed)

def trimTo (max : ℕ) : TailBuffer :=
  if max = 0 then { buffer with pending := [], pos := 0 }
  else if buffer.pos ≤ max then buffer
  else
    let (joined, flushed) := buffer.flush
    let (text, bytes) := truncateTailBytes joined max
    { flushed with pos := bytes, pending := [text] }

/-- The end of `append`, for a text below the budget. -/
def push (text : JsString) : TailBuffer :=
  let counted := { buffer with pos := buffer.pos + byteLength text }
  if buffer.pending.length = 0 then { counted with pending := [text] }
  else
    let pushed := { counted with pending := buffer.pending ++ [text] }
    if maxPending < pushed.pending.length then pushed.compact else pushed

def append (text : JsString) : TailBuffer :=
  if text = [] then buffer
  else if buffer.maxBytes = 0 then { buffer with pending := [], pos := 0 }
  else if buffer.maxBytes ≤ byteLength text then
    let (kept, bytes) := truncateTailBytes text buffer.maxBytes
    { buffer with pending := [kept], pos := bytes }
  else
    let pushed := buffer.push text
    if buffer.maxBytes * 2 < pushed.pos then pushed.trimTo buffer.maxBytes else pushed

def text : JsString × TailBuffer := (buffer.trimTo buffer.maxBytes).flush

def bytes : ℕ × TailBuffer :=
  let trimmed := buffer.trimTo buffer.maxBytes
  (trimmed.pos, trimmed)

end TailBuffer

open TailBuffer

inductive TailBufferOp where
  | append (text : JsString)
  | text
  | bytes

def TailBufferOp.appended : TailBufferOp → JsString
  | .append added => added
  | .text | .bytes => []

def TailBuffer.step (buffer : TailBuffer) : TailBufferOp → TailBuffer
  | .append added => buffer.append added
  | .text => buffer.text.2
  | .bytes => buffer.bytes.2

def TailBuffer.run (maxBytes : ℕ) (ops : List TailBufferOp) : TailBuffer :=
  ops.foldl TailBuffer.step (.new maxBytes)

/-- The buffer reads back the longest end of the stream within its budget, and the bytes of it. -/
structure ReadsTail (stream : JsString) (maxBytes : ℕ) (buffer : TailBuffer) : Prop where
  text : IsLongestEnd stream maxBytes buffer.text.1
  bytes : buffer.bytes.1 = byteLength buffer.text.1

/-! ## What the buffer holds -/

/-- The held text is an end of the stream that contains every end within the budget. -/
structure HoldsTail (stream : JsString) (maxBytes : ℕ) (buffer : TailBuffer) : Prop where
  budget : buffer.maxBytes = maxBytes
  suffix : buffer.pending.flatten <:+ stream
  wellFormed : isWellFormed buffer.pending.flatten = true
  pos : buffer.pos = byteLength buffer.pending.flatten
  greatest : ∀ other, other <:+ stream → isWellFormed other = true → byteLength other ≤ maxBytes →
    other <:+ buffer.pending.flatten

variable {stream added : JsString} {maxBytes : ℕ} {buffer : TailBuffer}

namespace TailBuffer

theorem flush_spec : buffer.flush.1 = buffer.pending.flatten ∧
      buffer.flush.2.pending.flatten = buffer.pending.flatten ∧
      buffer.flush.2.maxBytes = buffer.maxBytes ∧ buffer.flush.2.pos = buffer.pos := by
  unfold flush
  rcases hpend : buffer.pending with _ | ⟨first, _ | ⟨second, rest⟩⟩ <;>
    simp [compact, hpend]

theorem push_spec : (buffer.push added).pending.flatten = buffer.pending.flatten ++ added ∧
      (buffer.push added).maxBytes = buffer.maxBytes ∧
      (buffer.push added).pos = buffer.pos + byteLength added := by
  unfold push
  split_ifs with hnone
  · simp [length_eq_zero_iff.mp hnone]
  · dsimp only
    split_ifs <;> simp [compact]

end TailBuffer

namespace HoldsTail

theorem of_zero (stream : JsString) : HoldsTail stream 0 ⟨0, [], 0⟩ := by
  refine ⟨rfl, nil_suffix, rfl, rfl, fun other _ _ hfits ↦ ?_⟩
  rw [length_eq_zero_iff.mp (Nat.le_zero.mp ((length_le_byteLength other).trans hfits))]
  exact nil_suffix

/-- The longest end of a text that contains every end within the budget. -/
theorem of_longestEnd {text kept : JsString} {bytes : ℕ} (htext : text <:+ stream)
    (hkept : IsLongestEnd text maxBytes kept) (hbytes : bytes = byteLength kept)
    (h : ∀ other, other <:+ stream → isWellFormed other → byteLength other ≤ maxBytes →
      other <:+ text) : HoldsTail stream maxBytes ⟨maxBytes, [kept], bytes⟩ := by
  have hflat : [kept].flatten = kept := by simp
  refine ⟨rfl, ?_, ?_, ?_, fun other hother hwell hfits ↦ ?_⟩ <;> dsimp only <;> rw [hflat]
  · exact hkept.suffix.trans htext
  · exact hkept.wellFormed
  · exact hbytes
  · have hinside := h other hother hwell hfits
    exact suffix_of_suffix_length_le hinside hkept.suffix (hkept.greatest other hinside hwell hfits)

variable (h : HoldsTail stream maxBytes buffer)
include h

theorem trimTo : HoldsTail stream maxBytes (buffer.trimTo maxBytes) ∧ (buffer.trimTo maxBytes).pos ≤ maxBytes := by
  obtain ⟨hjoined, -, hbudget, -⟩ := @TailBuffer.flush_spec buffer
  rw [h.budget] at hbudget
  unfold TailBuffer.trimTo
  split_ifs with hzero hfits
  · subst hzero
    rw [h.budget]
    exact ⟨of_zero stream, le_rfl⟩
  · exact ⟨h, hfits⟩
  · obtain ⟨hkept, hbytes⟩ := truncateTailBytes_spec h.wellFormed suffix_rfl maxBytes (Or.inl rfl)
    dsimp only
    rw [hjoined, hbudget]
    exact ⟨of_longestEnd h.suffix hkept hbytes h.greatest, hbytes.trans_le hkept.fits⟩

theorem readsTail : ReadsTail stream maxBytes buffer := by
  obtain ⟨htrimmed, hfits⟩ := h.trimTo
  have htext : buffer.text.1 = (buffer.trimTo maxBytes).pending.flatten := by
    rw [text, h.budget]
    exact flush_spec.1
  have hbytes : buffer.bytes.1 = (buffer.trimTo maxBytes).pos := by rw [bytes, h.budget]
  rw [htrimmed.pos] at hfits hbytes
  refine ⟨?_, hbytes.trans (congrArg byteLength htext.symm)⟩
  rw [htext]
  exact ⟨htrimmed.suffix, htrimmed.wellFormed, hfits,
    fun other hother hwell hother' ↦ (htrimmed.greatest other hother hwell hother').length_le⟩

theorem push (hadded : isWellFormed added) :
    HoldsTail (stream ++ added) maxBytes (buffer.push added) := by
  obtain ⟨hflat, hbudget, hpos⟩ := @TailBuffer.push_spec added buffer
  constructor
  · exact hbudget.trans h.budget
  · rw [hflat, suffix_append_self_iff]
    exact h.suffix
  · rw [hflat]
    exact isWellFormed_append h.wellFormed hadded
  · rw [hpos, hflat, byteLength_append (splitsPair_of_isWellFormed _ hadded), h.pos]
  · intro other hother hwell hfits
    rw [hflat]
    rcases suffix_or_suffix_of_suffix hother (suffix_append stream added) with hinside | ⟨front, rfl⟩
    · exact hinside.trans (suffix_append _ _)
    · -- a longer end is an end of the earlier stream with the new text behind it
      rw [suffix_append_self_iff] at hother ⊢
      rw [byteLength_append (splitsPair_of_isWellFormed _ hadded)] at hfits
      rw [isWellFormed_iff, characters_append (splitsPair_of_isWellFormed front hadded),
        forall_mem_append] at hwell
      exact h.greatest front hother (isWellFormed_iff.mpr hwell.1) (by omega)

theorem append (hadded : isWellFormed added) :
    HoldsTail (stream ++ added) maxBytes (buffer.append added) := by
  unfold TailBuffer.append
  rw [h.budget]
  split_ifs with hnone hzero hlarge
  · rw [hnone, append_nil]
    exact h
  · subst hzero
    exact of_zero _
  · -- every end within the budget is an end of the new text
    obtain ⟨hkept, hbytes⟩ := truncateTailBytes_spec hadded suffix_rfl maxBytes (Or.inl rfl)
    refine of_longestEnd (suffix_append _ _) hkept hbytes fun other hother _ hfits ↦ ?_
    apply suffix_of_suffix_length_le hother (suffix_append _ _)
    exact length_le_of_byteLength_le hother (suffix_append _ _) hadded (hfits.trans hlarge)
  · dsimp only
    split_ifs
    · exact (h.push hadded).trimTo.1
    · exact h.push hadded

theorem step (op : TailBufferOp) (hop : isWellFormed op.appended) :
    HoldsTail (stream ++ op.appended) maxBytes (buffer.step op) := by
  cases op with
  | append => exact h.append hop
  | text =>
    obtain ⟨-, hflat, hbudget, hpos⟩ := @TailBuffer.flush_spec (buffer.trimTo maxBytes)
    rw [TailBufferOp.appended, append_nil, TailBuffer.step, text, h.budget]
    obtain ⟨hcount, hsuffix, hwell, hbytes, hgreatest⟩ := h.trimTo.1
    rw [← hflat] at hsuffix hwell hbytes hgreatest
    exact ⟨hbudget.trans hcount, hsuffix, hwell, hpos.trans hbytes, hgreatest⟩
  | bytes =>
    rw [TailBufferOp.appended, append_nil, TailBuffer.step, bytes, h.budget]
    exact h.trimTo.1

end HoldsTail

/-- In every run that appends well-formed texts only, the buffer reads back the longest end of the
stream within the budget, with its number of bytes. -/
theorem tailBuffer_readsTail (maxBytes : ℕ) (ops : List TailBufferOp)
    (hops : ∀ op ∈ ops, isWellFormed op.appended = true) :
    ReadsTail (ops.flatMap TailBufferOp.appended) maxBytes (.run maxBytes ops) := by
  apply HoldsTail.readsTail
  induction ops using reverseRecOn with
  | nil => exact ⟨rfl, suffix_rfl, rfl, rfl, fun _ hother _ _ ↦ hother⟩
  | append_singleton ops op ih =>
    rw [forall_mem_append, forall_mem_singleton] at hops
    rw [flatMap_append, flatMap_singleton, TailBuffer.run, foldl_append]
    exact (ih hops.1).step op hops.2

theorem tailBuffer_readsTail_past_budget :
    ReadsTail ([.append [0x61, 0x62], .text, .append [0x63, 0x64]].flatMap TailBufferOp.appended) 3
      (.run 3 [.append [0x61, 0x62], .text, .append [0x63, 0x64]]) :=
  tailBuffer_readsTail 3 _ (by decide +kernel)

/-- The two halves of a surrogate pair. -/
def splitPair : List TailBufferOp := [.append [0xD83D], .append [0xDE00]]

/-- A pair that is split between two appended texts is counted as six bytes. -/
theorem not_readsTail_splitPair : isWellFormed (splitPair.flatMap TailBufferOp.appended) = true ∧
      ¬ ReadsTail (splitPair.flatMap TailBufferOp.appended) 10 (.run 10 splitPair) := by
  refine ⟨by decide +kernel, fun h ↦ ?_⟩
  have hbytes : (TailBuffer.run 10 splitPair).bytes.1 = 6 := by decide +kernel
  have htext : byteLength (TailBuffer.run 10 splitPair).text.1 = 4 := by decide +kernel
  exact absurd (hbytes.symm.trans (h.bytes.trans htext)) (by decide)

end GajaeCode.Session
