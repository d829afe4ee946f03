import GajaeCode.Text.Utf8
import Mathlib.Algebra.Group.Nat.Defs

/-!
# Length-prefixed framing

Every part is written behind its byte length as four big-endian bytes. A part of `2 ^ 32` bytes
or more has no such prefix and cannot be written. The bytes written determine the list of parts:
no choice of parts can be cut differently into another one.
-/

namespace GajaeCode.Text

open List Option

/-- `buffer.writeUInt32BE(n)`, for `n < 2 ^ 32`. -/
def bigEndian32 (n : ℕ) : Bytes :=
  [UInt8.ofNat (n / 0x1000000), UInt8.ofNat (n / 0x10000 % 0x100), UInt8.ofNat (n / 0x100 % 0x100),
    UInt8.ofNat (n % 0x100)]

/-- One part behind its length. -/
def frame (part : Bytes) : Option Bytes :=
  if part.length < 2 ^ 32 then some (bigEndian32 part.length ++ part) else none

/-- All parts in order; a part that is too long fails the whole write. -/
def frames : List Bytes → Option Bytes
  | [] => some []
  | part :: rest => (frame part).bind fun head ↦ (frames rest).map fun tail ↦ head ++ tail

theorem bigEndian32_inj {m n : ℕ} (hm : m < 2 ^ 32) (hn : n < 2 ^ 32)
    (h : bigEndian32 m = bigEndian32 n) : m = n := by
  simp only [bigEndian32, cons.injEq, and_true, ← UInt8.toNat_inj] at h
  rw [toNat_ofNat_byte (by omega), toNat_ofNat_byte (by omega), toNat_ofNat_byte (by omega),
    toNat_ofNat_byte (by omega), toNat_ofNat_byte (by omega), toNat_ofNat_byte (by omega),
    toNat_ofNat_byte (by omega), toNat_ofNat_byte (by omega)] at h
  omega

theorem exists_of_frames_cons {part : Bytes} {rest : List Bytes} {out : Bytes}
    (h : frames (part :: rest) = some out) : part.length < 2 ^ 32 ∧
      ∃ tail, frames rest = some tail ∧ out = bigEndian32 part.length ++ part ++ tail := by
  simp only [frames, frame, bind_eq_some_iff, map_eq_some_iff,
    ite_none_right_eq_some, some.injEq] at h
  obtain ⟨head, ⟨hlen, rfl⟩, tail, htail, rfl⟩ := h
  exact ⟨hlen, tail, htail, rfl⟩

/-- Framing is injective on lists of parts. -/
theorem frames_inj {left right : List Bytes} {out : Bytes} (hleft : frames left = some out)
    (hright : frames right = some out) : left = right := by
  induction left generalizing right out with
  | nil =>
    cases right with
    | nil => rfl
    | cons =>
      obtain ⟨_, tail, _, hout⟩ := exists_of_frames_cons hright
      simp only [frames, some.injEq] at hleft
      simp [← hleft, bigEndian32] at hout
  | cons part rest ih =>
    obtain ⟨hlen, tail, htail, hout⟩ := exists_of_frames_cons hleft
    cases right with
    | nil =>
      simp only [frames, some.injEq] at hright
      simp [← hright, bigEndian32] at hout
    | cons part' =>
      obtain ⟨hlen', tail', htail', hout'⟩ := exists_of_frames_cons hright
      rw [hout, append_assoc, append_assoc] at hout'
      obtain ⟨hheader, hbody⟩ := append_inj hout' rfl
      have hsame : part.length = part'.length := bigEndian32_inj hlen hlen' hheader
      obtain ⟨hpart, hrest⟩ := append_inj hbody hsame
      rw [hpart, ih htail (hrest ▸ htail')]

end GajaeCode.Text
