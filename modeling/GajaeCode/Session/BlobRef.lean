import GajaeCode.Text.Base64
import GajaeCode.Text.Decimal

/-!
# Blob references

Bytes put into a content-addressed store are referred to as `blob:sha256:` and their digest. A
digest is 64 lower-case hexadecimal letters, so it cannot be injective; what is needed of a store
is only that it returns the bytes that were put into it.
-/

namespace GajaeCode.Session

open Text List

def isLowerHex (unit : UInt16) : Bool :=
  isDigit unit || (0x61 ≤ unit.toNat && unit.toNat ≤ 0x66)

def isCanonicalBlobHash (hash : JsString) : Bool := hash.length = 64 && hash.all isLowerHex

def blobPrefix : JsString := utf16 "blob:sha256:"

/-- The hash named by a blob reference. -/
def parseBlobRef (data : JsString) : Option JsString :=
  if blobPrefix.isPrefixOf data && isCanonicalBlobHash (data.drop blobPrefix.length) then
    some (data.drop blobPrefix.length)
  else none

def isBlobRef (data : JsString) : Bool := (parseBlobRef data).isSome

/-- The digest of a content-addressed store. -/
structure BlobDigest where
  hex : Bytes → JsString
  canonical : ∀ bytes, isCanonicalBlobHash (hex bytes) = true

/-- The reference `put` returns. -/
def BlobDigest.ref (sha256 : BlobDigest) (bytes : Bytes) : JsString := blobPrefix ++ sha256.hex bytes

theorem parseBlobRef_ref (sha256 : BlobDigest) (bytes : Bytes) :
    parseBlobRef (sha256.ref bytes) = some (sha256.hex bytes) := by
  have hdrop : (blobPrefix ++ sha256.hex bytes).drop blobPrefix.length = sha256.hex bytes :=
    drop_left
  rw [parseBlobRef, BlobDigest.ref, hdrop, sha256.canonical]
  simp

/-- A blob reference has a fixed length. -/
theorem length_of_isBlobRef {data : JsString} (h : isBlobRef data) : data.length = 76 := by
  rw [isBlobRef, parseBlobRef] at h
  split_ifs at h with hcanonical
  · simp only [isCanonicalBlobHash, Bool.and_eq_true, decide_eq_true_eq, length_drop] at hcanonical
    have htwelve : blobPrefix.length = 12 := by decide
    omega
  · simp at h

end GajaeCode.Session
