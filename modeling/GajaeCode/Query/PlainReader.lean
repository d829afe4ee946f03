import GajaeCode.Query.StringEncoding

/-!
# Reading a string without escapes

The bytes of such a string are its UTF-8 encoding. The reader takes a window of bytes at the offset
that is long enough for the rest of a character in front and for one character more than fits, and
cuts it at boundaries of characters.
-/

namespace GajaeCode.Query

open Text Json Chain List

variable {value : JsString} {pieces : List JsString}

/-- The page of a string at an offset. -/
def stringPage (value : JsString) (offset length : ℕ) : Option StringPage :=
  (pageAt byteLength (characters value) (min offset (byteLength value)) length).map fun page ↦
    { body := page.items.flatten, complete := page.complete, offset := page.offset }

/-! ## Plain strings -/

theorem isPlainJsonString_iff (value : JsString) :
    isPlainJsonString value ↔ ∀ unit ∈ value, unit ≠ quoteUnit ∧ unit ≠ backslashUnit ∧
      ¬ unit.toNat < 0x20 ∧ isHighSurrogate unit = false ∧ isLowSurrogate unit = false := by
  rw [isPlainJsonString, all_eq_true]
  simp [and_assoc]

theorem isWellFormed_of_plain (h : isPlainJsonString value) : isWellFormed value := by
  have hsingle : value.flatMap (fun unit ↦ [unit]) = value := flatMap_singleton' value
  rw [← hsingle]
  apply isWellFormed_flatMap
  intro unit hunit
  obtain ⟨-, -, -, hhigh, hlow⟩ := (isPlainJsonString_iff value).mp h unit hunit
  simp [isWellFormed, hhigh, hlow]

theorem quoteBody_of_plain {piece : JsString} (h : isPlainJsonString value)
    (hpiece : piece ∈ characters value) : quoteBody piece = piece := by
  have hunits : ∀ unit ∈ piece, unit ∈ value := by
    intro unit hunit
    rw [← flatten_characters value, mem_flatten]
    exact ⟨piece, hpiece, hunit⟩
  rcases isCharacter_of_mem_characters hpiece with ⟨unit, rfl⟩ | ⟨high, low, rfl, hhigh, hlow⟩
  · obtain ⟨hquote, hbackslash, hctrl, hhigh, hlow⟩ :=
      (isPlainJsonString_iff value).mp h unit (hunits unit mem_cons_self)
    have hshort : shortEscape unit = none := by
      unfold shortEscape
      split_ifs with h1 h2 h3 h4 h5
      all_goals first | rfl | (exfalso; subst_vars; revert hctrl; decide)
    simp [quoteBody, escapeUnit, hhigh, hlow, hshort, hctrl]
  · simp [quoteBody, hhigh, hlow]

/-- A plain string is written as its UTF-8 encoding between two quotes. -/
theorem flatMap_characterBytes_of_plain (h : isPlainJsonString value) :
    (characters value).flatMap characterBytes = encodeUtf8 value := by
  rw [encodeUtf8_eq_flatMap_characters, flatMap_congr]
  intro piece hpiece
  rw [characterBytes, quoteBody_of_plain h hpiece]

/-! ## The reader -/

theorem slice_middle (left middle right : Bytes) :
    slice left.length (left.length + middle.length) (left ++ middle ++ right) = middle := by
  rw [slice, ← length_append, take_left, drop_left]

/-- Encoded stretches of characters are decoded again. -/
theorem decodeUtf8_map_encodeUtf8 (h : isPlainJsonString value)
    (hpieces : pieces <:+: characters value) :
    decodeUtf8 (pieces.map encodeUtf8).flatten = pieces.flatten := by
  have hplain : isPlainJsonString pieces.flatten := by
    rw [isPlainJsonString_iff] at h ⊢
    intro unit hunit
    apply h
    obtain ⟨front, back, hsplit⟩ := hpieces
    rw [← flatten_characters value, ← hsplit, flatten_append, flatten_append]
    exact mem_append_left _ (mem_append_right _ hunit)
  have hencoded : (pieces.map encodeUtf8).flatten = encodeUtf8 pieces.flatten := by
    rw [encodeUtf8_eq_flatMap_characters, characters_flatten_of_within hpieces, flatMap_def]
  rw [hencoded, (decodeUtf8_encodeUtf8_eq_self_iff _).mpr (isWellFormed_of_plain hplain)]

/-- Where the page starts: the window holds what is left of the character in front, and the bytes
behind it are those of the characters from the page's first one on. -/
theorem plainWindow_start (value : JsString) {req pos : ℕ} (hreq : req ≤ byteLength value) (len : ℕ)
    (hskip : skipTo byteLength req 0 (characters value) = (pos, pieces)) :
    req ≤ pos ∧ pos < req + 4 ∧
      utf8ContinuationLength (((encodeUtf8 value).drop req).take (len + 7)) = pos - req ∧
      (((encodeUtf8 value).drop req).take (len + 7)).drop (pos - req) =
        (pieces.map encodeUtf8).flatten.take (len + 7 - (pos - req)) ∧
      byteLength value = pos + totalSize byteLength pieces ∧ ∃ front, characters value = front ++ pieces := by
  have hblocks : ∀ block ∈ (characters value).map encodeUtf8, IsBlock isContinuation block :=
    isBlock_of_mem_encoded fun _ ↦ isCharacter_of_mem_characters
  have hflat : ((characters value).map encodeUtf8).flatten = encodeUtf8 value := by
    rw [← flatMap_def, ← encodeUtf8_eq_flatMap_characters]
  have hskip' : skipTo List.length req 0 ((characters value).map encodeUtf8) =
      (pos, pieces.map encodeUtf8) := by
    have hsize : (fun piece ↦ (encodeUtf8 piece).length) = byteLength := rfl
    rw [skipTo_map, hsize, hskip]
  obtain ⟨hpos, hdrop⟩ := length_takeWhile_drop_flatten hblocks (by rwa [hflat]) hskip'
  rw [hflat] at hpos hdrop
  have hnear : pos < req + 4 := by
    have hlt : (skipTo byteLength req 0 (characters value)).1 < req + 4 :=
      skipTo_lt (fun piece hpiece ↦ (isCharacter_of_mem_characters hpiece).byteLength_le) (by decide)
    rwa [hskip] at hlt
  refine ⟨by omega, hnear, ?_, ?_, ?_⟩
  · rw [utf8ContinuationLength, takeWhile_take, length_take]
    omega
  · rw [drop_take, drop_drop, ← hdrop]
    congr 3
    omega
  · obtain ⟨front, rest, hsplit, hspec, -, -⟩ := skipTo_spec byteLength req 0 (characters value)
    rw [hskip, Nat.zero_add, Prod.mk.injEq] at hspec
    rw [hspec.1, hspec.2, ← totalSize_append, ← hsplit, totalSize_characters]
    exact ⟨rfl, front, hsplit⟩

/-- The plain reader returns the page of the string. -/
theorem readPlainStringRange_eq {limits : StoreLimits} (hlimits : 4 ≤ limits.chunkBytes)
    (writer : ChunkWriter) (hplain : isPlainJsonString value)
    {rev : StoredBytes} {after : Bytes}
    (hholds : rev.Holds ((encodePlainField limits writer value).1.bytes ++ after))
    (offset length : ℕ) :
    readPlainStringRange rev writer.bytes.length (byteLength value) offset length =
      stringPage value offset length := by
  have hlayout : (encodePlainField limits writer value).1.bytes ++ after =
      (writer.bytes ++ [0x22]) ++ encodeUtf8 value ++ (0x22 :: after) := by
    rw [encodePlainField]
    rw [encodeString_bytes hlimits, flatMap_characterBytes_of_plain hplain]
    simp
  rw [readPlainStringRange, stringPage, pageAt]
  have hrequested := Nat.min_le_right offset (byteLength value)
  generalize min offset (byteLength value) = req at hrequested ⊢
  have hsource : rev.readBytes (writer.bytes.length + 1 + req)
      (writer.bytes.length + 1 + min (byteLength value) (req + length + 7)) =
        ((encodeUtf8 value).drop req).take (length + 7) := by
    have hone : writer.bytes.length + 1 = (writer.bytes ++ [0x22]).length := by simp
    have hinside : min (byteLength value) (req + length + 7) ≤ (encodeUtf8 value).length :=
      Nat.min_le_left _ _
    rw [hholds.readBytes_eq, hlayout, hone, slice, append_assoc, take_length_add_append,
      drop_length_add_append, take_append_of_le_length hinside, Nat.min_comm, ← take_take, byteLength, take_length, take_drop, Nat.add_assoc]
  obtain ⟨position, pieces, hskip⟩ : ∃ position pieces,
      skipTo byteLength req 0 (characters value) = (position, pieces) := ⟨_, _, rfl⟩
  obtain ⟨hle, hnear, hskipped, hbody, htotal, front, hsplit⟩ := plainWindow_start value hrequested length hskip
  obtain ⟨taken, left, hpieces, htake, -, -⟩ := takeUpTo_spec byteLength length pieces
  have hchar : ∀ piece ∈ pieces, IsCharacter piece := (isCharacter_of_append hsplit).2
  have hwithin : taken <:+: characters value :=
    ⟨front, left, by rw [hsplit, hpieces, append_assoc]⟩
  have hblocks : ∀ block ∈ pieces.map encodeUtf8, IsBlock isContinuation block :=
    isBlock_of_mem_encoded hchar
  have htake' : takeUpTo List.length length (pieces.map encodeUtf8) =
      (taken.map encodeUtf8, left.map encodeUtf8) := by
    have hsize : (fun piece ↦ (encodeUtf8 piece).length) = byteLength := rfl
    rw [takeUpTo_map, hsize, htake]
  have hcount : length < length + 7 - (position - req) := by omega
  obtain ⟨hstop, htext⟩ := boundaryAtOrBefore_window hblocks hcount htake'
  have hlen : (taken.map encodeUtf8).flatten.length = totalSize byteLength taken := by
    rw [← flatMap_def, length_flatMap]
    rfl
  have hsize : ∀ piece ∈ pieces, 0 < byteLength piece :=
    fun piece hpiece ↦ (hchar piece hpiece).byteLength_pos
  have hfirst : req + (position - req) = position := by omega
  rw [hsource, hskipped, hbody, utf8BoundaryAtOrBefore, hstop, htext, decodeUtf8_map_encodeUtf8 hplain hwithin,
    hskip, htake, hfirst, hlen]
  have hall := totalSize_eq_zero_iff hsize
  rw [hpieces, forall_mem_append] at hsize
  rw [hpieces, totalSize_append] at htotal hall
  have htaken := totalSize_eq_zero_iff hsize.1
  have hleft := totalSize_eq_zero_iff hsize.2
  have hnone : totalSize byteLength taken = 0 ∧ position < byteLength value ↔
      (taken.isEmpty && !pieces.isEmpty) := by
    rw [Bool.and_eq_true, Bool.not_eq_true', List.isEmpty_iff, isEmpty_eq_false_iff, ne_eq, ← htaken, hpieces,
      ← hall]
    omega
  have hcomplete : (position + totalSize byteLength taken == byteLength value) = left.isEmpty := by
    rw [Bool.eq_iff_iff, beq_iff_eq, List.isEmpty_iff, ← hleft]
    omega
  by_cases hcond : totalSize byteLength taken = 0 ∧ position < byteLength value
  · rw [if_pos hcond, if_pos (hnone.mp hcond), Option.map_none]
  · rw [if_neg hcond, if_neg (mt hnone.mpr hcond), Option.map_some, hcomplete]

end GajaeCode.Query
