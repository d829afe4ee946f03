import GajaeCode.Session.Truncation

/-!
# The budget of middle truncation

Both scans are described by the cuts they stop at. `truncateHead` stops at the last newline whose
text before it is within the budget, and `truncateTail` behind a newline or, when the last line alone
is too long, inside that line. The windows of `truncateMiddle` are then disjoint whenever a marker is
written, and cover the content otherwise, except that a last line that is only kept in part counts as
covered.
-/

namespace GajaeCode.Session

open Text List

variable {pos newline : ℕ} {text : JsString} {truncatedBy : TruncatedBy}

/-! ## The end of a long line -/

/-- Behind the first character, an end of a well-formed text is well-formed. -/
theorem isWellFormed_of_mem_tail {ending : JsString} (h : isWellFormed text)
    (hending : ending <:+ text) : ∀ character ∈ (characters ending).tail, isWellFormed character := by
  rw [suffix_iff_eq_drop] at hending
  rw [hending]
  rcases isWellFormed_drop h (text.length - ending.length) with hwell | ⟨low, rest, hdrop, hlow, hwell⟩
  · intro character hchar
    exact isWellFormed_of_mem_characters hwell character (mem_of_mem_tail hchar)
  · have hcut : splitsPair [low] rest = false := by
      simp [splitsPair, isHighSurrogate_of_isLowSurrogate hlow]
    have hcons : characters (low :: rest) = [low] :: characters rest := characters_append hcut
    rw [hdrop, hcons, tail_cons]
    exact isWellFormed_of_mem_characters hwell

/-- An encoded text does not begin inside a character. -/
theorem takeWhile_isContinuation_encodeUtf8 (text : JsString) :
    (encodeUtf8 text).takeWhile isContinuation = [] := by
  have hhead : (encodeUtf8 text).head?.any isContinuation = false := by
    rw [encodeUtf8_eq_flatMap_characters, flatMap_def]
    exact inside_head?_flatten (isBlock_of_mem_encoded fun _ ↦ isCharacter_of_mem_characters)
  exact takeWhile_append_of_head (forall_mem_nil _) hhead

/-- Skipping from an offset behind the first byte to the next character leaves an end of the text. -/
theorem decode_from_boundary {window : JsString}
    (hwell : ∀ char ∈ (characters window).tail, isWellFormed char) {offset : ℕ}
    (hpos : 0 < offset) (hoffset : offset ≤ (encodeUtf8 window).length) :
    ∃ kept, kept <:+ window ∧ isWellFormed kept ∧ (encodeUtf8 window).drop
        (offset + (((encodeUtf8 window).drop offset).takeWhile isContinuation).length) =
      encodeUtf8 kept := by
  have hbuffer : encodeUtf8 window = ((characters window).map encodeUtf8).flatten := by
    rw [encodeUtf8_eq_flatMap_characters, flatMap_def]
  have hblocks : ∀ block ∈ (characters window).map encodeUtf8, IsBlock isContinuation block :=
    isBlock_of_mem_encoded fun _ ↦ isCharacter_of_mem_characters
  obtain ⟨front, rest, hsplit, hskip, hbehind, -⟩ :=
    Chain.skipTo_spec length offset 0 ((characters window).map encodeUtf8)
  rw [hbuffer] at hoffset ⊢
  obtain ⟨hposition, hdrop⟩ := length_takeWhile_drop_flatten hblocks hoffset hskip
  obtain ⟨before, behind, hchars, rfl, rfl⟩ := map_eq_append_iff.mp hsplit
  have hwindow : before.flatten ++ behind.flatten = window := by
    rw [← flatten_append, ← hchars, flatten_characters]
  have hwithin : behind <:+: characters window := ⟨before, [], by rw [hchars, append_nil]⟩
  have hencode : encodeUtf8 behind.flatten = (behind.map encodeUtf8).flatten := by
    rw [encodeUtf8_eq_flatMap_characters, characters_flatten_of_within hwithin, flatMap_def]
  have hkept : isWellFormed behind.flatten := by
    rw [← flatMap_id]
    apply isWellFormed_flatMap
    intro char hchar
    apply hwell
    cases before with
    | nil =>
      simp only [map_nil, Chain.totalSize, sum_nil] at hposition
      omega
    | cons =>
      rw [hchars, cons_append, tail_cons]
      exact mem_append_right _ hchar
  refine ⟨behind.flatten, ⟨before.flatten, hwindow⟩, hkept, ?_⟩
  rw [hposition, hdrop, hencode]

section

variable {line data window kept other : JsString}

/-- The longest end of a line that begins with a character and is within the byte limit. -/
structure IsLongestEnd (line : JsString) (maxBytes : ℕ) (kept : JsString) : Prop where
  suffix : kept <:+ line
  wellFormed : isWellFormed kept = true
  fits : byteLength kept ≤ maxBytes
  greatest : ∀ other, other <:+ line → isWellFormed other = true → byteLength other ≤ maxBytes →
    other.length ≤ kept.length

/-- Of two ends of a text, the one with more bytes is not the shorter one. -/
theorem length_le_of_byteLength_le (hother : other <:+ window)
    (hkept : kept <:+ window) (hwell : isWellFormed kept)
    (h : byteLength other ≤ byteLength kept) : other.length ≤ kept.length := by
  by_contra hlonger
  obtain ⟨more, rfl⟩ := suffix_of_suffix_length_le hkept hother (by omega)
  rw [byteLength_append (splitsPair_of_isWellFormed more hwell)] at h
  have hmore := length_le_byteLength more
  rw [length_append] at hlonger
  omega

/-- From an offset that leaves room for an end of the text, the next character is not behind it. -/
theorem byteLength_le_drop_boundary (hother : other <:+ window)
    (hwell : isWellFormed other) {maxBytes : ℕ} (h : byteLength other ≤ maxBytes) :
    byteLength other ≤ ((encodeUtf8 window).drop ((encodeUtf8 window).length - maxBytes +
      (((encodeUtf8 window).drop ((encodeUtf8 window).length - maxBytes)).takeWhile
        isContinuation).length)).length := by
  obtain ⟨front, rfl⟩ := hother
  rw [encodeUtf8_append (splitsPair_of_isWellFormed front hwell)]
  unfold byteLength at h ⊢
  have hstop : (encodeUtf8 front ++ encodeUtf8 other).length - maxBytes ≤ (encodeUtf8 front).length := by
    rw [length_append]
    omega
  rw [drop_append_of_le_length hstop]
  generalize (encodeUtf8 front ++ encodeUtf8 other).length - maxBytes = offset at hstop
  have hrun : (((encodeUtf8 front).drop offset ++ encodeUtf8 other).takeWhile isContinuation).length ≤
      (encodeUtf8 front).length - offset := by
    rw [takeWhile_append, takeWhile_isContinuation_encodeUtf8, append_nil]
    split_ifs
    · rw [length_drop]
    · exact (List.takeWhile_prefix _).length_le.trans_eq (length_drop ..)
  rw [length_drop, length_append]
  omega

/-- `truncateTailBytes` keeps the longest end, also when it is given only the last units. -/
theorem truncateTailBytes_spec (h : isWellFormed line) (hdata : data <:+ line) (maxBytes : ℕ)
    (hwhole : data = line ∨ maxBytes ≤ data.length) :
    IsLongestEnd line maxBytes (truncateTailBytes data maxBytes).1 ∧
      (truncateTailBytes data maxBytes).2 = byteLength (truncateTailBytes data maxBytes).1 := by
  have hascii {text} (hle : byteLength text ≤ text.length) : isWellFormed text :=
    isWellFormed_of_ascii ((byteLength_eq_length_iff text).mp (hle.antisymm (length_le_byteLength text)))
  have hshort {other} (hother : other <:+ line) (hfits : byteLength other ≤ maxBytes) :
      other.length ≤ maxBytes ∧ other.length ≤ data.length := by
    have hle := length_le_byteLength other
    refine ⟨by omega, ?_⟩
    rcases hwhole with rfl | hlong
    · exact hother.length_le
    · omega
  unfold truncateTailBytes
  by_cases hzero : maxBytes = 0
  · rw [if_pos hzero]
    refine ⟨⟨nil_suffix, rfl, Nat.zero_le _, fun other hother _ hfits ↦ ?_⟩, rfl⟩
    rw [length_nil, ← hzero]
    exact (hshort hother hfits).1
  rw [if_neg hzero]
  by_cases hfits : data.length ≤ maxBytes ∧ byteLength data ≤ maxBytes
  · rw [if_pos hfits]
    refine ⟨⟨hdata, ?_, hfits.2, fun other hother _ hother' ↦ (hshort hother hother').2⟩, rfl⟩
    rcases hwhole with rfl | hlong
    · exact h
    · exact hascii (hfits.2.trans hlong)
  rw [if_neg hfits]
  have hwindow : data.drop (data.length - maxBytes) <:+ data := drop_suffix _ _
  generalize hname : data.drop (data.length - maxBytes) = window at *
  have hlength : window.length = min data.length maxBytes := by
    rw [← hname, length_drop]
    omega
  have hkept : ∃ kept, kept <:+ window ∧ isWellFormed kept ∧
      (encodeUtf8 window).drop ((encodeUtf8 window).length - maxBytes +
        (((encodeUtf8 window).drop ((encodeUtf8 window).length - maxBytes)).takeWhile
          isContinuation).length) = encodeUtf8 kept := by
    by_cases hoffset : (encodeUtf8 window).length ≤ maxBytes
    · -- the window is as long as the budget, so every character of it takes one byte
      refine ⟨window, suffix_rfl, ?_, ?_⟩
      · rcases Nat.le_total maxBytes data.length with hlong | hshort
        · exact hascii (hoffset.trans (by omega))
        · have hall : window = data := by rw [← hname, Nat.sub_eq_zero_of_le hshort, drop_zero]
          exact absurd ⟨hshort, hall ▸ hoffset⟩ hfits
      · rw [Nat.sub_eq_zero_of_le hoffset, drop_zero, takeWhile_isContinuation_encodeUtf8,
          length_nil, drop_zero]
    · exact decode_from_boundary (isWellFormed_of_mem_tail h (hwindow.trans hdata))
        (Nat.sub_pos_of_lt (Nat.lt_of_not_le hoffset)) (Nat.sub_le _ _)
  obtain ⟨kept, hkept, hwell, hdrop⟩ := hkept
  simp only [hdrop, (decodeUtf8_encodeUtf8_eq_self_iff _).mpr hwell]
  refine ⟨⟨hkept.trans (hwindow.trans hdata), hwell, ?_, fun other hother hwellOther hfitsOther ↦ ?_⟩, rfl⟩
  · rw [byteLength, ← hdrop, length_drop]
    omega
  · obtain ⟨hunits, hle⟩ := hshort hother hfitsOther
    have hinside := suffix_of_suffix_length_le hother (hwindow.trans hdata) (by omega)
    have hbytes := byteLength_le_drop_boundary hinside hwellOther hfitsOther
    rw [hdrop] at hbytes
    exact length_le_of_byteLength_le hinside hkept hwell hbytes

end

/-! ## Cuts at newlines -/

theorem byteLength_append_newline (left right : JsString) :
    byteLength (left ++ newlineUnit :: right) = byteLength left + 1 + byteLength right := by
  have hleft : splitsPair left (newlineUnit :: right) = false := by
    have hnl : isLowSurrogate newlineUnit = false := by decide
    simp [splitsPair, hnl]
  have hright : splitsPair [newlineUnit] right = false := by
    have hnl : isHighSurrogate newlineUnit = false := by decide
    simp [splitsPair, hnl]
  have hone : byteLength [newlineUnit] = 1 := by decide
  calc byteLength (left ++ newlineUnit :: right)
      = byteLength left + byteLength ([newlineUnit] ++ right) := byteLength_append hleft
    _ = byteLength left + 1 + byteLength right := by rw [byteLength_append hright, hone, Nat.add_assoc]

theorem countNewlines_append_newline (left right : JsString) :
    countNewlines (left ++ newlineUnit :: right) = countNewlines left + 1 + countNewlines right := by
  unfold countNewlines
  rw [count_append, count_cons_self]
  omega

theorem split_at_newline {content : JsString} {cut : ℕ} (h : content[cut]? = some newlineUnit) :
    content = content.take cut ++ newlineUnit :: content.drop (cut + 1) := by
  obtain ⟨hlt, hget⟩ := List.getElem?_eq_some_iff.mp h
  rw [← hget, getElem_cons_drop, take_append_drop]

theorem countNewlines_eq_zero_iff : countNewlines text = 0 ↔ newlineUnit ∉ text := count_eq_zero

/-! ## The head scan -/

section

variable {content : JsString} {cursor includedLines bytesUsed cutIndex maxLines maxBytes : ℕ}

theorem take_drop_lineFrom (content : JsString) (cursor : ℕ) :
    (content.take (cursor + (lineFrom content cursor).length)).drop cursor = lineFrom content cursor := by
  rw [drop_take, Nat.add_sub_cancel_left]
  exact (prefix_iff_eq_take.mp (List.takeWhile_prefix _)).symm

theorem newlineUnit_notMem_lineFrom (content : JsString) (cursor : ℕ) :
    newlineUnit ∉ lineFrom content cursor := by
  intro hmem
  have hne := mem_takeWhile_imp hmem
  simp at hne

/-- No newline stands inside the line. -/
theorem lineFrom_end_le (h : content[newline]? = some newlineUnit) (hle : cursor ≤ newline) :
    cursor + (lineFrom content cursor).length ≤ newline := by
  by_contra hlt
  have hget : (lineFrom content cursor)[newline - cursor]? = some newlineUnit := by
    rw [← take_drop_lineFrom, getElem?_drop, Nat.add_sub_cancel' hle, getElem?_take,
      if_pos (by omega), h]
  exact newlineUnit_notMem_lineFrom content cursor (mem_of_getElem? hget)

/-- A line that does not reach the end is followed by a newline. -/
theorem newline_behind_lineFrom (hcursor : cursor ≤ content.length)
    (h : cursor + (lineFrom content cursor).length ≠ content.length) :
    content[cursor + (lineFrom content cursor).length]? = some newlineUnit := by
  rw [← getElem?_drop]
  have hsplit := (takeWhile_append_dropWhile (p := (· ≠ newlineUnit)) (l := content.drop cursor))
  have hlength := congrArg length hsplit
  rw [length_append, length_drop] at hlength
  cases hrest : (content.drop cursor).dropWhile (· ≠ newlineUnit) with
  | nil =>
    rw [hrest, length_nil] at hlength
    unfold lineFrom at h
    omega
  | cons =>
    have hunit := head?_dropWhile_not (· ≠ newlineUnit) (content.drop cursor)
    rw [hrest] at hunit
    rw [← hsplit, hrest]
    unfold lineFrom
    simpa using hunit

/-- Where the scan stands: nothing is included yet, or the cursor is behind the newline at the cut. -/
def HeadAt (content : JsString) (cursor includedLines bytesUsed cutIndex : ℕ) : Prop :=
  (includedLines = 0 ∧ cursor = 0 ∧ bytesUsed = 0) ∨
    (0 < includedLines ∧ cursor = cutIndex + 1 ∧ content[cutIndex]? = some newlineUnit ∧
      countNewlines (content.take cutIndex) + 1 = includedLines ∧
      byteLength (content.take cutIndex) = bytesUsed)

namespace HeadAt

variable (h : HeadAt content cursor includedLines bytesUsed cutIndex)

include h

theorem cursor_le : cursor ≤ content.length := by
  rcases h with ⟨-, rfl, -⟩ | ⟨-, rfl, hnl, -⟩
  · exact Nat.zero_le _
  · exact (List.getElem?_eq_some_iff.mp hnl).1

/-- The lines and bytes up to a later position. -/
theorem totals (hposition : cursor ≤ pos) : countNewlines (content.take pos) =
        includedLines + countNewlines ((content.take pos).drop cursor) ∧
      byteLength (content.take pos) =
        bytesUsed + separatorBytes includedLines + byteLength ((content.take pos).drop cursor) := by
  rcases h with ⟨rfl, rfl, rfl⟩ | ⟨hpos, rfl, hnl, rfl, rfl⟩
  · simp [separatorBytes]
  · have hcut : (content.take pos)[cutIndex]? = some newlineUnit := by
      rw [getElem?_take, if_pos (by omega), hnl]
    have hsplit := split_at_newline hcut
    rw [take_take, Nat.min_eq_left (by omega)] at hsplit
    have hlines := congrArg countNewlines hsplit
    have hbytes := congrArg byteLength hsplit
    rw [countNewlines_append_newline] at hlines
    rw [byteLength_append_newline] at hbytes
    exact ⟨hlines, hbytes⟩

/-- The lines and bytes up to the end of the next line. -/
theorem totals_line :
    countNewlines (content.take (cursor + (lineFrom content cursor).length)) = includedLines ∧
      byteLength (content.take (cursor + (lineFrom content cursor).length)) =
        bytesUsed + (separatorBytes includedLines + byteLength (lineFrom content cursor)) := by
  obtain ⟨hlines, hbytes⟩ := h.totals (Nat.le_add_right cursor (lineFrom content cursor).length)
  rw [take_drop_lineFrom] at hlines hbytes
  rw [countNewlines_eq_zero_iff.mpr (newlineUnit_notMem_lineFrom content cursor)] at hlines
  exact ⟨hlines, by rw [hbytes, Nat.add_assoc]⟩

/-- A text that ends at a later newline holds the next line. -/
theorem totals_at_newline (hnl : content[newline]? = some newlineUnit) (hle : cursor ≤ newline) :
    includedLines ≤ countNewlines (content.take newline) ∧
      bytesUsed + separatorBytes includedLines + byteLength (lineFrom content cursor) ≤
        byteLength (content.take newline) := by
  have hline := h.totals_line.2
  have hlines := (h.totals hle).1
  have hmono := byteLength_take_mono content (lineFrom_end_le hnl hle)
  omega

/-- The line is included, up to the newline behind it. -/
theorem next (hnl : content[cursor + (lineFrom content cursor).length]? = some newlineUnit) :
    HeadAt content (cursor + (lineFrom content cursor).length + 1) (includedLines + 1)
      (bytesUsed + (separatorBytes includedLines + byteLength (lineFrom content cursor)))
      (cursor + (lineFrom content cursor).length) :=
  .inr ⟨Nat.succ_pos _, rfl, hnl, congrArg (· + 1) h.totals_line.1, h.totals_line.2⟩

end HeadAt

/-- The content is within both limits. -/
def Within (content : JsString) (maxLines maxBytes : ℕ) : Prop :=
  countNewlines content + 1 ≤ maxLines ∧ byteLength content ≤ maxBytes

/-- What stands before this newline is within both limits. -/
def HeadFits (content : JsString) (maxLines maxBytes newline : ℕ) : Prop :=
  content[newline]? = some newlineUnit ∧ Within (content.take newline) maxLines maxBytes

/-- The scan stops at the last newline that fits, or has included nothing because none fits. -/
structure HeadStop (content : JsString) (maxLines maxBytes : ℕ) (scan : HeadScan) : Prop where
  cut : 0 < scan.includedLines → scan.exceeds = false ∧ HeadFits content maxLines maxBytes scan.cutIndex ∧
    countNewlines (content.take scan.cutIndex) + 1 = scan.includedLines ∧
    byteLength (content.take scan.cutIndex) = scan.bytesUsed
  greatest : ∀ newline, HeadFits content maxLines maxBytes newline →
    0 < scan.includedLines ∧ newline ≤ scan.cutIndex

/-- The scan may stop when the text up to a later newline breaks a limit. -/
theorem HeadAt.stop (h : HeadAt content cursor includedLines bytesUsed cutIndex)
    (hlines : includedLines ≤ maxLines) (hbytes : bytesUsed ≤ maxBytes) {exceeds : Bool}
    (hover : exceeds → includedLines = 0)
    (hlater : ∀ newline, cursor ≤ newline → ¬ HeadFits content maxLines maxBytes newline) :
    HeadStop content maxLines maxBytes ⟨includedLines, bytesUsed, cutIndex, truncatedBy, exceeds⟩ where
  cut hpos := by
    rcases h with ⟨rfl, -⟩ | ⟨-, -, hnl, rfl, rfl⟩
    · exact absurd hpos (Nat.lt_irrefl 0)
    · refine ⟨?_, ⟨hnl, hlines, hbytes⟩, rfl, rfl⟩
      cases exceeds with
      | false => rfl
      | true => exact absurd (hover rfl) (Nat.succ_ne_zero _)
  greatest newline hfits := by
    have hbefore : newline < cursor := Nat.lt_of_not_le fun hle ↦ hlater newline hle hfits
    rcases h with ⟨-, rfl, -⟩ | ⟨hpos, rfl, -⟩
    · exact absurd hbefore (Nat.not_lt_zero _)
    · exact ⟨hpos, Nat.le_of_lt_succ hbefore⟩

theorem scanHead_spec (hover : ¬ Within content maxLines maxBytes) {rounds : ℕ}
    (h : HeadAt content cursor includedLines bytesUsed cutIndex)
    (hlines : includedLines + rounds = maxLines) (hbytes : bytesUsed ≤ maxBytes) :
    HeadStop content maxLines maxBytes
      (scanHead content maxBytes rounds cursor includedLines bytesUsed cutIndex) := by
  induction rounds generalizing cursor includedLines bytesUsed cutIndex with
  | zero =>
    apply h.stop (by omega) hbytes (fun himpossible ↦ Bool.noConfusion himpossible)
    rintro newline hle ⟨hnl, hfits, -⟩
    have hmore := (h.totals_at_newline hnl hle).1
    omega
  | succ rounds ih =>
    have hunits := length_le_byteLength (lineFrom content cursor)
    -- the next line breaks the byte limit
    have hstop (hline : maxBytes < bytesUsed + separatorBytes includedLines +
        byteLength (lineFrom content cursor)) {exceeds : Bool}
        (hexceeds : exceeds → includedLines = 0) :
        HeadStop content maxLines maxBytes ⟨includedLines, bytesUsed, cutIndex, .bytes, exceeds⟩ := by
      apply h.stop (by omega) hbytes hexceeds
      rintro newline hle ⟨hnl, -, hfits⟩
      have hmore := (h.totals_at_newline hnl hle).2
      omega
    rw [scanHead]
    split_ifs with hsep hlength hbyteLength hend
    · exact hstop (by omega) (fun himpossible ↦ Bool.noConfusion himpossible)
    · exact hstop (by omega) of_decide_eq_true
    · exact hstop (by omega) of_decide_eq_true
    · obtain ⟨htotalLines, htotalBytes⟩ := h.totals_line
      rw [hend, take_length] at htotalLines htotalBytes
      exact absurd ⟨by omega, by omega⟩ hover
    · exact ih (h.next (newline_behind_lineFrom h.cursor_le hend)) (by omega) (by omega)

/-- The scan of a content over the limits. -/
theorem headStop_scanHead (hover : ¬ Within content maxLines maxBytes) :
    HeadStop content maxLines maxBytes (scanHead content maxBytes maxLines 0 0 0 0) :=
  scanHead_spec hover (.inl ⟨rfl, rfl, rfl⟩) (Nat.zero_add _) (Nat.zero_le _)

/-- The result keeps what stands before the last newline that fits. -/
structure HeadCut (content : JsString) (maxLines maxBytes cut : ℕ) (result : TruncationResult) : Prop where
  fits : HeadFits content maxLines maxBytes cut
  greatest : ∀ newline, HeadFits content maxLines maxBytes newline → newline ≤ cut
  content_eq : result.content = content.take cut
  lines_eq : outputLineCount result = countNewlines (content.take cut) + 1
  bytes_eq : outputByteCount result = byteLength (content.take cut)
  usable : result.firstLineExceedsLimit = false
  whole : result.lastLinePartial = false

theorem truncateHead_spec (hover : ¬ Within content maxLines maxBytes) :
    (outputLineCount (truncateHead content maxLines maxBytes) = 0 ∧
        ∀ newline, ¬ HeadFits content maxLines maxBytes newline) ∨
      ∃ cut, HeadCut content maxLines maxBytes cut (truncateHead content maxLines maxBytes) := by
  have hstop := headStop_scanHead hover
  have hres : truncateHead content maxLines maxBytes = _ := if_neg hover
  rw [hres]
  generalize scanHead content maxBytes maxLines 0 0 0 0 = scan at hstop
  rcases Nat.eq_zero_or_pos scan.includedLines with hzero | hpos
  · left
    constructor
    · simp [outputLineCount, hzero]
    · intro newline hfits
      have hpos := (hstop.greatest newline hfits).1
      omega
  · right
    obtain ⟨hexceeds, hfits, hlines, hbytes⟩ := hstop.cut hpos
    refine ⟨scan.cutIndex, hfits, fun newline hnl ↦ (hstop.greatest newline hnl).2, ?_, ?_, ?_,
      hexceeds, rfl⟩
    · simp [hexceeds]
    · simp [outputLineCount, hexceeds, hlines]
    · simp [outputByteCount, hexceeds, hbytes]

end

/-! ## The tail scan -/

section

variable {content : JsString} {stop includedLines bytesUsed startIndex maxLines maxBytes : ℕ}

/-- All newlines up to a position stand in front of the line that it is in. -/
theorem lastNewline_spec (content : JsString) (pos : ℕ) :
    lineStartOf (lastNewline content pos) ≤ pos + 1 ∧
      (∀ idx ≤ pos, content[idx]? = some newlineUnit → idx < lineStartOf (lastNewline content pos)) ∧
      ∀ newline, lastNewline content pos = some newline → content[newline]? = some newlineUnit := by
  fun_induction lastNewline content pos with
  | case1 hnl | case3 pos hnl =>
    refine ⟨le_rfl, fun idx hle _ ↦ Nat.lt_succ_of_le hle, ?_⟩
    rintro _ ⟨⟩
    exact hnl
  | case2 hnl =>
    refine ⟨Nat.zero_le _, fun idx hle hidx ↦ ?_, by rintro _ ⟨⟩⟩
    rw [Nat.le_zero.mp hle] at hidx
    exact absurd hidx hnl
  | case4 pos hnl ih =>
    obtain ⟨hle, hlast, hsome⟩ := ih
    refine ⟨Nat.le_succ_of_le hle, fun idx hidx hat ↦ ?_, hsome⟩
    rcases Nat.lt_or_eq_of_le hidx with hlt | rfl
    · exact hlast idx (Nat.le_of_lt_succ hlt) hat
    · exact absurd hat hnl

theorem newline_lt_lineStartOf (hnl : content[newline]? = some newlineUnit) (hlt : newline < stop) :
    newline < lineStartOf (lastNewline content (stop - 1)) :=
  (lastNewline_spec content _).2.1 newline (Nat.le_sub_one_of_lt hlt) hnl

/-- No newline stands in the line before a position. -/
theorem newlineUnit_notMem_line (content : JsString) (stop : ℕ) :
    newlineUnit ∉ (content.take stop).drop (lineStartOf (lastNewline content (stop - 1))) := by
  intro hmem
  obtain ⟨offset, hoffset⟩ := getElem?_of_mem hmem
  rw [getElem?_drop, getElem?_take] at hoffset
  split_ifs at hoffset with hlt
  have hfront := newline_lt_lineStartOf hoffset hlt
  omega

/-- The line behind the last newline. -/
def lastSourceLine (content : JsString) : JsString :=
  content.drop (lineStartOf (lastNewline content (content.length - 1)))

theorem isWellFormed_of_append_newline {front last : JsString}
    (h : isWellFormed (front ++ newlineUnit :: last)) : isWellFormed last := by
  have hhigh : isHighSurrogate newlineUnit = false := by decide
  have hlow : isLowSurrogate newlineUnit = false := by decide
  have hdrop := isWellFormed_drop h front.length
  rw [drop_left] at hdrop
  rcases hdrop with hwell | ⟨low, rest, heq, hlow', -⟩
  · cases last with
    | nil => rfl
    | cons => simpa [isWellFormed, hhigh, hlow] using hwell
  · cases heq
    exact absurd hlow' (by decide)

theorem isWellFormed_lastSourceLine (h : isWellFormed content) :
    isWellFormed (lastSourceLine content) := by
  rw [lastSourceLine]
  cases hlast : lastNewline content (content.length - 1) with
  | none => exact h
  | some =>
    rw [split_at_newline ((lastNewline_spec content _).2.2 _ hlast)] at h
    exact isWellFormed_of_append_newline h

/-- Where the scan stands: nothing is included yet, or what is behind the newline is included. -/
def TailAt (content : JsString) (stop includedLines bytesUsed startIndex : ℕ) : Prop :=
  (includedLines = 0 ∧ stop = content.length ∧ bytesUsed = 0) ∨
    (0 < includedLines ∧ startIndex = stop + 1 ∧ content[stop]? = some newlineUnit ∧
      countNewlines (content.drop (stop + 1)) + 1 = includedLines ∧
      byteLength (content.drop (stop + 1)) = bytesUsed)

section

variable (h : TailAt content stop includedLines bytesUsed startIndex)

include h

/-- The lines and bytes from an earlier position on. -/
theorem TailAt.totals (hposition : pos ≤ stop) : countNewlines (content.drop pos) =
        includedLines + countNewlines ((content.take stop).drop pos) ∧
      byteLength (content.drop pos) =
        bytesUsed + separatorBytes includedLines + byteLength ((content.take stop).drop pos) := by
  rcases h with ⟨rfl, rfl, rfl⟩ | ⟨hpos, rfl, hnl, rfl, rfl⟩
  · simp [separatorBytes]
  · have hsplit : content.drop pos =
        (content.take stop).drop pos ++ newlineUnit :: content.drop (stop + 1) := by
      have hlen : (content.take stop).length = stop := by
        have hlt := (List.getElem?_eq_some_iff.mp hnl).1
        rw [length_take]
        omega
      conv_lhs => rw [split_at_newline hnl]
      rw [drop_append, hlen, Nat.sub_eq_zero_of_le hposition, drop_zero]
    rw [separatorBytes, if_pos hpos, hsplit, countNewlines_append_newline, byteLength_append_newline]
    constructor <;> omega

theorem TailAt.stop_le : stop ≤ content.length := by
  rcases h with ⟨-, rfl, -⟩ | ⟨-, -, hnl, -⟩
  · exact Nat.le_refl _
  · exact (List.getElem?_eq_some_iff.mp hnl).1.le

theorem TailAt.at_end (hzero : includedLines = 0) : stop = content.length ∧ bytesUsed = 0 := by
  rcases h with ⟨-, hend⟩ | ⟨hpos, -⟩
  · exact hend
  · exact absurd hzero hpos.ne'

/-- The last line is longer than the limit; it is the whole content, or a newline stands before it. -/
def LastLineExceeds (content : JsString) (maxBytes : ℕ) : Prop :=
  newlineUnit ∉ content ∨
    ∃ front last, content = front ++ newlineUnit :: last ∧ newlineUnit ∉ last ∧ maxBytes < byteLength last

/-- The scan stops behind a newline, or inside a last line that is too long. -/
def TailStop (content : JsString) (maxLines maxBytes : ℕ) : TailScan → Prop
  | .whole includedLines bytesUsed startIndex truncatedBy => truncatedBy ≠ .middle ∧
      ∃ newline, startIndex = newline + 1 ∧ content[newline]? = some newlineUnit ∧ Within (content.drop startIndex) maxLines maxBytes ∧
      countNewlines (content.drop startIndex) + 1 = includedLines ∧
      byteLength (content.drop startIndex) = bytesUsed
  | .partialLine text bytes => text <:+ content ∧ newlineUnit ∉ text ∧ bytes = byteLength text ∧
      bytes ≤ maxBytes ∧ LastLineExceeds content maxBytes

/-- Nothing more could be kept: no earlier newline fits, or the last line is kept as far as it fits. -/
def TailGreatest (content : JsString) (maxLines maxBytes : ℕ) : TailScan → Prop
  | .whole _ _ startIndex _ => ∀ newline, content[newline]? = some newlineUnit →
      Within (content.drop (newline + 1)) maxLines maxBytes → startIndex ≤ newline + 1
  | .partialLine text _ => maxBytes < byteLength (lastSourceLine content) ∧
      IsLongestEnd (lastSourceLine content) maxBytes text

theorem TailAt.tailStop
    (hpos : 0 < includedLines) (hlines : includedLines ≤ maxLines) (hbytes : bytesUsed ≤ maxBytes)
    (hreason : truncatedBy ≠ .middle)
    (hearlier : ∀ newline < stop, content[newline]? = some newlineUnit →
      ¬ Within (content.drop (newline + 1)) maxLines maxBytes) :
    TailStop content maxLines maxBytes (.whole includedLines bytesUsed startIndex truncatedBy) ∧
      TailGreatest content maxLines maxBytes (.whole includedLines bytesUsed startIndex truncatedBy) := by
  rcases h with ⟨rfl, -⟩ | ⟨-, rfl, hnl, rfl, rfl⟩
  · exact absurd hpos (Nat.lt_irrefl 0)
  · refine ⟨⟨hreason, stop, rfl, hnl, ⟨hlines, hbytes⟩, rfl, rfl⟩, fun newline hat hfits ↦ ?_⟩
    by_contra hlt
    exact hearlier newline (by omega) hat hfits

end

/-- A part of the last line is kept. -/
theorem partialLine_stop (hwell : isWellFormed content)
    {window : JsString} (hwindow : window <:+ lastSourceLine content)
    (hwhole : window = lastSourceLine content ∨ maxBytes ≤ window.length)
    (hlong : maxBytes < byteLength (lastSourceLine content)) {scan : TailScan}
    (hscan : scan = .partialLine (truncateTailBytes window maxBytes).1 (truncateTailBytes window maxBytes).2) :
    TailStop content maxLines maxBytes scan ∧ TailGreatest content maxLines maxBytes scan := by
  obtain ⟨hlongest, hbytes⟩ :=
    truncateTailBytes_spec (isWellFormed_lastSourceLine hwell) hwindow maxBytes hwhole
  have hline := newlineUnit_notMem_line content content.length
  rw [take_length] at hline
  rw [hscan]
  refine ⟨⟨hlongest.suffix.trans (drop_suffix _ _), fun hmem ↦ hline (hlongest.suffix.subset hmem),
    hbytes, hbytes ▸ hlongest.fits, ?_⟩, hlong, hlongest⟩
  rw [lastSourceLine] at hlong
  cases hlast : lastNewline content (content.length - 1) with
  | none =>
    rw [hlast, lineStartOf, drop_zero] at hline
    exact .inl hline
  | some =>
    rw [hlast, lineStartOf] at hline hlong
    exact .inr ⟨_, _, split_at_newline ((lastNewline_spec content _).2.2 _ hlast), hline, hlong⟩

theorem scanTail_spec (hwell : isWellFormed content) (hover : ¬ Within content maxLines maxBytes)
    (hmaxLines : 0 < maxLines) {rounds : ℕ} (h : TailAt content stop includedLines bytesUsed startIndex)
    (hlines : includedLines + rounds = maxLines) (hbytes : bytesUsed ≤ maxBytes) {scan : TailScan}
    (hscan : scanTail content maxBytes rounds stop includedLines bytesUsed startIndex = scan) :
    TailStop content maxLines maxBytes scan ∧ TailGreatest content maxLines maxBytes scan := by
  induction rounds generalizing stop includedLines bytesUsed startIndex with
  | zero =>
    rw [← hscan]
    refine h.tailStop (by omega) (by omega) hbytes (by decide) fun newline hlt _ hfits ↦ ?_
    have hmore := (h.totals (Nat.lt_iff_add_one_le.mp hlt)).1
    have hfewer := hfits.1
    omega
  | succ rounds ih =>
    rw [scanTail] at hscan
    by_cases hsep : maxBytes < bytesUsed + separatorBytes includedLines
    · rw [if_pos hsep] at hscan
      have hpos : 0 < includedLines := by
        unfold separatorBytes at hsep
        split_ifs at hsep with hpos
        · exact hpos
        · omega
      rw [← hscan]
      refine h.tailStop hpos (by omega) hbytes (by decide) fun newline hlt _ hfits ↦ ?_
      have hmore := (h.totals (Nat.lt_iff_add_one_le.mp hlt)).2
      have hfewer := hfits.2
      omega
    have hstop : 0 < stop := by
      -- with nothing left in front, the content would be within the limits
      rcases Nat.eq_zero_or_pos stop with rfl | hpos
      · obtain ⟨htotalLines, htotalBytes⟩ := h.totals (Nat.le_refl 0)
        have hnothing : byteLength [] = 0 := rfl
        have hnone : countNewlines [] = 0 := rfl
        rw [take_zero, drop_zero, drop_zero] at htotalLines htotalBytes
        exact absurd ⟨by omega, by omega⟩ hover
      · exact hpos
    have hstart := (lastNewline_spec content (stop - 1)).1
    have hnoNewline := newlineUnit_notMem_line content stop
    dsimp only at hscan
    generalize hname : lineStartOf (lastNewline content (stop - 1)) = start at *
    obtain ⟨htotalLines, htotalBytes⟩ := h.totals (hstart.trans (by omega))
    rw [countNewlines_eq_zero_iff.mpr hnoNewline, Nat.add_zero] at htotalLines
    have hunits := length_le_byteLength ((content.take stop).drop start)
    have hlength : ((content.take stop).drop start).length = stop - start := by
      rw [length_drop, length_take, Nat.min_eq_left h.stop_le]
    -- the line breaks the byte limit, and so does all that begins in front of it
    have hbreaks (hline : maxBytes < byteLength (content.drop start)) : ∀ newline < stop,
        content[newline]? = some newlineUnit → ¬ Within (content.drop (newline + 1)) maxLines maxBytes := by
      intro newline hlt hnl hfits
      have hmore := byteLength_le_of_suffix (drop_suffix_drop_left content (hname ▸ newline_lt_lineStartOf hnl hlt))
      exact absurd (hmore.trans hfits.2) (by omega)
    split_ifs at hscan with hlong hzero hbyteLong hzero
    · obtain ⟨rfl, rfl⟩ := h.at_end hzero
      rw [take_length] at *
      subst hname
      refine partialLine_stop hwell (drop_suffix_drop_left _ (Nat.le_max_left _ _)) (Or.inr ?_)
        ?_ hscan.symm
      · rw [length_drop]
        omega
      · rw [lastSourceLine]
        omega
    · rw [← hscan]
      exact h.tailStop (by omega) (by omega) hbytes (by decide) (hbreaks (by omega))
    · obtain ⟨rfl, rfl⟩ := h.at_end hzero
      rw [take_length] at *
      subst hname
      refine partialLine_stop hwell suffix_rfl (Or.inl rfl) ?_ hscan.symm
      rw [lastSourceLine]
      omega
    · rw [← hscan]
      exact h.tailStop (by omega) (by omega) hbytes (by decide) (hbreaks (by omega))
    · cases hlast : lastNewline content (stop - 1) with
      | none =>
        rw [hlast, lineStartOf] at hname
        subst hname
        rw [drop_zero] at htotalLines htotalBytes
        exact absurd ⟨by omega, by omega⟩ hover
      | some =>
        rw [hlast, lineStartOf] at hname
        subst hname
        simp only [hlast] at hscan
        refine ih ?_ (by omega) (by omega) hscan
        refine .inr ⟨Nat.succ_pos _, rfl, ((lastNewline_spec content _).2.2 _ hlast), ?_, ?_⟩
        · rw [htotalLines]
        · rw [htotalBytes, Nat.add_assoc]

/-- The result keeps what stands behind a newline. -/
structure TailCut (content : JsString) (maxLines maxBytes newline : ℕ) (result : TruncationResult) :
    Prop where
  newline_at : content[newline]? = some newlineUnit
  fits : Within (content.drop (newline + 1)) maxLines maxBytes
  content_eq : result.content = content.drop (newline + 1)
  lines_eq : outputLineCount result = countNewlines (content.drop (newline + 1)) + 1
  bytes_eq : outputByteCount result = byteLength (content.drop (newline + 1))
  whole : result.lastLinePartial = false
  unmarked : result.truncatedBy ≠ some .middle

/-- The result keeps the end of a last line that is too long. -/
structure TailPart (content : JsString) (maxBytes : ℕ) (result : TruncationResult) : Prop where
  exceeds : LastLineExceeds content maxBytes
  suffix : result.content <:+ content
  noNewline : newlineUnit ∉ result.content
  fits : byteLength result.content ≤ maxBytes
  lines_eq : outputLineCount result = 1
  bytes_eq : outputByteCount result = byteLength result.content
  partly : result.lastLinePartial = true
  unmarked : result.truncatedBy ≠ some .middle

theorem truncateTail_spec (hwell : isWellFormed content)
    (hover : ¬ Within content maxLines maxBytes) (hmaxLines : 0 < maxLines) :
    (∃ newline, TailCut content maxLines maxBytes newline (truncateTail content maxLines maxBytes)) ∨
      TailPart content maxBytes (truncateTail content maxLines maxBytes) := by
  have hstop : TailStop content maxLines maxBytes
      (scanTail content maxBytes maxLines content.length 0 0 content.length) :=
    (scanTail_spec hwell hover hmaxLines (.inl ⟨rfl, rfl, rfl⟩) (Nat.zero_add _) (Nat.zero_le _) rfl).1
  have hres : truncateTail content maxLines maxBytes = _ := if_neg hover
  rw [hres]
  generalize scanTail content maxBytes maxLines content.length 0 0 content.length = scan at hstop
  cases scan with
  | whole =>
    obtain ⟨hreason, newline, rfl, hnl, hfits, hlines, hbytes⟩ := hstop
    refine .inl ⟨newline, hnl, hfits, rfl, hlines.symm, hbytes.symm, rfl, ?_⟩
    simp only [ne_eq, Option.some.injEq]
    split_ifs
    · decide
    · exact hreason
  | partialLine =>
    obtain ⟨hsuffix, hnone, rfl, hle, hexceeds⟩ := hstop
    exact .inr ⟨hexceeds, hsuffix, hnone, hle, rfl, rfl, rfl, by simp⟩

end

end GajaeCode.Session
