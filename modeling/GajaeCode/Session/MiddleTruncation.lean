import GajaeCode.Session.TruncationBudget

/-!
# What middle truncation keeps

With budgets for both windows, `truncateMiddle` returns the tail alone when the first line does not
fit, the whole content when the windows have at least as many lines as the content, and otherwise the
windows with a marker between them. The number of lines is compared also when the tail is only a part
of the last line: then a head that ends right before that line makes the whole content come back,
whatever the length of the last line.
-/

namespace GajaeCode.Session

open Text List

variable {head res tail : TruncationResult} {cut : ℕ}
open TruncationOptions (orElse)

/-- Both windows have a budget. -/
structure TruncationOptions.Splits (options : TruncationOptions) : Prop where
  headBytes_pos : 0 < options.headBytes
  headBytes_lt : options.headBytes < options.bytes
  headLines_pos : 0 < options.headLines
  headLines_lt : options.headLines < options.lines

theorem TruncationOptions.Splits.tail_pos {options : TruncationOptions} (h : options.Splits) :
    0 < options.tailLines ∧ 0 < options.tailBytes :=
  ⟨Nat.sub_pos_of_lt h.headLines_lt, Nat.sub_pos_of_lt h.headBytes_lt⟩

/-- What the head scan keeps within its share of the budget. -/
abbrev TruncationOptions.headOf (options : TruncationOptions) (content : JsString) : TruncationResult :=
  truncateHead content options.headLines options.headBytes

/-- What the tail scan keeps within the rest. -/
abbrev TruncationOptions.tailOf (options : TruncationOptions) (content : JsString) : TruncationResult :=
  truncateTail content options.tailLines options.tailBytes

/-! ## Windows of a content -/

section

variable {content : JsString} {maxLines maxBytes cut newline maxLines' maxBytes' : ℕ}
variable {head tail : TruncationResult}

theorem countNewlines_mono_suffix {ending text : JsString} (h : ending <:+ text) :
    countNewlines ending ≤ countNewlines text :=
  h.sublist.count_le newlineUnit

theorem totals_at (h : content[cut]? = some newlineUnit) :
    countNewlines content = countNewlines (content.take cut) + 1 + countNewlines (content.drop (cut + 1)) ∧
      byteLength content = byteLength (content.take cut) + 1 + byteLength (content.drop (cut + 1)) := by
  constructor
  · rw [← countNewlines_append_newline, ← split_at_newline h]
  · rw [← byteLength_append_newline, ← split_at_newline h]

/-- Windows of whole lines overlap or touch exactly when they have enough lines. -/
theorem covers_iff (hhead : HeadCut content maxLines maxBytes cut head)
    (htail : TailCut content maxLines' maxBytes' newline tail) :
    countNewlines content + 1 ≤ outputLineCount head + outputLineCount tail ↔ newline ≤ cut := by
  have htotal := (totals_at hhead.fits.1).1
  rw [hhead.lines_eq, htail.lines_eq]
  constructor
  · intro hle
    by_contra hlt
    have hrest : content.drop newline <:+ content.drop (cut + 1) := drop_suffix_drop_left content (by omega)
    have hmore := countNewlines_mono_suffix hrest
    unfold countNewlines at *
    rw [drop_eq_getElem?_toList_append, htail.newline_at, Option.toList, singleton_append,
      count_cons_self] at hmore
    omega
  · intro hle
    have hmore := countNewlines_mono_suffix (drop_suffix_drop_left content (Nat.add_le_add_right hle 1))
    omega

/-- An end of the content without newlines lies behind every newline. -/
theorem suffix_drop_of_notMem (hcut : content[cut]? = some newlineUnit) {ending : JsString}
    (hsuffix : ending <:+ content) (hnone : newlineUnit ∉ ending) : ending <:+ content.drop (cut + 1) := by
  have hbehind : newlineUnit :: content.drop (cut + 1) <:+ content :=
    ⟨content.take cut, (split_at_newline hcut).symm⟩
  rcases suffix_or_suffix_of_suffix hsuffix hbehind with hinside | hover
  · rcases suffix_cons_iff.mp hinside with rfl | hrest
    · exact absurd mem_cons_self hnone
    · exact hrest
  · exact absurd (hover.subset mem_cons_self) hnone

end

/-! ## The outcomes -/

section

variable {toLocaleString formatBytes : ℕ → JsString} {content : JsString} {options : TruncationOptions}

/-- A window of at least one line is kept as it is. -/
theorem makeReadSegment_spec (hpos : 0 < outputLineCount res)
    (hpart : res.lastLinePartial → outputLineCount res = 1) (startLine totalLines : ℕ)
    (source : JsString) :
    ∃ seg, makeReadSegment res startLine totalLines source = some seg ∧
      seg.content = res.content ∧ seg.lines = outputLineCount res ∧
      seg.bytes = outputByteCount res ∧
      (seg.kind = .partialLine ↔ res.lastLinePartial) := by
  simp only [makeReadSegment, if_neg hpos.ne']
  cases hpartial : res.lastLinePartial with
  | false => exact ⟨_, if_neg (by simp), rfl, rfl, rfl, by simp⟩
  | true => exact ⟨_, if_pos rfl, rfl, (hpart hpartial).symm, rfl, by simp⟩

/-- The windows that are put together. -/
structure Usable (content : JsString) (options : TruncationOptions) : Prop where
  exceeds : ¬ Within content options.lines options.bytes
  head_pos : 0 < outputLineCount (truncateHead content options.headLines options.headBytes)
  head_fits : (truncateHead content options.headLines options.headBytes).firstLineExceedsLimit = false
  head_whole : (truncateHead content options.headLines options.headBytes).lastLinePartial = false
  tail_pos : 0 < outputLineCount (truncateTail content options.tailLines options.tailBytes)
  tail_part : (truncateTail content options.tailLines options.tailBytes).lastLinePartial = true →
    outputLineCount (truncateTail content options.tailLines options.tailBytes) = 1

theorem Usable.head_part (h : Usable content options)
    (hcut : (options.headOf content).lastLinePartial) :
    outputLineCount (options.headOf content) = 1 :=
  absurd hcut (by rw [h.head_whole]; decide)

variable (hsplits : options.Splits)

include hsplits

section

variable (hover : ¬ Within content options.lines options.bytes)

include hover

theorem not_within_head : ¬ Within content options.headLines options.headBytes := by
  intro hwithin
  have hlines := hwithin.1.trans hsplits.headLines_lt.le
  have hbytes := hwithin.2.trans hsplits.headBytes_lt.le
  exact hover ⟨hlines, hbytes⟩

/-- The tail scan keeps whole lines, or a part of the last one. -/
theorem tailOf_spec (hwell : isWellFormed content) :
    (∃ newline, TailCut content options.tailLines options.tailBytes newline (options.tailOf content)) ∨
      TailPart content options.tailBytes (options.tailOf content) := by
  apply truncateTail_spec hwell _ hsplits.tail_pos.1
  intro hwithin
  have hlines := hwithin.1.trans (Nat.sub_le _ _)
  have hbytes := hwithin.2.trans (Nat.sub_le _ _)
  exact hover ⟨hlines, hbytes⟩

/-- Beyond the limits, the windows are decided by the two scans. -/
theorem truncateMiddleWindows_of_over : truncateMiddleWindows content options =
      if outputLineCount (options.headOf content) = 0 ∨
          (options.headOf content).firstLineExceedsLimit then
        oneSided content (countNewlines content + 1) (byteLength content) .tailOnly
          (options.tailOf content)
          (countNewlines content + 1 - outputLineCount (options.tailOf content) + 1)
      else if outputLineCount (options.tailOf content) = 0 then
        oneSided content (countNewlines content + 1) (byteLength content) .headOnly
          (options.headOf content) 1
      else
        middleWindows content (countNewlines content + 1) (byteLength content)
          (options.headOf content)
          (options.tailOf content) := by
  have hhead : ¬ (options.headBytes = 0 ∨ options.headLines = 0) := by
    have hbytes := hsplits.headBytes_pos
    have hlines := hsplits.headLines_pos
    omega
  have htail : ¬ (options.tailBytes = 0 ∨ options.tailLines = 0) := by
    have hpos := hsplits.tail_pos
    omega
  rw [truncateMiddleWindows, if_neg (fun h ↦ hover ⟨h.2, h.1⟩), if_neg hhead, if_neg htail]

/-- Without a usable head, the tail is returned. -/
theorem truncateMiddle_of_no_head (hhead : outputLineCount (options.headOf content) = 0) :
    truncateMiddle toLocaleString formatBytes content options = options.tailOf content := by
  have hlines : orElse options.tailLines options.lines = options.tailLines :=
    if_neg hsplits.tail_pos.1.ne'
  have hbytes : orElse options.tailBytes options.bytes = options.tailBytes :=
    if_neg hsplits.tail_pos.2.ne'
  rw [truncateMiddle, truncateMiddleWindows_of_over hsplits hover, if_pos (.inl hhead)]
  simp [oneSided, hlines, hbytes]

end

variable (h : Usable content options)

include h

theorem truncateMiddleWindows_of_usable : truncateMiddleWindows content options =
      middleWindows content (countNewlines content + 1) (byteLength content) (options.headOf content)
        (options.tailOf content) := by
  have hhead : ¬ (outputLineCount (options.headOf content) = 0 ∨
      (options.headOf content).firstLineExceedsLimit) := by
    rw [h.head_fits, not_or]
    exact ⟨h.head_pos.ne', Bool.false_ne_true⟩
  rw [truncateMiddleWindows_of_over hsplits h.exceeds, if_neg hhead, if_neg h.tail_pos.ne']

/-- Windows with enough lines bring back the whole content. -/
theorem truncateMiddle_of_covers
    (hcovers : countNewlines content + 1 ≤ outputLineCount (options.headOf content) +
        outputLineCount (options.tailOf content)) :
    truncateMiddle toLocaleString formatBytes content options =
      noTruncResult content (countNewlines content + 1) (byteLength content) := by
  obtain ⟨headWindow, hheadWindow, -, hheadLines, -⟩ :=
    makeReadSegment_spec h.head_pos h.head_part 1 (countNewlines content + 1) content
  obtain ⟨tailWindow, htailWindow, -, htailLines, -⟩ := makeReadSegment_spec h.tail_pos h.tail_part
    (countNewlines content + 1 - outputLineCount (options.tailOf content) + 1)
    (countNewlines content + 1) content
  rw [truncateMiddle, truncateMiddleWindows_of_usable hsplits h, middleWindows]
  cases hpartial : (options.tailOf content).lastLinePartial with
  | false =>
    simp only [hcovers, and_self, if_true]
    rfl
  | true =>
    simp only [Bool.true_eq_false, and_false, if_false, if_true, hheadWindow, htailWindow]
    rw [if_pos (by rwa [hheadLines, htailLines])]

/-- Otherwise the windows are joined by the marker. -/
theorem truncateMiddle_of_apart
    (hhead : head = options.headOf content) (htail : tail = options.tailOf content)
    (hapart : outputLineCount head + outputLineCount tail < countNewlines content + 1)
    {elidedLines elidedBytes : ℕ}
    (helidedLines : elidedLines = countNewlines content + 1 - outputLineCount head - outputLineCount tail)
    (helidedBytes : elidedBytes = byteLength content - outputByteCount head - outputByteCount tail)
    (hres : res = truncateMiddle toLocaleString formatBytes content options) :
    res.truncatedBy = some .middle ∧ res.elidedLines = some elidedLines ∧
      res.elidedBytes = some elidedBytes ∧
      res.content = head.content ++ newlineUnit ::
        (formatMiddleElisionMarker toLocaleString formatBytes elidedLines elidedBytes ++
          newlineUnit :: tail.content) := by
  subst hhead htail helidedLines helidedBytes hres
  obtain ⟨headWindow, hheadWindow, hheadContent, hheadLines, hheadBytes, -⟩ :=
    makeReadSegment_spec h.head_pos h.head_part 1 (countNewlines content + 1) content
  obtain ⟨tailWindow, htailWindow, htailContent, htailLines, htailBytes, htailKind⟩ :=
    makeReadSegment_spec h.tail_pos h.tail_part
      (countNewlines content + 1 - outputLineCount (options.tailOf content) + 1)
      (countNewlines content + 1) content
  have hnot : ¬ (countNewlines content + 1 ≤
      outputLineCount (options.headOf content) + outputLineCount (options.tailOf content) ∧
      (options.tailOf content).lastLinePartial = false) :=
    fun hcovers ↦ absurd hcovers.1 (Nat.not_le_of_lt hapart)
  rw [truncateMiddle, truncateMiddleWindows_of_usable hsplits h, middleWindows]
  simp only [hnot, if_false, hheadWindow, htailWindow, hheadLines, htailLines, hheadBytes, htailBytes,
    hheadContent, htailContent, htailKind]
  rw [if_neg (Nat.not_le_of_lt hapart)]
  cases (options.tailOf content).lastLinePartial with
  | false => simp
  | true => simp

end

/-! ## The budget -/

section

variable (toLocaleString formatBytes : ℕ → JsString)

/-- Nothing, everything, or what stands before a newline. -/
def IsWholeLines (content head : JsString) : Prop :=
  head = [] ∨ head = content ∨ head ++ [newlineUnit] <+: content

/-- A result with a marker: both windows are within the limits, and what they leave out is reported. -/
def MarkerRespectsBudget (content : JsString) (options : TruncationOptions) (result : TruncationResult) :
    Prop :=
  ∃ head tail elidedLines elidedBytes,
    result.elidedLines = some elidedLines ∧ result.elidedBytes = some elidedBytes ∧
    result.content = head ++ newlineUnit ::
      (formatMiddleElisionMarker toLocaleString formatBytes elidedLines elidedBytes ++ newlineUnit :: tail) ∧
    IsWholeLines content head ∧ tail <:+ content ∧
    byteLength result.content ≤ options.bytes + 2 +
      byteLength (formatMiddleElisionMarker toLocaleString formatBytes elidedLines elidedBytes) ∧
    countNewlines head + 1 + elidedLines + (countNewlines tail + 1) = countNewlines content + 1 ∧
    byteLength head + elidedBytes + byteLength tail = byteLength content

/-- A result without a marker is within the limit. -/
def PlainRespectsBudget (content : JsString) (options : TruncationOptions) (result : TruncationResult) : Prop :=
  byteLength result.content ≤ options.bytes + 1 ∧
    ∃ head tail, result.content = head ++ tail ∧ IsWholeLines content head ∧ tail <:+ content

def RespectsBudget (content : JsString) (options : TruncationOptions) (result : TruncationResult) : Prop :=
  (result.truncatedBy = some .middle → MarkerRespectsBudget toLocaleString formatBytes content options result) ∧
    (result.truncatedBy ≠ some .middle → PlainRespectsBudget content options result)

/-- All lines but the last fit into the head window, the last line does not fit into the tail window,
and the content is too long. -/
def LongLastLine (content : JsString) (options : TruncationOptions) : Prop :=
  ∃ front last, content = front ++ newlineUnit :: last ∧ newlineUnit ∉ last ∧
    Within front options.headLines options.headBytes ∧ options.tailBytes < byteLength last ∧
    options.bytes + 1 < byteLength content

variable {toLocaleString formatBytes} {content : JsString} {options : TruncationOptions}

theorem IsWholeLines.of_cut (h : content[cut]? = some newlineUnit) :
    IsWholeLines content (content.take cut) := by
  refine .inr (.inr ⟨content.drop (cut + 1), ?_⟩)
  rw [append_assoc, singleton_append, ← split_at_newline h]

/-- The whole content is within the limit when it has few enough bytes. -/
theorem respectsBudget_noTruncResult (totalLines totalBytes : ℕ)
    (hle : byteLength content ≤ options.bytes + 1) :
    RespectsBudget toLocaleString formatBytes content options
      (noTruncResult content totalLines totalBytes) := by
  constructor
  · intro hmiddle
    exact absurd hmiddle (by simp [noTruncResult])
  · intro _
    exact ⟨hle, content, [], by simp [noTruncResult], .inr (Or.inl rfl), nil_suffix⟩

/-- The tail alone is within the limit. -/
theorem respectsBudget_tail (hwell : isWellFormed content) (hsplits : options.Splits)
    (hover : ¬ Within content options.lines options.bytes) :
    RespectsBudget toLocaleString formatBytes content options (options.tailOf content) := by
  have htailBytes : options.tailBytes ≤ options.bytes := Nat.sub_le _ _
  rcases tailOf_spec hsplits hover hwell with ⟨newline, htail⟩ | htail
  · have hfits := htail.fits.2
    have hcontent := htail.content_eq
    refine ⟨fun hmiddle ↦ absurd hmiddle htail.unmarked, fun _ ↦ ⟨by rw [hcontent]; omega, ?_⟩⟩
    exact ⟨[], content.drop (newline + 1), hcontent, Or.inl rfl, drop_suffix _ _⟩
  · have hfits := htail.fits
    refine ⟨fun hmiddle ↦ absurd hmiddle htail.unmarked, fun _ ↦ ⟨by omega, ?_⟩⟩
    exact ⟨[], _, rfl, Or.inl rfl, htail.suffix⟩

/-- Joined windows are within the limits, when the tail lies behind the head. -/
theorem respectsBudget_of_apart (hsplits : options.Splits) (h : Usable content options)
    (hhead : head = options.headOf content)
    (htail : tail = options.tailOf content)
    (hcut : HeadCut content options.headLines options.headBytes cut head)
    (hsuffix : tail.content <:+ content.drop (cut + 1)) (hfits : byteLength tail.content ≤ options.tailBytes)
    (hlines : outputLineCount tail = countNewlines tail.content + 1)
    (hbytes : outputByteCount tail = byteLength tail.content)
    (hapart : outputLineCount head + outputLineCount tail < countNewlines content + 1) :
    RespectsBudget toLocaleString formatBytes content options
      (truncateMiddle toLocaleString formatBytes content options) := by
  obtain ⟨res, hres⟩ : ∃ res, res = truncateMiddle toLocaleString formatBytes content options :=
    ⟨_, rfl⟩
  obtain ⟨hreason, helidedLines, helidedBytes, hcontent⟩ :=
    truncateMiddle_of_apart hsplits h hhead htail hapart rfl rfl hres
  rw [← hres]
  have htotal := (totals_at hcut.fits.1).2
  have hmore := byteLength_le_of_suffix hsuffix
  have hheadFits := hcut.fits.2.2
  have hbudget : options.headBytes + options.tailBytes = options.bytes :=
    Nat.add_sub_cancel' hsplits.headBytes_lt.le
  have hheadBytes := hcut.bytes_eq
  have hheadLines := hcut.lines_eq
  rw [← hcut.content_eq] at hheadFits hheadBytes hheadLines htotal
  refine ⟨fun _ ↦ ⟨head.content, tail.content, _, _, helidedLines, helidedBytes, hcontent, ?_, ?_, ?_, ?_, ?_⟩,
    fun hplain ↦ absurd hreason hplain⟩
  · rw [hcut.content_eq]
    exact IsWholeLines.of_cut hcut.fits.1
  · exact hsuffix.trans (drop_suffix _ _)
  · rw [hcontent, byteLength_append_newline, byteLength_append_newline]
    omega
  · omega
  · omega

/-- Windows as the two scans return them. -/
theorem usable_of_cuts (hover : ¬ Within content options.lines options.bytes)
    (hcut : HeadCut content options.headLines options.headBytes cut (options.headOf content))
    (htail : (∃ newline, TailCut content options.tailLines options.tailBytes newline
        (options.tailOf content)) ∨
      TailPart content options.tailBytes (options.tailOf content)) :
    Usable content options where
  exceeds := hover
  head_pos := by
    rw [hcut.lines_eq]
    exact Nat.succ_pos _
  head_fits := hcut.usable
  head_whole := hcut.whole
  tail_pos := by
    rcases htail with ⟨newline, hnl⟩ | hpart
    · rw [hnl.lines_eq]
      exact Nat.succ_pos _
    · rw [hpart.lines_eq]
      exact Nat.one_pos
  tail_part hpartial := by
    rcases htail with ⟨newline, hnl⟩ | hpart
    · rw [hnl.whole] at hpartial
      contradiction
    · exact hpart.lines_eq

theorem countNewlines_of_last {front last : JsString} (hcontent : content = front ++ newlineUnit :: last)
    (hlast : newlineUnit ∉ last) : countNewlines content = countNewlines front + 1 := by
  rw [hcontent, countNewlines_append_newline, countNewlines_eq_zero_iff.mpr hlast]

/-- A head that ends right before the last line holds all other lines. -/
theorem longLastLine_of_part (hcut : HeadCut content options.headLines options.headBytes cut head)
    (hexceeds : LastLineExceeds content options.tailBytes)
    (hcovers : countNewlines content + 1 ≤ outputLineCount head + 1)
    (hlong : options.bytes + 1 < byteLength content) : LongLastLine content options := by
  rcases hexceeds with hnone | ⟨front, last, hcontent, hlast, hbytes⟩
  · exact absurd (mem_of_getElem? hcut.fits.1) hnone
  · refine ⟨front, last, hcontent, hlast, ?_, hbytes, hlong⟩
    have hlines := hcut.lines_eq
    have htotal := countNewlines_of_last hcontent hlast
    have hfront : content.take front.length = front := by rw [hcontent, take_left]
    -- a cut inside the front would leave out one of its newlines
    have hle : front.length ≤ cut := by
      by_contra hlt
      have hsub := (take_prefix_take_left (l := content) (Nat.lt_of_not_le hlt)).sublist.count_le newlineUnit
      rw [hfront, take_add_one, hcut.fits.1, count_append, Option.toList, count_singleton_self] at hsub
      unfold countNewlines at *
      omega
    have hmono := byteLength_take_mono content hle
    rw [hfront] at hmono
    have hfits := hcut.fits.2
    exact ⟨by have := hfits.1; omega, hmono.trans hfits.2⟩

/-- When only the last line is left out and it is too long, the whole content comes back. -/
theorem truncateMiddle_of_longLastLine (hwell : isWellFormed content) (hsplits : options.Splits)
    (h : LongLastLine content options) :
    truncateMiddle toLocaleString formatBytes content options =
      noTruncResult content (countNewlines content + 1) (byteLength content) := by
  obtain ⟨front, last, hcontent, hlast, hfront, hbytes, hlong⟩ := h
  have hover : ¬ Within content options.lines options.bytes := fun hwithin ↦ absurd hwithin.2 (by omega)
  have hpart : TailPart content options.tailBytes (options.tailOf content) := by
    rcases tailOf_spec hsplits hover hwell with ⟨newline, htail⟩ | htail
    · have hsuffix : last <:+ content := ⟨front ++ [newlineUnit], by rw [hcontent]; simp⟩
      have hkept := byteLength_le_of_suffix (suffix_drop_of_notMem htail.newline_at hsuffix hlast)
      have hle := htail.fits.2
      omega
    · exact htail
  have htake : content.take front.length = front := by rw [hcontent, take_left]
  have hfits : HeadFits content options.headLines options.headBytes front.length := by
    constructor
    · rw [hcontent, getElem?_append_right le_rfl, Nat.sub_self, getElem?_cons_zero]
    · rw [htake]
      exact hfront
  rcases truncateHead_spec (not_within_head hsplits hover) with ⟨-, hnone⟩ | ⟨cut, hcut⟩
  · exact absurd hfits (hnone front.length)
  · have hmore : countNewlines front ≤ countNewlines (content.take cut) := by
      have hsub := take_prefix_take_left (l := content) (hcut.greatest front.length hfits)
      rw [htake] at hsub
      exact hsub.sublist.count_le newlineUnit
    have htotal := countNewlines_of_last hcontent hlast
    apply truncateMiddle_of_covers hsplits (usable_of_cuts hover hcut (.inr hpart))
    rw [hcut.lines_eq, hpart.lines_eq]
    omega

/-- Middle truncation respects its byte budget exactly when the last line is not the only one left out
and too long. -/
theorem truncateMiddle_respectsBudget_iff (toLocaleString formatBytes : ℕ → JsString) (content : JsString)
    (options : TruncationOptions) (hwell : isWellFormed content = true) (hsplits : options.Splits) :
    RespectsBudget toLocaleString formatBytes content options
        (truncateMiddle toLocaleString formatBytes content options) ↔
      ¬ LongLastLine content options := by
  constructor
  · intro hrespects hlast
    rw [truncateMiddle_of_longLastLine hwell hsplits hlast] at hrespects
    have hplain := hrespects.2 (by simp [noTruncResult])
    obtain ⟨front, last, -, -, -, -, hlong⟩ := hlast
    exact absurd hplain.1 (Nat.not_le_of_lt hlong)
  · intro hnot
    by_cases hwithin : Within content options.lines options.bytes
    · have hwindows : truncateMiddleWindows content options =
          fullReadWindow content (countNewlines content + 1) (byteLength content) .disjoint :=
        if_pos ⟨hwithin.2, hwithin.1⟩
      rw [truncateMiddle, hwindows]
      exact respectsBudget_noTruncResult _ _ (hwithin.2.trans (Nat.le_succ _))
    rcases truncateHead_spec (not_within_head hsplits hwithin) with ⟨hnone, -⟩ | ⟨cut, hcut⟩
    · rw [truncateMiddle_of_no_head hsplits hwithin hnone]
      exact respectsBudget_tail hwell hsplits hwithin
    have htail := tailOf_spec hsplits hwithin hwell
    have husable := usable_of_cuts hwithin hcut htail
    rcases Nat.lt_or_ge (outputLineCount (options.headOf content) +
      outputLineCount (options.tailOf content)) (countNewlines content + 1) with hapart | hcovers
    · rcases htail with ⟨newline, hnewline⟩ | hpart
      · have hbehind : ¬ newline ≤ cut :=
          fun hle ↦ absurd ((covers_iff hcut hnewline).mpr hle) (Nat.not_le_of_lt hapart)
        apply respectsBudget_of_apart hsplits husable rfl rfl hcut _ _ _ _ hapart
        · rw [hnewline.content_eq]
          exact drop_suffix_drop_left content (by omega)
        · rw [hnewline.content_eq]
          exact hnewline.fits.2
        · rw [hnewline.content_eq, hnewline.lines_eq]
        · rw [hnewline.content_eq, hnewline.bytes_eq]
      · have hsuffix := suffix_drop_of_notMem hcut.fits.1 hpart.suffix hpart.noNewline
        apply respectsBudget_of_apart hsplits husable rfl rfl hcut hsuffix hpart.fits _ hpart.bytes_eq hapart
        rw [hpart.lines_eq, countNewlines_eq_zero_iff.mpr hpart.noNewline]
    · rw [truncateMiddle_of_covers hsplits husable hcovers]
      apply respectsBudget_noTruncResult
      rcases htail with ⟨newline, hnewline⟩ | hpart
      · have hle := (covers_iff hcut hnewline).mp hcovers
        have htotal := (totals_at hcut.fits.1).2
        have hmore := byteLength_le_of_suffix (drop_suffix_drop_left content (Nat.add_le_add_right hle 1))
        have hheadBytes := hcut.fits.2.2
        have htailBytes := hnewline.fits.2
        have hbudget : options.headBytes + options.tailBytes = options.bytes :=
          Nat.add_sub_cancel' hsplits.headBytes_lt.le
        omega
      · by_contra hlong
        rw [hpart.lines_eq] at hcovers
        exact hnot (longLastLine_of_part hcut hpart.exceeds hcovers (by omega))

/-- Four bytes and four lines, half of both for the head. -/
def smallOptions : TruncationOptions := ⟨some 4, some 4, some 2, some 2⟩

theorem splits_smallOptions : smallOptions.Splits := ⟨by decide, by decide, by decide, by decide⟩

/-- Five lines of one letter. -/
theorem truncateMiddle_respectsBudget_short_lines :
    isWellFormed (utf16 "a\nb\nc\nd\ne") = true ∧ smallOptions.Splits ∧
      RespectsBudget (fun _ ↦ []) (fun _ ↦ []) (utf16 "a\nb\nc\nd\ne") smallOptions
        (truncateMiddle (fun _ ↦ []) (fun _ ↦ []) (utf16 "a\nb\nc\nd\ne") smallOptions) := by
  have hwell : isWellFormed (utf16 "a\nb\nc\nd\ne") = true := by decide
  refine ⟨hwell, splits_smallOptions, ?_⟩
  apply (truncateMiddle_respectsBudget_iff _ _ _ _ hwell splits_smallOptions).mpr
  rintro ⟨front, last, hcontent, hlast, -, hbytes, -⟩
  have hsuffix : last <:+ utf16 "a\nb\nc\nd\ne" := ⟨front ++ [newlineUnit], by rw [hcontent]; simp⟩
  have hshort : last <:+ (utf16 "a\nb\nc\nd\ne").drop (7 + 1) :=
    suffix_drop_of_notMem (by decide) hsuffix hlast
  have hle := byteLength_le_of_suffix hshort
  have hone : byteLength ((utf16 "a\nb\nc\nd\ne").drop (7 + 1)) = 1 := by decide
  have htwo : smallOptions.tailBytes = 2 := rfl
  omega

/-- A last line of four bytes behind a first line that fits: all six bytes come back. -/
theorem truncateMiddle_exceeds_on_long_last_line :
    isWellFormed (utf16 "a\nxxxx") = true ∧ smallOptions.Splits ∧
      truncateMiddle (fun _ ↦ []) (fun _ ↦ []) (utf16 "a\nxxxx") smallOptions =
        noTruncResult (utf16 "a\nxxxx") 2 6 ∧
      ¬ RespectsBudget (fun _ ↦ []) (fun _ ↦ []) (utf16 "a\nxxxx") smallOptions
        (truncateMiddle (fun _ ↦ []) (fun _ ↦ []) (utf16 "a\nxxxx") smallOptions) := by
  have hwhole : truncateMiddle (fun _ ↦ []) (fun _ ↦ []) (utf16 "a\nxxxx") smallOptions =
      noTruncResult (utf16 "a\nxxxx") 2 6 := by decide
  refine ⟨by decide, splits_smallOptions, hwhole, fun hrespects ↦ ?_⟩
  have hle := (hrespects.2 (by decide)).1
  exact absurd hle (by decide)

end

end GajaeCode.Session
