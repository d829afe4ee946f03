import GajaeCode.Session.TruncationBudget

/-!
# One-sided truncation

Among the runs of whole lines at one end of the content, `truncateHead` and `truncateTail` keep the
longest that is within both limits. When the line at that end is itself over the byte limit, the head
is empty and the tail keeps as much of the line as fits.
-/

namespace GajaeCode.Session

open Text List

/-- The text is the first lines of the content, without the newline behind them. -/
def IsLinePrefix (content text : JsString) : Prop :=
  text = content ∨ ∃ rest, content = text ++ newlineUnit :: rest

def IsLineSuffix (content text : JsString) : Prop :=
  text = content ∨ ∃ front, content = front ++ newlineUnit :: text

structure IsLongestLines (isPart : JsString → Prop) (maxLines maxBytes : ℕ) (text : JsString) :
    Prop where
  part : isPart text
  fits : Within text maxLines maxBytes
  greatest : ∀ other, isPart other → Within other maxLines maxBytes → other.length ≤ text.length

structure HeadExact (content : JsString) (maxLines maxBytes : ℕ) (result : TruncationResult) :
    Prop where
  exceeds : result.firstLineExceedsLimit = true ↔ maxBytes < byteLength (lineFrom content 0)
  empty : result.firstLineExceedsLimit = true → result.content = []
  longest : result.firstLineExceedsLimit = false →
    IsLongestLines (IsLinePrefix content) maxLines maxBytes result.content
  unchanged : Within content maxLines maxBytes → result.content = content
  lines : result.truncated = true → result.outputLines =
    some (if result.firstLineExceedsLimit then 0 else countNewlines result.content + 1)
  bytes : result.truncated = true → result.outputBytes = some (byteLength result.content)

structure TailExact (content : JsString) (maxLines maxBytes : ℕ) (result : TruncationResult) :
    Prop where
  exceeded : maxBytes < byteLength (lastSourceLine content) →
    IsLongestEnd (lastSourceLine content) maxBytes result.content
  longest : byteLength (lastSourceLine content) ≤ maxBytes →
    IsLongestLines (IsLineSuffix content) maxLines maxBytes result.content
  unchanged : Within content maxLines maxBytes → result.content = content
  lines : result.truncated = true → result.outputLines = some (countNewlines result.content + 1)
  bytes : result.truncated = true → result.outputBytes = some (byteLength result.content)

variable {content : JsString} {maxLines maxBytes : ℕ}

/-- Unless the content is within the limits, a first line that fits ends at a newline. -/
theorem headFits_lineFrom (hover : ¬ Within content maxLines maxBytes) (hlines : 0 < maxLines)
    (hfits : byteLength (lineFrom content 0) ≤ maxBytes) :
    HeadFits content maxLines maxBytes (lineFrom content 0).length := by
  have htake := take_drop_lineFrom content 0
  rw [drop_zero, Nat.zero_add] at htake
  have hnone := countNewlines_eq_zero_iff.mpr (newlineUnit_notMem_lineFrom content 0)
  have hwithin : Within (lineFrom content 0) maxLines maxBytes := ⟨by omega, hfits⟩
  refine ⟨?_, htake.symm ▸ hwithin⟩
  rw [← Nat.zero_add (lineFrom content 0).length]
  refine newline_behind_lineFrom (Nat.zero_le _) fun hend ↦ hover ?_
  rw [← Nat.zero_add (lineFrom content 0).length, hend, take_length] at htake
  rwa [htake]

theorem exceeds_scanHead_iff (hover : ¬ Within content maxLines maxBytes) (hlines : 0 < maxLines) :
    (scanHead content maxBytes maxLines 0 0 0 0).exceeds ↔
      maxBytes < byteLength (lineFrom content 0) := by
  constructor
  · intro hexceeds
    by_contra hfits
    have hstop := headStop_scanHead hover
    have hpos := (hstop.greatest _ (headFits_lineFrom hover hlines (Nat.not_lt.mp hfits))).1
    rw [(hstop.cut hpos).1] at hexceeds
    cases hexceeds
  · intro hlong
    obtain ⟨rounds, rfl⟩ := Nat.exists_eq_succ_of_ne_zero hlines.ne'
    have hnone : separatorBytes 0 = 0 := rfl
    rw [scanHead, hnone, if_neg (Nat.not_lt_zero _)]
    split_ifs
    · rfl
    · rfl
    · omega
    · omega

theorem truncateHead_exact (hlines : 0 < maxLines) :
    HeadExact content maxLines maxBytes (truncateHead content maxLines maxBytes) := by
  by_cases hover : Within content maxLines maxBytes
  · have hsplit : lineFrom content 0 ++ content.dropWhile (· ≠ newlineUnit) = content :=
      takeWhile_append_dropWhile
    have hshort := (hsplit ▸ (byteLength_le_append (lineFrom content 0) _).1).trans hover.2
    have hres : truncateHead content maxLines maxBytes = _ := if_pos hover
    rw [hres]
    refine ⟨⟨by rintro ⟨⟩, fun hlong ↦ absurd hlong (by omega)⟩, by rintro ⟨⟩, fun _ ↦ ⟨Or.inl rfl, hover, ?_⟩,
      fun _ ↦ rfl, by rintro ⟨⟩, by rintro ⟨⟩⟩
    rintro other (rfl | ⟨rest, rfl⟩) -
    · exact le_rfl
    · exact (prefix_append _ _).length_le
  · have hexceeds := exceeds_scanHead_iff hover hlines
    have hstop := headStop_scanHead hover
    have hres : truncateHead content maxLines maxBytes = _ := if_neg hover
    rw [hres]
    generalize scanHead content maxBytes maxLines 0 0 0 0 = scan at hexceeds hstop
    cases hscan : scan.exceeds with
    | true =>
      rw [hscan] at hexceeds
      exact ⟨hexceeds, fun _ ↦ rfl, by rintro ⟨⟩, fun hwithin ↦ absurd hwithin hover, fun _ ↦ rfl, fun _ ↦ rfl⟩
    | false =>
      have hfits : byteLength (lineFrom content 0) ≤ maxBytes := by
        by_contra hlong
        rw [hexceeds.mpr (Nat.lt_of_not_le hlong)] at hscan
        cases hscan
      have hpos := (hstop.greatest _ (headFits_lineFrom hover hlines hfits)).1
      obtain ⟨-, ⟨hnl, hwithin⟩, hcount, hbytes⟩ := hstop.cut hpos
      rw [hscan] at hexceeds
      refine ⟨hexceeds, by rintro ⟨⟩, fun _ ↦ ⟨.inr ⟨_, split_at_newline hnl⟩, hwithin, ?_⟩,
        fun hwithin ↦ absurd hwithin hover, fun _ ↦ congrArg some hcount.symm,
        fun _ ↦ congrArg some hbytes.symm⟩
      rintro other (rfl | ⟨rest, rfl⟩) hother
      · exact absurd hother hover
      · have hle := (hstop.greatest other.length ⟨by simp, by rwa [take_left]⟩).2
        simp only [Bool.false_eq_true, if_false, length_take, length_append, length_cons]
        omega

theorem truncateTail_exact (hwell : isWellFormed content) (hlines : 0 < maxLines) :
    TailExact content maxLines maxBytes (truncateTail content maxLines maxBytes) := by
  by_cases hover : Within content maxLines maxBytes
  · have hshort := byteLength_le_of_suffix (drop_suffix _ content : lastSourceLine content <:+ content)
    have hres : truncateTail content maxLines maxBytes = _ := if_pos hover
    rw [hres]
    refine ⟨fun hlong ↦ absurd (hshort.trans hover.2) (Nat.not_le.mpr hlong),
      fun _ ↦ ⟨Or.inl rfl, hover, ?_⟩, fun _ ↦ rfl, by rintro ⟨⟩, by rintro ⟨⟩⟩
    rintro other (rfl | ⟨front, rfl⟩) -
    · exact le_rfl
    · exact (suffix_append_of_suffix (suffix_cons _ _)).length_le
  · have hres : truncateTail content maxLines maxBytes = _ := if_neg hover
    rw [hres]
    generalize heq : scanTail content maxBytes maxLines content.length 0 0 content.length = scan
    have hscan := scanTail_spec hwell hover hlines (.inl ⟨rfl, rfl, rfl⟩) (Nat.zero_add _)
      (Nat.zero_le _) heq
    cases scan with
    | partialLine =>
      obtain ⟨⟨-, hnone, hbytes, -⟩, hlong, hlongest⟩ := hscan
      exact ⟨fun _ ↦ hlongest, fun hfits ↦ absurd hfits (Nat.not_le.mpr hlong),
        fun hwithin ↦ absurd hwithin hover,
        fun _ ↦ by rw [countNewlines_eq_zero_iff.mpr hnone], fun _ ↦ congrArg some hbytes⟩
    | whole =>
      obtain ⟨⟨-, nl, rfl, hnl, hwithin, rfl, rfl⟩, hgreatest⟩ := hscan
      have hlt := (List.getElem?_eq_some_iff.mp hnl).1
      have hfits := byteLength_le_of_suffix
        (drop_suffix_drop_left content (newline_lt_lineStartOf hnl hlt))
      refine ⟨fun hlong ↦ absurd (hfits.trans hwithin.2) (Nat.not_le.mpr hlong),
        fun _ ↦ ⟨.inr ⟨_, split_at_newline hnl⟩, hwithin, ?_⟩,
        fun hwithin ↦ absurd hwithin hover, fun _ ↦ rfl, fun _ ↦ rfl⟩
      rintro other (rfl | ⟨front, rfl⟩) hother
      · exact absurd hother hover
      · have hle := hgreatest front.length (by simp) (by simpa using hother)
        simp only [length_drop, length_append, length_cons]
        omega

/-- Both truncations keep the most that fits and count it exactly. -/
theorem oneSidedTruncation_exact (content : JsString) (maxLines maxBytes : ℕ)
    (hwell : isWellFormed content = true) (hlines : 0 < maxLines) :
    HeadExact content maxLines maxBytes (truncateHead content maxLines maxBytes) ∧
      TailExact content maxLines maxBytes (truncateTail content maxLines maxBytes) :=
  ⟨truncateHead_exact hlines, truncateTail_exact hwell hlines⟩

theorem oneSidedTruncation_exact_long_line :
    HeadExact (utf16 "ab\ncdef") 5 3 (truncateHead (utf16 "ab\ncdef") 5 3) ∧
      TailExact (utf16 "ab\ncdef") 5 3 (truncateTail (utf16 "ab\ncdef") 5 3) :=
  oneSidedTruncation_exact _ 5 3 (by decide) (by decide)

end GajaeCode.Session
