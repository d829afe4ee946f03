import GajaeCode.Text.Utf16

/-!
# The fence around a summarised excerpt

A conversation excerpt enters the summary prompt between an opening and a closing fence. Before it is
framed every closing tag of the prompt's wrappers is broken with a zero-width space, so that the text
cannot close the fence itself.
-/

namespace GajaeCode.Compaction

open Text List

/-! ## Replacing matches from left to right -/

section

variable {α : Type*} {matcher : List α → Option ℕ} {repl : List α}

/-- Replaces every match, where a match is given by its length; the first `skip` symbols belong to a
match already replaced. -/
def replaceMatches (matcher : List α → Option ℕ) (replacement : List α) : ℕ → List α → List α
  | _, [] => []
  | skip + 1, _ :: rest => replaceMatches matcher replacement skip rest
  | 0, symbol :: rest =>
    match matcher (symbol :: rest) with
    | some length => replacement ++ replaceMatches matcher replacement (length - 1) rest
    | none => symbol :: replaceMatches matcher replacement 0 rest

variable {opener other : α} {word tail : List α}

/-- Text in front of the next opener is copied, not made. -/
theorem isPrefix_of_isPrefix_replaceMatches (hrepl : repl = opener :: tail)
    (hword : opener ∉ word) {text : List α}
    (h : word <+: replaceMatches matcher repl 0 text) : word <+: text := by
  induction text generalizing word with
  | nil => exact h
  | cons symbol rest ih =>
    cases word with
    | nil => exact nil_prefix
    | cons =>
      obtain ⟨hfirst, hword⟩ := ne_and_not_mem_of_not_mem_cons hword
      rw [replaceMatches] at h
      split at h
      · rw [hrepl, cons_append, cons_prefix_cons] at h
        exact absurd h.1.symm hfirst
      · rw [cons_prefix_cons] at h
        exact cons_prefix_cons.mpr ⟨h.1, ih hword h.2⟩

theorem isInfix_of_append {front back : List α} (hfront : opener ∉ front)
    (h : opener :: word <:+: front ++ back) : opener :: word <:+: back := by
  induction front with
  | nil => exact h
  | cons symbol front ih =>
    obtain ⟨hsymbol, hfront⟩ := ne_and_not_mem_of_not_mem_cons hfront
    rcases infix_cons_iff.mp h with hhere | hthere
    · exact absurd (cons_prefix_cons.mp hhere).1 hsymbol
    · exact ih hfront hthere

theorem isInfix_of_append_right {front back : List α} (hback : opener ∉ back)
    (h : word ++ [opener] <:+: front ++ back) : word ++ [opener] <:+: front := by
  have hreverse : (word ++ [opener]).reverse <:+: (front ++ back).reverse := reverse_infix.mpr h
  rw [reverse_concat, reverse_append] at hreverse
  have hfront := isInfix_of_append (mt mem_reverse.mp hback) hreverse
  rwa [← reverse_concat, reverse_infix] at hfront

/-- The last opener of a text and what stands behind it are determined. -/
theorem eq_of_append_cons_eq {front left right : List α} (hword : opener ∉ word)
    (hright : opener ∉ right) (h : left ++ opener :: right = front ++ opener :: word) :
    left = front ∧ right = word := by
  rcases append_eq_append_iff.mp h with ⟨_ | ⟨first, more⟩, hfront, hmore⟩ |
    ⟨_ | ⟨first, more⟩, hfront, hmore⟩
  · exact ⟨(hfront.trans (append_nil _)).symm, (cons.inj hmore).2⟩
  · rw [(cons.inj hmore).2] at hright
    exact absurd (mem_append_right _ mem_cons_self) hright
  · exact ⟨hfront.trans (append_nil _), (cons.inj hmore).2.symm⟩
  · rw [(cons.inj hmore).2] at hword
    exact absurd (mem_append_right _ mem_cons_self) hword

variable (hrepl : repl = opener :: other :: tail) (htail : opener ∉ other :: tail)
  {second : α} (hsecond : second ≠ other) (hword : opener ∉ second :: word)

include hrepl htail hsecond hword

/-- What occurs after the replacement and starts like a match occurred before it, at a place where
nothing matched. -/
theorem exists_of_isInfix_replaceMatches {text : List α} {skip : ℕ}
    (h : opener :: second :: word <:+: replaceMatches matcher repl skip text) :
    ∃ rest, opener :: second :: word <+: rest ∧ rest <:+ text ∧ matcher rest = none := by
  induction text generalizing skip with
  | nil =>
    have hnil := infix_nil.mp (by simpa only [replaceMatches] using h)
    exact absurd hnil (cons_ne_nil _ _)
  | cons symbol rest ih =>
    have hlater : ∀ {skip}, opener :: second :: word <:+: replaceMatches matcher repl skip rest →
        ∃ suffix, opener :: second :: word <+: suffix ∧ suffix <:+ symbol :: rest ∧
          matcher suffix = none := by
      intro skip h
      obtain ⟨suffix, hhere, hsuffix, hnone⟩ := ih h
      exact ⟨suffix, hhere, hsuffix.trans (suffix_cons symbol rest), hnone⟩
    cases skip with
    | succ => exact hlater h
    | zero =>
      rw [replaceMatches] at h
      split at h
      · subst hrepl
        rcases infix_cons_iff.mp h with hhere | hthere
        · exact absurd (cons_prefix_cons.mp (cons_prefix_cons.mp hhere).2).1 hsecond
        · exact hlater (isInfix_of_append htail hthere)
      · rename_i hnone
        rcases infix_cons_iff.mp h with hhere | hthere
        · rw [cons_prefix_cons] at hhere
          refine ⟨symbol :: rest, ?_, suffix_rfl, hnone⟩
          rw [cons_prefix_cons]
          exact ⟨hhere.1, isPrefix_of_isPrefix_replaceMatches hrepl hword hhere.2⟩
        · exact hlater hthere

end

/-! ## Closing tags -/

def lessUnit : UInt16 := 0x3C

def slashUnit : UInt16 := 0x2F

def greaterUnit : UInt16 := 0x3E

/-- U+200B, which breaks a tag without showing. -/
def zeroWidthSpaceUnit : UInt16 := 0x200B

/-- The class `[ \t\n\r\f]`. -/
def isTagBlank (unit : UInt16) : Bool := unit ∈ [0x20, 0x09, 0x0A, 0x0D, 0x0C]

/-- The flag `i` lets an ASCII letter match in either case and no other unit match a letter. -/
def foldCase (unit : UInt16) : UInt16 := if 0x41 ≤ unit ∧ unit ≤ 0x5A then unit + 0x20 else unit

/-- The pattern `<\/name>`, or `<\/name[ \t\n\r\f]+>` when `spaced`, at the front of a text. -/
def closerLength (name : JsString) (spaced : Bool) (text : JsString) : Option ℕ :=
  let bare := name.length + 2
  let blanks := (text.drop bare).takeWhile isTagBlank
  if (text.take bare).map foldCase = lessUnit :: slashUnit :: name ∧ blanks.isEmpty = !spaced ∧
      (text.drop (bare + blanks.length)).head? = some greaterUnit then
    some (bare + blanks.length + 1)
  else none

def brokenCloser (name : JsString) : JsString :=
  lessUnit :: zeroWidthSpaceUnit :: slashUnit :: name ++ [greaterUnit]

def replaceClosers (text : JsString) (pass : JsString × Bool) : JsString :=
  replaceMatches (closerLength pass.1 pass.2) (brokenCloser pass.1) 0 text

def fenceName : JsString := utf16 "untrusted-content"

/-- The tags that wrap parts of the summary prompt. -/
def wrapperNames : List JsString :=
  [fenceName, utf16 "conversation", utf16 "previous-summary", utf16 "summary"]

def escapeSummaryFenceClosers (text : JsString) : JsString :=
  (wrapperNames.flatMap fun name ↦ [(name, false), (name, true)]).foldl replaceClosers text

def summaryFenceOpen : JsString := utf16 "<untrusted-content>\n"

def summaryFenceClose : JsString := utf16 "\n</untrusted-content>"

def frameSummaryConversationAfterClip (excerpt : JsString) : JsString :=
  summaryFenceOpen ++ escapeSummaryFenceClosers excerpt ++ summaryFenceClose

/-- A closing tag in every case and spacing that the patterns recognise. -/
def IsCloser (name closer : JsString) : Prop :=
  ∃ letters blanks : JsString, closer = lessUnit :: slashUnit :: letters ++ blanks ++ [greaterUnit] ∧
    letters.map foldCase = name ∧ ∀ unit ∈ blanks, isTagBlank unit = true

variable {name closer text : JsString}

theorem closerLength_of_isCloser (h : IsCloser name closer) :
    ∃ spaced, ∀ rest, closer <+: rest → closerLength name spaced rest ≠ none := by
  obtain ⟨letters, blanks, rfl, hletters, hblanks⟩ := h
  refine ⟨!blanks.isEmpty, ?_⟩
  rintro _ ⟨back, rfl⟩
  have hlen : name.length = letters.length := by rw [← hletters, length_map]
  have hspan : (blanks ++ greaterUnit :: back).takeWhile isTagBlank = blanks := by
    rw [takeWhile_append_of_pos hblanks, takeWhile_cons_of_neg (by decide), append_nil]
  have hdrop : (letters ++ (blanks ++ greaterUnit :: back)).drop (letters.length + blanks.length) =
      greaterUnit :: back := by
    rw [← append_assoc, ← length_append, drop_left]
  simp [closerLength, hlen, hspan, hletters, foldCase, Nat.add_right_comm _ 2, hdrop, lessUnit,
    slashUnit]

/-- A closing tag opens once, with a slash behind the bracket, and ends with a bracket. -/
theorem IsCloser.eq_cons (h : IsCloser name closer) (hname : lessUnit ∉ name) :
    ∃ word, closer = lessUnit :: slashUnit :: word ++ [greaterUnit] ∧
      lessUnit ∉ slashUnit :: word ++ [greaterUnit] := by
  obtain ⟨letters, blanks, rfl, rfl, hblanks⟩ := h
  have hletters : lessUnit ∉ letters := fun hmem ↦ hname (mem_map.mpr ⟨_, hmem, rfl⟩)
  have hblank : lessUnit ∉ blanks := fun hmem ↦ absurd (hblanks _ hmem) (by decide)
  refine ⟨letters ++ blanks, rfl, ?_⟩
  simp only [mem_cons, mem_append, hletters, hblank, not_mem_nil]
  decide

/-- A closing tag behind the passes was there before them, and no pass recognised it. -/
theorem of_isInfix_foldl {passes : List (JsString × Bool)}
    (hpasses : ∀ pass ∈ passes, lessUnit ∉ pass.1) (hcloser : IsCloser name closer)
    (hname : lessUnit ∉ name) (h : closer <:+: passes.foldl replaceClosers text) :
    closer <:+: text ∧
      ∀ pass ∈ passes, ∃ rest, closer <+: rest ∧ closerLength pass.1 pass.2 rest = none := by
  obtain ⟨word, rfl, hword⟩ := hcloser.eq_cons hname
  induction passes generalizing text with
  | nil => exact ⟨h, forall_mem_nil _⟩
  | cons pass passes ih =>
    obtain ⟨hafter, hlater⟩ := ih (fun other hother ↦ hpasses other (mem_cons_of_mem _ hother)) h
    have htail : lessUnit ∉ zeroWidthSpaceUnit :: (slashUnit :: pass.1 ++ [greaterUnit]) := by
      simp only [mem_cons, mem_append, hpasses pass mem_cons_self, not_mem_nil]
      decide
    obtain ⟨rest, hrest, hsuffix, hnone⟩ :=
      exists_of_isInfix_replaceMatches rfl htail (by decide) hword hafter
    refine ⟨hrest.isInfix.trans hsuffix.isInfix, fun other hother ↦ ?_⟩
    rcases mem_cons.mp hother with rfl | hother
    · exact ⟨rest, hrest, hnone⟩
    · exact hlater other hother

theorem lessUnit_notMem_passes :
    ∀ pass ∈ wrapperNames.flatMap fun name ↦ [(name, false), (name, true)], lessUnit ∉ pass.1 := by
  decide

/-- No closing tag of a wrapper is left in an escaped text. -/
theorem not_isInfix_escape (hname : name ∈ wrapperNames) (hcloser : IsCloser name closer) :
    ¬ closer <:+: escapeSummaryFenceClosers text := by
  intro h
  obtain ⟨spaced, hmatch⟩ := closerLength_of_isCloser hcloser
  have hless : ∀ name ∈ wrapperNames, lessUnit ∉ name := by decide
  obtain ⟨-, hpass⟩ := of_isInfix_foldl lessUnit_notMem_passes hcloser (hless name hname) h
  have hmem : (name, spaced) ∈ wrapperNames.flatMap fun name ↦ [(name, false), (name, true)] :=
    mem_flatMap.mpr ⟨name, hname, by cases spaced <;> simp⟩
  obtain ⟨rest, hrest, hnone⟩ := hpass _ hmem
  exact hmatch rest hrest hnone

/-- The framed text without its last bracket holds no closing tag of the fence. -/
theorem not_isInfix_body (hcloser : IsCloser fenceName closer) :
    ¬ closer <:+: summaryFenceOpen ++ escapeSummaryFenceClosers text ++
      utf16 "\n</untrusted-content" := by
  intro h
  obtain ⟨word, hcons, -⟩ := hcloser.eq_cons (by decide)
  have hopened : closer <:+: summaryFenceOpen ++ escapeSummaryFenceClosers text := by
    rw [hcons] at h ⊢
    exact isInfix_of_append_right (by decide) h
  have hopen : summaryFenceOpen = lessUnit :: utf16 "untrusted-content>\n" := by decide
  rw [hopen, hcons] at hopened
  rcases infix_cons_iff.mp hopened with hhere | hthere
  · exact absurd (cons_prefix_cons.mp (cons_prefix_cons.mp hhere).2).1 (by decide)
  · apply not_isInfix_escape mem_cons_self hcloser
    rw [hcons]
    exact isInfix_of_append (by decide) hthere

/-- The fence of a framed excerpt is closed once, at its end; escaping leaves no closing tag of a
wrapper and makes none of any name. -/
theorem frame_closes_once (excerpt : JsString) : (∀ front closer back, IsCloser fenceName closer →
      (frameSummaryConversationAfterClip excerpt = front ++ closer ++ back ↔
        front = summaryFenceOpen ++ escapeSummaryFenceClosers excerpt ++ utf16 "\n" ∧
          closer = utf16 "</untrusted-content>" ∧ back = [])) ∧
      (∀ name ∈ wrapperNames, ∀ closer, IsCloser name closer →
        ¬ closer <:+: escapeSummaryFenceClosers excerpt) ∧
      ∀ name closer, lessUnit ∉ name → IsCloser name closer →
        closer <:+: escapeSummaryFenceClosers excerpt → closer <:+: excerpt := by
  refine ⟨fun front closer back hcloser ↦ ⟨fun h ↦ ?_, ?_⟩,
    fun name hname closer ↦ not_isInfix_escape hname,
    fun name closer hname hcloser h ↦ (of_isInfix_foldl lessUnit_notMem_passes hcloser hname h).1⟩
  · rcases eq_nil_or_concat' back with rfl | ⟨more, last, rfl⟩
    · obtain ⟨word, rfl, hword⟩ := hcloser.eq_cons (by decide)
      have honce : lessUnit ∉ utf16 "/untrusted-content>" := by decide
      have htag : (summaryFenceOpen ++ escapeSummaryFenceClosers excerpt ++ utf16 "\n") ++
          lessUnit :: utf16 "/untrusted-content>" =
            front ++ lessUnit :: (slashUnit :: word ++ [greaterUnit]) := by
        rw [append_nil] at h
        rw [append_assoc]
        exact h
      obtain ⟨hfront, hrest⟩ := eq_of_append_cons_eq hword honce htag
      exact ⟨hfront.symm, congrArg (lessUnit :: ·) hrest.symm, rfl⟩
    · have hbody : (summaryFenceOpen ++ escapeSummaryFenceClosers excerpt ++
          utf16 "\n</untrusted-content") ++ [greaterUnit] = (front ++ closer ++ more) ++ [last] := by
        rw [append_assoc, append_assoc _ more]
        exact h
      exact absurd ⟨front, more, (append_inj' hbody rfl).1.symm⟩ (not_isInfix_body hcloser)
  · rintro ⟨rfl, rfl, rfl⟩
    simp only [frameSummaryConversationAfterClip, append_assoc]
    rfl

end GajaeCode.Compaction
