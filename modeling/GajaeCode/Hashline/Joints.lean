import GajaeCode.Hashline.Blocks

/-!
# Joints of diffs

Joining diffs puts their lines behind each other. The blocks stay apart as long as a diff starts with
an operation, and the last payload of a diff stays as it is as long as the diff does not end with an
empty line, which the parser drops at the end of a text only, or with a carriage return, which belongs
to the separator as soon as a newline follows.
-/

namespace GajaeCode.Hashline

open Text List Function

variable {lines diffs : List JsString} {line : JsString} {shapes : List EditShape}

/-! ## Carriage returns -/

section

theorem takeWhile_concat (test : UInt16 → Bool) {unit : UInt16} (h : test unit = false) (text : JsString) :
    (text ++ [unit]).takeWhile test = text.takeWhile test := by
  induction text with
  | nil => simp [h]
  | cons first rest ih =>
    rw [cons_append, takeWhile_cons, takeWhile_cons, ih]

theorem dropWhile_concat (test : UInt16 → Bool) {unit : UInt16} (h : test unit = false) (text : JsString) :
    (text ++ [unit]).dropWhile test = text.dropWhile test ++ [unit] := by
  rw [dropWhile_append, dropWhile_cons_of_neg (by simp [h])]
  split_ifs with hnone
  · rw [isEmpty_iff.mp hnone, nil_append]
  · rfl

theorem all_isTrimmed_concat (text : JsString) :
    (text ++ [returnUnit]).all isTrimmed = text.all isTrimmed := by
  rw [all_append]
  have hreturn : [returnUnit].all isTrimmed := by decide
  rw [hreturn, Bool.and_true]

/-- Skipping blanks leaves the carriage return, unless there is nothing else. -/
theorem dropWhile_isTrimmed_concat (text : JsString) : (text ++ [returnUnit]).dropWhile isTrimmed =
      if text.dropWhile isTrimmed = [] then [] else text.dropWhile isTrimmed ++ [returnUnit] := by
  rw [dropWhile_append]
  exact if_congr isEmpty_iff rfl rfl

theorem captureBody_concat (text : JsString) : captureBody (text ++ [returnUnit]) = captureBody text := by
  have hdot : isDot returnUnit = false := by decide
  cases text with
  | nil => decide
  | cons first rest =>
    have hrest := dropWhile_concat isDot hdot rest
    have hbody := takeWhile_concat isDot hdot rest
    have hall := all_isTrimmed_concat (first :: rest)
    rw [cons_append] at hall
    simp only [cons_append, captureBody, hrest, all_isTrimmed_concat, hbody, hall]

section

variable (line : JsString)

theorem captureInsert_concat (opSigil : OpSigil) :
    captureInsert opSigil (line ++ [returnUnit]) = captureInsert opSigil line := by
  cases line with
  | nil => cases opSigil <;> decide
  | cons first rest =>
    have hstop : (fun unit ↦ unit ≠ bodySeparator && !isTrimmed unit) returnUnit = false := by decide
    have htext := dropWhile_isTrimmed_concat rest
    by_cases hempty : rest.dropWhile isTrimmed = []
    · rw [if_pos hempty] at htext
      simp [captureInsert, htext, hempty]
    · rw [if_neg hempty] at htext
      have htarget := takeWhile_concat (fun unit ↦ unit ≠ bodySeparator && !isTrimmed unit) hstop (rest.dropWhile isTrimmed)
      have hle := (List.takeWhile_prefix (l := rest.dropWhile isTrimmed)
        (fun unit ↦ unit ≠ bodySeparator && !isTrimmed unit)).length_le
      simp only [cons_append, captureInsert, htext, htarget, drop_append_of_le_length hle,
        captureBody_concat]

theorem captureReplace_concat : captureReplace (line ++ [returnUnit]) = captureReplace line := by
  cases line with
  | nil => decide
  | cons first rest =>
    have hstop : (!isTrimmed returnUnit) = false := by decide
    have hdot : isDot returnUnit = false := by decide
    have htext := dropWhile_isTrimmed_concat rest
    by_cases hempty : rest.dropWhile isTrimmed = []
    · rw [if_pos hempty] at htext
      simp [captureReplace, htext, hempty]
    · rw [if_neg hempty] at htext
      have hhead : (rest.dropWhile isTrimmed ++ [returnUnit]).head? = (rest.dropWhile isTrimmed).head? := by
        obtain ⟨unit, more, hcons⟩ := exists_cons_of_ne_nil hempty
        rw [hcons]
        rfl
      have hrun := takeWhile_concat (!isTrimmed ·) hstop (rest.dropWhile isTrimmed)
      have hle := (List.takeWhile_prefix (l := rest.dropWhile isTrimmed) (!isTrimmed ·)).length_le
      have hne : (rest.dropWhile isTrimmed ++ [returnUnit] = []) = False := by simp
      simp only [ne_eq, cons_append, captureReplace, htext, hrun, drop_append_of_le_length hle,
        all_isTrimmed_concat, dropWhile_concat isDot hdot, takeWhile_concat isDot hdot, hhead, hne, hempty]

variable {hashLine : ℕ → JsString → JsString}

theorem toOption_parseOpLine_concat (lineNum : ℕ) :
    (parseOpLine hashLine lineNum (line ++ [returnUnit])).toOption =
      (parseOpLine hashLine lineNum line).toOption := by
  unfold parseOpLine
  simp only [captureInsert_concat, captureReplace_concat]
  cases captureInsert .insertBefore line with
  | some => rfl
  | none =>
    cases captureInsert .insertAfter line with
    | some => rfl
    | none =>
      cases captureReplace line with
      | some => rfl
      | none =>
        split_ifs <;> simp only [toOption_error]

theorem dropReturn_cases : (line.getLast? ≠ some returnUnit ∧ dropReturn line = line) ∨
      ∃ body, line = body ++ [returnUnit] ∧ dropReturn line = body := by
  by_cases hlast : line.getLast? = some returnUnit
  · right
    obtain ⟨body, rfl⟩ := getLast?_eq_some_iff.mp hlast
    refine ⟨body, rfl, ?_⟩
    rw [dropReturn, if_pos hlast, dropLast_concat]
  · exact .inl ⟨hlast, if_neg hlast⟩

/-- What does not see a carriage return at the end does not see that it is dropped. -/
theorem eq_dropReturn {β : Type} {f : JsString → β} (h : ∀ body, f (body ++ [returnUnit]) = f body) :
    f (dropReturn line) = f line := by
  rcases dropReturn_cases line with ⟨-, hsame⟩ | ⟨body, rfl, hbody⟩
  · rw [hsame]
  · rw [hbody, h]

theorem isBlank_dropReturn : isBlank (dropReturn line) = isBlank line :=
  eq_dropReturn line all_isTrimmed_concat

/-- The first unit stays, unless the line is nothing but a carriage return. -/
theorem head?_dropReturn :
    (dropReturn line).head? = line.head? ∨ line.head? = some returnUnit ∧ (dropReturn line).head? = none := by
  rcases dropReturn_cases line with ⟨-, hsame⟩ | ⟨body, rfl, hbody⟩
  · rw [hsame]
    exact Or.inl rfl
  · rw [hbody]
    cases body with
    | nil => exact .inr ⟨rfl, rfl⟩
    | cons => exact Or.inl rfl

theorem startsOp_dropReturn : startsOp (dropReturn line) = startsOp line := by
  unfold startsOp
  rcases head?_dropReturn line with hsame | ⟨hreturn, hnone⟩
  · rw [hsame]
  · rw [hreturn, hnone]
    decide

theorem trimEnd_dropReturn : trimEnd (dropReturn line) = trimEnd line := by
  apply eq_dropReturn
  intro body
  have hreturn : isTrimmed returnUnit := by decide
  rw [trimEnd, trimEnd, reverse_append, reverse_singleton, singleton_append, dropWhile_cons_of_pos hreturn]

end

theorem IsPlain.dropReturn (h : IsPlain line) : IsPlain (dropReturn line) := by
  constructor
  · rw [isEnvelopeOrAbortMarkerLine, trimEnd_dropReturn]
    exact h.1
  · rcases head?_dropReturn line with hsame | ⟨-, hnone⟩
    · rw [hsame]
      exact h.2
    · rw [hnone]
      exact nofun

end

/-! ## Lines of a diff -/

section

variable {diff : JsString} {init : List JsString} {last : JsString}

theorem exists_splitLines_concat (diff : JsString) : ∃ init last, splitLines diff = init ++ [last] :=
  (eq_nil_or_concat' (splitLines diff)).resolve_left (splitLines_ne_nil diff)

section

variable (h : splitLines diff = init ++ [last])

include h

theorem getLast?_eq_newline_iff : diff.getLast? = some newlineUnit ↔ last = [] ∧ init ≠ [] := by
  have hlast : newlineUnit ∉ last := by
    apply newlineUnit_notMem_of_mem_splitLines
    rw [h]
    exact mem_append_right _ mem_cons_self
  have hdiff : diff = joinLines (init ++ [last]) := by rw [← h, joinLines_splitLines]
  by_cases hinit : init = []
  · have hsingle : diff = last := by
      rw [hdiff, hinit]
      simp [joinLines]
    rw [hsingle]
    constructor
    · intro hget
      exact absurd (mem_of_getLast? hget) hlast
    · intro hboth
      exact absurd hinit hboth.2
  · have hone : joinLines [last] = last := intercalate_singleton
    rw [hdiff, joinLines_append hinit (cons_ne_nil last []), hone]
    cases last using reverseRecOn with
    | nil => simp [hinit]
    | append_singleton front unit =>
      have hunit : unit ≠ newlineUnit := by
        rintro rfl
        exact hlast (mem_append_right _ mem_cons_self)
      rw [← cons_append, ← append_assoc, getLast?_concat]
      simp [hunit]

theorem splitCrlfLines_eq : splitCrlfLines diff = init.map dropReturn ++ [last] := by
  rw [splitCrlfLines, h, dropLast_concat, getLast?_concat]
  rfl

/-- An empty last line is dropped, and only the last line keeps a carriage return. -/
theorem diffLines_eq : diffLines diff =
      if last = [] ∧ init ≠ [] then init.map dropReturn else init.map dropReturn ++ [last] := by
  rw [diffLines, splitCrlfLines_eq h, getLast?_concat, dropLast_concat]
  apply if_congr _ rfl rfl
  rw [getLast?_eq_newline_iff h, Option.some.injEq]
  tauto

/-- The lines of a diff that is followed by another one. -/
def closedLines (diff : JsString) : List JsString := (splitLines diff).map dropReturn

end

/-- The lines of joined diffs, when the last ones are not just one empty line. -/
theorem diffLines_joinLines_cons (diff : JsString) (hdiffs : diffs ≠ [])
    (hne : splitLines (joinLines diffs) ≠ [[]]) :
    diffLines (joinLines (diff :: diffs)) = closedLines diff ++ diffLines (joinLines diffs) := by
  obtain ⟨init, last, hsplit⟩ := exists_splitLines_concat (joinLines diffs)
  have hwhole : splitLines (joinLines (diff :: diffs)) = (splitLines diff ++ init) ++ [last] := by
    rw [splitLines_joinLines (cons_ne_nil _ _), flatMap_cons, ← splitLines_joinLines hdiffs, hsplit,
      append_assoc]
  rw [diffLines_eq hwhole, diffLines_eq hsplit, closedLines, map_append]
  have hfront : splitLines diff ++ init ≠ [] := by
    intro hnil
    exact splitLines_ne_nil diff (append_eq_nil_iff.mp hnil).1
  by_cases hlast : last = []
  · have hinit : init ≠ [] := by
      rintro rfl
      rw [hsplit, hlast] at hne
      exact hne rfl
    simp [hlast, hinit, hfront]
  · simp [hlast]

/-- A diff of lines without markers, of which one is not blank. -/
structure IsBody (diff : JsString) : Prop where
  plain : ∀ line ∈ splitLines diff, IsPlain line
  nonblank : ∃ line ∈ splitLines diff, isBlank line = false

theorem IsBody.splitLines_ne (h : IsBody diff) : splitLines diff ≠ [[]] := by
  intro hempty
  obtain ⟨line, hline, hblank⟩ := h.nonblank
  rw [hempty, mem_singleton] at hline
  rw [hline] at hblank
  contradiction

theorem isBody_joinLines (hne : diffs ≠ []) (h : ∀ diff ∈ diffs, IsBody diff) :
    IsBody (joinLines diffs) := by
  constructor
  · intro line hline
    rw [splitLines_joinLines hne, mem_flatMap] at hline
    obtain ⟨diff, hdiff, hline⟩ := hline
    exact (h diff hdiff).plain line hline
  · obtain ⟨diff, rest, rfl⟩ := exists_cons_of_ne_nil hne
    obtain ⟨line, hline, hblank⟩ := (h diff mem_cons_self).nonblank
    refine ⟨line, ?_, hblank⟩
    rw [splitLines_joinLines hne, flatMap_cons]
    exact mem_append_left _ hline

/-- Every line of the diff, apart from an empty last one, is parsed with or without its return. -/
theorem IsBody.diffLines_eq (h : IsBody diff) (hsplit : splitLines diff = init ++ [last]) :
    diffLines diff = init.map dropReturn ++ if last = [] then [] else [last] := by
  rw [Hashline.diffLines_eq hsplit]
  by_cases hlast : last = []
  · have hinit : init ≠ [] := by
      rintro rfl
      rw [hlast] at hsplit
      exact h.splitLines_ne hsplit
    simp [hlast, hinit]
  · simp [hlast]

theorem IsBody.plain_diffLines (h : IsBody diff) : ∀ line ∈ diffLines diff, IsPlain line := by
  obtain ⟨init, last, hsplit⟩ := exists_splitLines_concat diff
  have hplain := h.plain
  rw [hsplit, forall_mem_append] at hplain
  rw [h.diffLines_eq hsplit, forall_mem_append]
  constructor
  · intro line hline
    obtain ⟨raw, hraw, rfl⟩ := mem_map.mp hline
    exact (hplain.1 raw hraw).dropReturn
  · split_ifs
    · simp
    · exact hplain.2

/-- A line of the diff that is not blank is among those that are parsed. -/
theorem IsBody.exists_nonblank (h : IsBody diff) : ∃ line ∈ diffLines diff, isBlank line = false := by
  obtain ⟨init, last, hsplit⟩ := exists_splitLines_concat diff
  obtain ⟨line, hline, hblank⟩ := h.nonblank
  rw [hsplit, mem_append, mem_singleton] at hline
  rw [h.diffLines_eq hsplit]
  rcases hline with hinit | rfl
  · refine ⟨dropReturn line, mem_append_left _ (mem_map_of_mem hinit), ?_⟩
    rw [isBlank_dropReturn, hblank]
  · have hne : line ≠ [] := by
      rintro rfl
      contradiction
    exact ⟨line, mem_append_right _ (by simp [hne]), hblank⟩

end

/-! ## Joints -/

section

variable {hashLine : ℕ → JsString → JsString} {diff : JsString} {shapes : List EditShape}

theorem length_shapes_append (op : HashlineOp) (payload more : List JsString) :
    (op.shapes (payload ++ more)).length = (op.shapes payload).length + more.length := by
  cases op with
  | insert | replace =>
    simp only [HashlineOp.shapes, length_map, length_append]
    omega

theorem shapes_injective (op : HashlineOp) : Injective op.shapes := by
  have hinsert (cursor) : Injective (EditShape.insert cursor) := fun _ _ heq ↦ (EditShape.insert.inj heq).2
  intro payload payload' h
  cases op with
  | insert cursor => exact append_cancel_left (map_injective_iff.mpr (hinsert cursor) h)
  | replace range => exact map_injective_iff.mpr (hinsert (.beforeAnchor range.start)) (append_cancel_right h)

/-- Lines behind a diff: those before its first operation add an edit each, and keep the diffs apart
only when there are none. -/
theorem readShapes_append {lines' : List JsString} {shapes' : List EditShape}
    (hne : (splitBlocks lines).2 ≠ []) (h : readShapes hashLine lines = some shapes)
    (h' : readBlocks hashLine (splitBlocks lines').2 = some shapes') :
    ∃ joined, readShapes hashLine (lines ++ lines') = some joined ∧
      joined.length = shapes.length + (splitBlocks lines').1.length + shapes'.length ∧
      ((splitBlocks lines').1 = [] → joined = shapes ++ shapes') := by
  obtain ⟨hblank, hblocks⟩ := readShapes_eq_some_iff.mp h
  obtain ⟨blocks, ⟨op, payload⟩, hlast⟩ := (eq_nil_or_concat' _).resolve_left hne
  rw [hlast] at hblocks
  obtain ⟨first, parsed, rfl, hread⟩ := readBlocks_concat hblocks
  have hsplit := splitBlocks_append hlast lines'
  have hjoined := hread (payload ++ (splitBlocks lines').1) (splitBlocks lines').2 shapes'
    (fun hpayload hnil ↦ hpayload (append_eq_nil_iff.mp hnil).1) h'
  refine ⟨_, readShapes_eq_some_iff.mpr ⟨by rw [hsplit]; exact hblank, by rw [hsplit]; exact hjoined⟩,
    ?_, ?_⟩
  · simp only [length_append, length_shapes_append]
    omega
  · intro hnil
    rw [hnil, append_nil]

/-- Another last payload line gives other edits. -/
theorem readShapes_replace_last {line' : JsString}
    (hne : (splitBlocks lines).2 ≠ []) (hline : startsOp line = false) (hline' : startsOp line' = false)
    (h : readShapes hashLine (lines ++ [line]) = some shapes) :
    ∃ shapes', readShapes hashLine (lines ++ [line']) = some shapes' ∧
      shapes'.length = shapes.length ∧ (shapes' = shapes → line' = line) := by
  obtain ⟨blocks, ⟨op, payload⟩, hlast⟩ := (eq_nil_or_concat' _).resolve_left hne
  have hsplit {text} (htext : startsOp text = false) :
      splitBlocks (lines ++ [text]) = ((splitBlocks lines).1, blocks ++ [(op, payload ++ [text])]) := by
    rw [splitBlocks_append hlast, splitBlocks_cons_text htext]
    rfl
  obtain ⟨hblank, hblocks⟩ := readShapes_eq_some_iff.mp h
  rw [hsplit hline] at hblank hblocks
  obtain ⟨first, parsed, rfl, hread⟩ := readBlocks_concat hblocks
  have hother := hread (payload ++ [line']) [] [] (by simp) rfl
  rw [append_nil] at hother
  refine ⟨_, readShapes_eq_some_iff.mpr ⟨by rw [hsplit hline']; exact hblank,
    by rw [hsplit hline']; exact hother⟩, ?_, fun hsame ↦ ?_⟩
  · simp [length_shapes_append]
  · have hpayload := shapes_injective parsed (append_cancel_left hsame)
    exact singleton_inj.mp (append_cancel_left hpayload)

theorem splitBlocks_concat_op (lines : List JsString) (h : startsOp line) :
    splitBlocks (lines ++ [line]) = ((splitBlocks lines).1, (splitBlocks lines).2 ++ [(line, [])]) := by
  induction lines with
  | nil => exact splitBlocks_cons_op h []
  | cons first rest ih =>
    rw [cons_append]
    cases hfirst : startsOp first with
    | true => rw [splitBlocks_cons_op hfirst, splitBlocks_cons_op hfirst, ih, cons_append]
    | false => rw [splitBlocks_cons_text hfirst, splitBlocks_cons_text hfirst, ih]

def lastLine (diff : JsString) : JsString := (splitLines diff).getLastD []

/-- The diff ends neither with an empty line nor with a payload line that has a carriage return. -/
def EndsClean (diff : JsString) : Prop :=
  lastLine diff ≠ [] ∧ ((lastLine diff).getLast? = some returnUnit → startsOp (lastLine diff) = true)

/-- The first line of the diff is not blank. -/
def StartsClean (diff : JsString) : Prop := isBlank ((splitLines diff).headD []) = false

theorem IsBody.blocks_ne_nil (h : IsBody diff) (hread : readShapes hashLine (diffLines diff) = some shapes) :
    (splitBlocks (diffLines diff)).2 ≠ [] := by
  intro hnil
  have hblank := (readShapes_eq_some_iff.mp hread).1
  rw [splitBlocks_of_text hnil, all_eq_true] at hblank
  obtain ⟨line, hline, hnonblank⟩ := h.exists_nonblank
  rw [hblank line hline] at hnonblank
  contradiction

/-- Behind an operation, the front stays. -/
theorem splitBlocks_append_of_ne_nil (h : (splitBlocks lines).2 ≠ []) (lines' : List JsString) :
    (splitBlocks (lines ++ lines')).2 ≠ [] ∧
      (splitBlocks (lines ++ lines')).1 = (splitBlocks lines).1 := by
  obtain ⟨blocks, ⟨op, payload⟩, hlast⟩ := (eq_nil_or_concat' _).resolve_left h
  rw [splitBlocks_append hlast]
  simp

/-- A carriage return does not change an operation. -/
theorem readShapes_concat_dropReturn (lines : List JsString) (h : startsOp line) :
    readShapes hashLine (lines ++ [dropReturn line]) = readShapes hashLine (lines ++ [line]) := by
  have hop : startsOp (dropReturn line) := by rw [startsOp_dropReturn, h]
  have hsingle : readBlocks hashLine [(dropReturn line, [])] = readBlocks hashLine [(line, [])] := by
    have hparse := eq_dropReturn (f := fun text ↦ (parseOpLine hashLine 1 text).toOption) line
      (toOption_parseOpLine_concat · 1)
    simp only [readBlocks, readBlock, hparse]
  rw [readShapes, readShapes, splitBlocks_concat_op lines hop, splitBlocks_concat_op lines h,
    readBlocks_append, readBlocks_append, hsingle]

/-- What becomes of the edits of a diff when another one follows. -/
theorem IsBody.readShapes_closedLines (h : IsBody diff)
    (hread : readShapes hashLine (diffLines diff) = some shapes) :
    ∃ shapes', readShapes hashLine (closedLines diff) = some shapes' ∧
      (splitBlocks (closedLines diff)).2 ≠ [] ∧
      (splitBlocks (closedLines diff)).1 = (splitBlocks (diffLines diff)).1 ∧
      shapes.length ≤ shapes'.length ∧ (shapes' = shapes ↔ EndsClean diff) := by
  obtain ⟨init, last, hsplit⟩ := exists_splitLines_concat diff
  have hne := h.blocks_ne_nil hread
  have hlastLine : lastLine diff = last := by rw [lastLine, hsplit, getLastD_concat]
  rw [EndsClean, hlastLine, closedLines, hsplit, map_append, map_singleton]
  rw [h.diffLines_eq hsplit] at hread hne ⊢
  by_cases hlast : last = []
  · -- the empty line is one more payload line
    rw [if_pos hlast, append_nil] at hread hne ⊢
    have hend : readBlocks hashLine (splitBlocks [[]]).2 = some [] := rfl
    obtain ⟨joined, hjoined, hlen, -⟩ := readShapes_append hne hread hend
    obtain ⟨hblocks, hfront⟩ := splitBlocks_append_of_ne_nil hne [[]]
    have hempty : dropReturn last = [] := by
      rw [hlast]
      rfl
    rw [hempty]
    refine ⟨joined, hjoined, hblocks, hfront, by omega, ?_⟩
    constructor
    · rintro rfl
      simp [splitBlocks, startsOp] at hlen
    · intro hclean
      exact absurd hlast hclean.1
  rw [if_neg hlast] at hread hne ⊢
  cases hop : startsOp last with
  | true =>
    have hop' : startsOp (dropReturn last) := by rw [startsOp_dropReturn, hop]
    refine ⟨shapes, by rw [readShapes_concat_dropReturn _ hop, hread], ?_, ?_, le_rfl, ?_⟩
    · rw [splitBlocks_concat_op _ hop']
      simp
    · rw [splitBlocks_concat_op _ hop', splitBlocks_concat_op _ hop]
    · simp [hlast]
  | false =>
    rcases dropReturn_cases last with ⟨hreturn, hsame⟩ | ⟨body, hbody, hdrop⟩
    · rw [hsame]
      refine ⟨shapes, hread, hne, rfl, le_rfl, ?_⟩
      simp [hlast, hreturn]
    · have hop' : startsOp (dropReturn last) = false := by rw [startsOp_dropReturn, hop]
      have hinit : (splitBlocks (init.map dropReturn)).2 ≠ [] := by
        intro hnil
        rw [splitBlocks_append_of_text hnil, splitBlocks_cons_text hop] at hne
        exact hne rfl
      obtain ⟨shapes', hshapes', hlen, hsame⟩ := readShapes_replace_last hinit hop hop' hread
      obtain ⟨hblocks, hfront⟩ := splitBlocks_append_of_ne_nil hinit [dropReturn last]
      refine ⟨shapes', hshapes', hblocks, ?_, hlen.ge, ?_⟩
      · rw [hfront, (splitBlocks_append_of_ne_nil hinit [last]).2]
      · constructor
        · intro heq
          have hline := hsame heq
          rw [hdrop, hbody] at hline
          simp at hline
        · intro hclean
          have himpossible := hclean.2 (by rw [hbody, getLast?_concat])
          contradiction

/-- A diff that is read starts with an operation, or with a blank line that another diff would take. -/
theorem IsBody.splitBlocks_fst_eq_nil_iff (h : IsBody diff)
    (hread : readShapes hashLine (diffLines diff) = some shapes) :
    (splitBlocks (diffLines diff)).1 = [] ↔ StartsClean diff := by
  have hblank := (readShapes_eq_some_iff.mp hread).1
  obtain ⟨first, rest, hlines⟩ := exists_cons_of_ne_nil (show diffLines diff ≠ [] by
    obtain ⟨line, hline, -⟩ := h.exists_nonblank
    exact ne_nil_of_mem hline)
  have hfirst : isBlank first = isBlank ((splitLines diff).headD []) := by
    obtain ⟨init, last, hsplit⟩ := exists_splitLines_concat diff
    rw [h.diffLines_eq hsplit] at hlines
    rw [hsplit]
    cases init with
    | nil =>
      by_cases hlast : last = []
      · simp [hlast] at hlines
      · simp only [hlast, if_false, map_nil, nil_append, cons.injEq] at hlines
        simp [hlines.1]
    | cons =>
      rw [map_cons, cons_append, cons.injEq] at hlines
      rw [← hlines.1, isBlank_dropReturn]
      rfl
  rw [StartsClean, ← hfirst]
  rw [hlines] at hblank ⊢
  cases hop : startsOp first with
  | true =>
    have hnonblank : isBlank first = false := by
      rw [Bool.eq_false_iff]
      intro hblank
      rw [startsOp_of_isBlank hblank] at hop
      contradiction
    simp [splitBlocks_cons_op hop, hnonblank]
  | false =>
    rw [splitBlocks_cons_text hop, all_cons, Bool.and_eq_true] at hblank
    simp [splitBlocks_cons_text hop, hblank.1]

/-- The edits of a diff, without source lines and indices; none when it is not read. -/
def shapesOf (computeLineHash : ℕ → JsString → JsString) (diff : JsString) : List EditShape :=
  (readShapes computeLineHash (diffLines diff)).getD []

/-- The edits of joined diffs are those of the diffs exactly when all joints are clean. -/
theorem readShapes_joinLines (hne : diffs ≠ []) (hbody : ∀ diff ∈ diffs, IsBody diff)
    (hread : ∀ diff ∈ diffs, readShapes hashLine (diffLines diff) = some (shapesOf hashLine diff)) :
    ∃ joined, readShapes hashLine (diffLines (joinLines diffs)) = some joined ∧
      (splitBlocks (diffLines (joinLines diffs))).1 = (splitBlocks (diffLines (diffs.headD []))).1 ∧
      (diffs.flatMap (shapesOf hashLine)).length ≤ joined.length ∧
      (joined = diffs.flatMap (shapesOf hashLine) ↔
        diffs.IsChain fun diff diff' ↦ EndsClean diff ∧ StartsClean diff') := by
  induction diffs with
  | nil => exact absurd rfl hne
  | cons diff rest ih =>
    rw [forall_mem_cons] at hbody hread
    cases rest with
    | nil =>
      refine ⟨shapesOf hashLine diff, ?_, ?_, ?_, ?_⟩
      · simpa [joinLines] using hread.1
      · simp [joinLines]
      · simp
      · simp
    | cons diff' rest =>
      obtain ⟨joined', hjoined', hfront', hlength', hiff'⟩ := ih (cons_ne_nil _ _) hbody.2 hread.2
      obtain ⟨shapes', hshapes', hblocks, hfront, hlength, hiff⟩ := hbody.1.readShapes_closedLines hread.1
      obtain ⟨joined, hjoined, hsum, hapart⟩ :=
        readShapes_append hblocks hshapes' (readShapes_eq_some_iff.mp hjoined').2
      have hstart := (splitBlocks_append_of_ne_nil hblocks (diffLines (joinLines (diff' :: rest)))).2
      have hlines := diffLines_joinLines_cons diff (cons_ne_nil diff' rest)
        (isBody_joinLines (cons_ne_nil diff' rest) hbody.2).splitLines_ne
      have hstarts := (hbody.2 diff' mem_cons_self).splitBlocks_fst_eq_nil_iff
        (hread.2 diff' mem_cons_self)
      rw [headD_cons] at hfront'
      rw [hfront'] at hsum hapart
      rw [flatMap_cons, isChain_cons_cons, ← hiff', hlines, headD_cons]
      refine ⟨joined, hjoined, by rw [hstart, hfront], ?_, ?_⟩
      · rw [length_append]
        omega
      · constructor
        · intro heq
          have htotal := congrArg length heq
          rw [length_append] at htotal
          have hnone : (splitBlocks (diffLines diff')).1 = [] := length_eq_zero_iff.mp (by omega)
          rw [hapart hnone] at heq
          obtain ⟨hfirst, hrest⟩ := append_inj heq (by omega)
          exact ⟨⟨hiff.mp hfirst, hstarts.mp hnone⟩, hrest⟩
        · rintro ⟨⟨hends, hclean⟩, hrest⟩
          rw [hapart (hstarts.mpr hclean), hiff.mpr hends, hrest]

end

end GajaeCode.Hashline
