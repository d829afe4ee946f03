import GajaeCode.Hashline.Joints
import GajaeCode.Hashline.Sections
import GajaeCode.Machine.Checks

/-!
# Parsing merged sections

A section is a diff without markers in which some line is not blank. A merged section is parsed to the
edits of its sections in order exactly when the joints between them are clean.
-/

namespace GajaeCode.Hashline

open Text Chain List Option

variable {sections : List HashlineInputSection} {byPath : List (JsString × List JsString)}
  {path line : JsString}
open Machine (bind_eq_ok_iff)

/-! ## Sections -/

section

variable {processCwd : JsString} {options : SplitHashlineOptions}

theorem notMem_dropReturn (h : newlineUnit ∉ line) : newlineUnit ∉ dropReturn line := by
  rcases dropReturn_cases line with ⟨-, hsame⟩ | ⟨body, rfl, hbody⟩
  · rwa [hsame]
  · rw [hbody]
    exact fun hmem ↦ h (mem_append_left _ hmem)

theorem newlineUnit_notMem_of_mem_splitCrlfLines {text : JsString} (h : line ∈ splitCrlfLines text) :
    newlineUnit ∉ line := by
  obtain ⟨init, last, hsplit⟩ := exists_splitLines_concat text
  have hpieces : ∀ piece ∈ init ++ [last], newlineUnit ∉ piece := fun piece hpiece ↦
    newlineUnit_notMem_of_mem_splitLines (by rw [hsplit]; exact hpiece)
  rw [forall_mem_append, forall_mem_singleton] at hpieces
  rw [splitCrlfLines_eq hsplit, mem_append, mem_singleton] at h
  rcases h with hinit | rfl
  · obtain ⟨raw, hraw, rfl⟩ := mem_map.mp hinit
    exact notMem_dropReturn (hpieces.1 raw hraw)
  · exact hpieces.2

/-- A line that is neither a marker nor a header. -/
theorem isPlain_of_no_header (hend : ¬ (trimEnd line = endPatchMarker ∨ trimEnd line = abortMarker))
    (henvelope : ¬ isPatchEnvelopeMarker line)
    (hheader : parseHashlineHeaderLine processCwd options line = .ok none) : IsPlain line := by
  constructor
  · simp only [isPatchEnvelopeMarker, Bool.or_eq_true, decide_eq_true_eq, not_or] at henvelope hend
    simp [isEnvelopeOrAbortMarkerLine, henvelope, hend]
  · intro hhead
    cases line with
    | nil => contradiction
    | cons unit rest =>
      obtain rfl : unit = filePrefixUnit := some.inj hhead
      have hunit : isTrimmed filePrefixUnit = false := by decide
      have htrim : (trimEnd (filePrefixUnit :: rest)).head? = some filePrefixUnit := by
        rw [trimEnd, reverse_cons, dropWhile_concat isTrimmed hunit, reverse_append]
        rfl
      rw [parseHashlineHeaderLine, if_pos htrim] at hheader
      simp only at hheader
      split_ifs at hheader
      cases hheader

theorem isBody_of_mem_flushSection {lines : List JsString}
    (hlines : ∀ line ∈ lines, newlineUnit ∉ line ∧ IsPlain line) :
    ∀ part ∈ flushSection path lines, IsBody part.diff := by
  intro part hpart
  unfold flushSection at hpart
  split_ifs at hpart with hpath hany
  · simp at hpart
  · rw [mem_singleton] at hpart
    obtain ⟨line, hline, hblank⟩ := any_eq_true.mp hany
    have hsplit : splitLines (joinLines lines) = lines := by
      rw [splitLines_joinLines (ne_nil_of_mem hline), flatMap_splitLines fun line hmem ↦ (hlines line hmem).1]
    rw [hpart]
    constructor
    · rw [hsplit]
      exact fun line hmem ↦ (hlines line hmem).2
    · rw [hsplit]
      exact ⟨line, hline, by simpa using hblank⟩
  · simp at hpart

/-- Every section is a body. -/
theorem isBody_of_scanSections {cur lines : List JsString}
    (hcur : ∀ line ∈ cur, newlineUnit ∉ line ∧ IsPlain line) (hlines : ∀ line ∈ lines, newlineUnit ∉ line)
    (h : scanSections processCwd options path cur lines = .ok sections) :
    ∀ part ∈ sections, IsBody part.diff := by
  induction lines generalizing path cur sections with
  | nil =>
    cases h
    exact isBody_of_mem_flushSection hcur
  | cons line rest ih =>
    rw [forall_mem_cons] at hlines
    rw [scanSections] at h
    split_ifs at h with hend henvelope
    · cases h
      exact isBody_of_mem_flushSection hcur
    · exact ih hcur hlines.2 h
    · obtain ⟨header, hheader, h⟩ := bind_eq_ok_iff.mp h
      cases header with
      | none =>
        have hplain := isPlain_of_no_header hend henvelope hheader
        refine ih ?_ hlines.2 h
        rw [forall_mem_append, forall_mem_singleton]
        exact ⟨hcur, hlines.1, hplain⟩
      | some =>
        obtain ⟨others, hothers, hok⟩ := bind_eq_ok_iff.mp h
        cases hok
        rw [forall_mem_append]
        exact ⟨isBody_of_mem_flushSection hcur, ih (by simp) hlines.2 hothers⟩

theorem isBody_of_splitHashlineInputs {input : JsString}
    (h : splitHashlineInputs processCwd options input = .ok sections) : ∀ part ∈ sections, IsBody part.diff := by
  obtain ⟨normalized, -, h⟩ := bind_eq_ok_iff.mp h
  obtain ⟨header, -, h⟩ := bind_eq_ok_iff.mp h
  split_ifs at h
  exact isBody_of_scanSections (by simp) (fun line ↦ newlineUnit_notMem_of_mem_splitCrlfLines) h

/-! ## Merged sections -/

def sectionDiffs (sections : List HashlineInputSection) (path : JsString) : List JsString :=
  (sections.filter fun part ↦ part.path = path).map HashlineInputSection.diff

theorem sectionDiffs_eq_nil
    (h : ∀ part ∈ sections, part.path ≠ path) : sectionDiffs sections path = [] := by
  unfold sectionDiffs
  rw [filter_eq_nil_iff.mpr fun part hpart ↦ by simpa using h part hpart, map_nil]

/-- Every path once, with the diffs of its sections. -/
structure GroupsSections (sections : List HashlineInputSection) (byPath : List (JsString × List JsString)) :
    Prop where
  nodup : (byPath.map Prod.fst).Nodup
  diffs : ∀ entry ∈ byPath, entry.2 = sectionDiffs sections entry.1 ∧ entry.2 ≠ []
  complete : ∀ part ∈ sections, part.path ∈ byPath.map Prod.fst

theorem addDiff_eq_alter (byPath : List (JsString × List JsString)) (part : HashlineInputSection) :
    addDiff byPath part = alter (fun diffs ↦ diffs.getD [] ++ [part.diff]) part.path byPath := by
  induction byPath with
  | nil => rfl
  | cons entry rest ih =>
    rw [addDiff, alter, ih]
    split_ifs with hpath
    · rw [hpath, getD_some]
    · rfl

theorem GroupsSections.lookup (h : GroupsSections sections byPath) (path : JsString) :
    (byPath.lookup path).getD [] = sectionDiffs sections path := by
  cases hlookup : byPath.lookup path with
  | none =>
    rw [lookup_eq_none_iff_notMem] at hlookup
    refine (sectionDiffs_eq_nil fun part hpart hsame ↦ hlookup ?_).symm
    rw [← hsame]
    exact h.complete part hpart
  | some diffs => exact (h.diffs _ (mem_pairs_of_lookup hlookup)).1

theorem groupsSections_foldl (sections : List HashlineInputSection) :
    GroupsSections sections (sections.foldl addDiff []) := by
  induction sections using reverseRecOn with
  | nil => exact ⟨by simp, by simp, by simp⟩
  | append_singleton sections part ih =>
    rw [foldl_append, foldl_cons, foldl_nil]
    rw [addDiff_eq_alter]
    refine ⟨nodup_alter ih.nodup, fun entry hentry ↦ ?_, fun other hother ↦ ?_⟩
    · have hlookup := lookup_of_mem (nodup_alter ih.nodup) hentry
      rw [lookup_alter, ih.lookup] at hlookup
      rw [sectionDiffs, filter_append, map_append, filter_singleton, ← sectionDiffs]
      split_ifs at hlookup with hpath
      · simp [← some.inj hlookup, hpath]
      · rw [decide_eq_false (Ne.symm hpath), cond_false, map_nil, append_nil]
        exact ih.diffs entry (mem_pairs_of_lookup hlookup)
    · rw [mem_keys_alter]
      rcases mem_append.mp hother with hold | hnew
      · exact .inr (ih.complete other hold)
      · rw [mem_singleton.mp hnew]
        exact Or.inl rfl

/-- A merged section has the joined diffs of the sections with its path. -/
theorem mergeSamePathSections_spec {merged : HashlineInputSection}
    (h : merged ∈ mergeSamePathSections sections) :
    merged.diff = joinLines (sectionDiffs sections merged.path) ∧ sectionDiffs sections merged.path ≠ [] := by
  obtain ⟨⟨path, diffs⟩, hentry, rfl⟩ := mem_map.mp h
  obtain ⟨hdiffs, hne⟩ := (groupsSections_foldl sections).diffs _ hentry
  rw [← hdiffs]
  exact ⟨rfl, hne⟩

variable {computeLineHash : ℕ → JsString → JsString}

/-- The edits that a diff is parsed to, without source lines and indices. -/
def editShapes (computeLineHash : ℕ → JsString → JsString) (diff : JsString) : List EditShape :=
  match parseHashlineWithWarnings computeLineHash diff with
  | .ok parsed => parsed.edits.map HashlineEdit.shape
  | .error _ => []

theorem IsBody.toOption_parse {diff : JsString} (h : IsBody diff) :
    (parseHashlineWithWarnings computeLineHash diff).toOption.map
        (fun parsed ↦ parsed.edits.map HashlineEdit.shape) =
      readShapes computeLineHash (diffLines diff) :=
  parseLines_spec h.plain_diffLines le_rfl 1 0

/-- A merged section parses to the edits of its sections in order exactly when every section but the
last ends clean and every section but the first starts clean. -/
theorem mergeSamePathSections_homomorphism_iff {input : JsString} {sections : List HashlineInputSection}
    (hsplit : splitHashlineInputs processCwd options input = .ok sections) {merged : HashlineInputSection}
    (hmerged : merged ∈ mergeSamePathSections sections)
    (hparse : ∀ part ∈ sections, part.path = merged.path →
      ∃ parsed, parseHashlineWithWarnings computeLineHash part.diff = .ok parsed) :
    (∃ parsed, parseHashlineWithWarnings computeLineHash merged.diff = .ok parsed ∧
        parsed.edits.map HashlineEdit.shape =
          (sectionDiffs sections merged.path).flatMap (editShapes computeLineHash)) ↔
      (sectionDiffs sections merged.path).IsChain fun diff diff' ↦ EndsClean diff ∧ StartsClean diff' := by
  obtain ⟨hdiff, hne⟩ := mergeSamePathSections_spec hmerged
  have hbody : ∀ diff ∈ sectionDiffs sections merged.path, IsBody diff := by
    intro diff hmem
    obtain ⟨part, hpart, rfl⟩ := mem_map.mp hmem
    exact isBody_of_splitHashlineInputs hsplit part (mem_filter.mp hpart).1
  have hread : ∀ diff ∈ sectionDiffs sections merged.path,
      readShapes computeLineHash (diffLines diff) = some (shapesOf computeLineHash diff) ∧
        shapesOf computeLineHash diff = editShapes computeLineHash diff := by
    intro diff hmem
    obtain ⟨part, hpart, rfl⟩ := mem_map.mp hmem
    obtain ⟨hpart, hpath⟩ := mem_filter.mp hpart
    obtain ⟨parsed, hparsed⟩ := hparse part hpart (of_decide_eq_true hpath)
    have hshapes : readShapes computeLineHash (diffLines part.diff) =
        some (editShapes computeLineHash part.diff) := by
      rw [← (hbody part.diff hmem).toOption_parse, editShapes, hparsed]
      rfl
    rw [shapesOf, hshapes, getD_some]
    exact ⟨rfl, rfl⟩
  have hshapes : (sectionDiffs sections merged.path).flatMap (editShapes computeLineHash) =
      (sectionDiffs sections merged.path).flatMap (shapesOf computeLineHash) :=
    flatMap_congr fun diff hmem ↦ (hread diff hmem).2.symm
  obtain ⟨joined, hjoined, -, -, hiff⟩ := readShapes_joinLines hne hbody fun diff hmem ↦ (hread diff hmem).1
  have hwhole := isBody_joinLines hne hbody
  rw [← hdiff] at hjoined hwhole
  rw [← hwhole.toOption_parse, map_eq_some_iff] at hjoined
  obtain ⟨parsed, hparsed, rfl⟩ := hjoined
  have hok : parseHashlineWithWarnings computeLineHash merged.diff = .ok parsed := by
    cases hresult : parseHashlineWithWarnings computeLineHash merged.diff with
    | error =>
      rw [hresult] at hparsed
      contradiction
    | ok =>
      rw [hresult] at hparsed
      rw [some.inj hparsed]
  rw [← hiff, hshapes]
  constructor
  · rintro ⟨other, hother, hsame⟩
    rw [hok] at hother
    rw [Except.ok.inj hother, hsame]
  · intro hsame
    exact ⟨parsed, hok, hsame⟩

def firstInsert : HashlineInputSection := ⟨utf16 "a", utf16 "»5ab\nx"⟩

/-- The first insert with a blank line before the next header. -/
def spacedInsert : HashlineInputSection := ⟨utf16 "a", utf16 "»5ab\nx\n"⟩

def secondInsert : HashlineInputSection := ⟨utf16 "a", utf16 "»9cd\ny"⟩

/-- Two sections for one file that meet without a blank line. -/
theorem mergeSamePathSections_two_inserts :
    ∃ parsed, parseHashlineWithWarnings (fun _ _ ↦ utf16 "zz") (utf16 "»5ab\nx\n»9cd\ny") = .ok parsed ∧
      parsed.edits.map HashlineEdit.shape =
        [.insert (.afterAnchor ⟨5, utf16 "ab"⟩) (utf16 "x"), .insert (.afterAnchor ⟨9, utf16 "cd"⟩) (utf16 "y")] := by
  have hsplit : splitHashlineInputs [] ⟨none, none⟩ (utf16 "§a\n»5ab\nx\n§a\n»9cd\ny") =
      .ok [firstInsert, secondInsert] := by rfl
  have hmerged : (⟨utf16 "a", utf16 "»5ab\nx\n»9cd\ny"⟩ : HashlineInputSection) ∈
      mergeSamePathSections [firstInsert, secondInsert] := by decide
  have hparse : ∀ part ∈ [firstInsert, secondInsert], part.path = utf16 "a" →
      ∃ parsed, parseHashlineWithWarnings (fun _ _ ↦ utf16 "zz") part.diff = .ok parsed := by
    rw [forall_mem_cons, forall_mem_singleton]
    exact ⟨fun _ ↦ ⟨_, rfl⟩, fun _ ↦ ⟨_, rfl⟩⟩
  have hends : EndsClean firstInsert.diff := ⟨by decide, by decide⟩
  have hstarts : StartsClean secondInsert.diff := by
    unfold StartsClean
    decide
  have hdiffs : sectionDiffs [firstInsert, secondInsert] (utf16 "a") = [firstInsert.diff, secondInsert.diff] := by
    decide
  apply (mergeSamePathSections_homomorphism_iff hsplit hmerged hparse).mpr
  rw [hdiffs, isChain_cons_cons]
  exact ⟨⟨hends, hstarts⟩, isChain_singleton _⟩

/-- With a blank line between the sections, the merged diff inserts an empty line that no section has. -/
theorem mergeSamePathSections_absorbs_blank_line :
    splitHashlineInputs [] ⟨none, none⟩ (utf16 "§a\n»5ab\nx\n\n§a\n»9cd\ny") =
        .ok [spacedInsert, secondInsert] ∧
      mergeSamePathSections [spacedInsert, secondInsert] = [⟨utf16 "a", utf16 "»5ab\nx\n\n»9cd\ny"⟩] ∧
      editShapes (fun _ _ ↦ utf16 "zz") spacedInsert.diff =
        [.insert (.afterAnchor ⟨5, utf16 "ab"⟩) (utf16 "x")] ∧
      editShapes (fun _ _ ↦ utf16 "zz") secondInsert.diff =
        [.insert (.afterAnchor ⟨9, utf16 "cd"⟩) (utf16 "y")] ∧
      editShapes (fun _ _ ↦ utf16 "zz") (utf16 "»5ab\nx\n\n»9cd\ny") =
        [.insert (.afterAnchor ⟨5, utf16 "ab"⟩) (utf16 "x"), .insert (.afterAnchor ⟨5, utf16 "ab"⟩) [],
          .insert (.afterAnchor ⟨9, utf16 "cd"⟩) (utf16 "y")] :=
  ⟨rfl, by decide, by decide, by decide, by decide⟩

end

end GajaeCode.Hashline
