import GajaeCode.Text.Lines
import Mathlib.Data.List.Infix

/-!
# Posix paths

`normalize`, `resolve` and `relative` of the posix path module, over segments. A path lies within
another exactly when the resolved segments of the outer one are the first segments of the inner
one, so the paths around a given path form a chain.
-/

namespace GajaeCode.Text

open List

variable {segs : List JsString} {seg path : JsString}

def slashUnit : UInt16 := 0x2F

def dotSegment : JsString := [0x2E]

def parentSegment : JsString := [0x2E, 0x2E]

def pathSegments (path : JsString) : List JsString := path.splitOn slashUnit

def joinPath (segments : List JsString) : JsString := [slashUnit].intercalate segments

def isAbsolutePath (path : JsString) : Bool := path.head? = some slashUnit

/-- One segment of a path: empty ones and `.` go, `..` takes the segment before it. Above the root
it is dropped, above a relative path it is kept. -/
def normalizeStep (allowAboveRoot : Bool) (done : List JsString) (segment : JsString) :
    List JsString :=
  if segment = [] ∨ segment = dotSegment then done
  else if segment = parentSegment then
    if allowAboveRoot && (done.getLast?.all (· = parentSegment)) then done ++ [segment]
    else done.dropLast
  else done ++ [segment]

def normalizeSegments (allowAboveRoot : Bool) (segments : List JsString) : List JsString :=
  segments.foldl (normalizeStep allowAboveRoot) []

/-- `path.normalize(path)`; a trailing slash stays. -/
def normalizePath (path : JsString) : JsString :=
  let body := joinPath (normalizeSegments (!isAbsolutePath path) (pathSegments path))
  let trailing := path.getLast? = some slashUnit
  if path = [] then dotSegment
  else if body = [] then
    if isAbsolutePath path then [slashUnit] else if trailing then dotSegment ++ [slashUnit] else dotSegment
  else (if isAbsolutePath path then [slashUnit] else []) ++ body ++ (if trailing then [slashUnit] else [])

/-- `path.dirname(path)`: the last segment and the slashes around it go. -/
def directoryName : JsString → JsString
  | [] => dotSegment
  | first :: rest =>
      match (rest.reverse.dropWhile (· = slashUnit)).dropWhile (· ≠ slashUnit) with
      | [] => if first = slashUnit then [slashUnit] else dotSegment
      | _ :: before =>
          if first = slashUnit ∧ before = [] then [slashUnit, slashUnit] else first :: before.reverse

/-- The segments of `path.resolve(path)` in a working directory. -/
def resolvePath (cwd path : JsString) : List JsString :=
  normalizeSegments false ((if isAbsolutePath path then [] else pathSegments cwd) ++ pathSegments path)

/-- How many first items two lists share. -/
def commonLength : List JsString → List JsString → ℕ
  | left :: lefts, right :: rights => if left = right then commonLength lefts rights + 1 else 0
  | _, _ => 0

/-- `path.relative(from, to)`. -/
def relativePath (cwd source target : JsString) : JsString :=
  let sourceSegments := resolvePath cwd source
  let targetSegments := resolvePath cwd target
  let common := commonLength sourceSegments targetSegments
  if source = target then []
  else joinPath (List.replicate (sourceSegments.length - common) parentSegment ++
    targetSegments.drop common)

/-! ## Segments -/

/-- A segment that names something. -/
structure IsSegment (segment : JsString) : Prop where
  ne_nil : segment ≠ []
  ne_parent : segment ≠ parentSegment
  slash_notMem : slashUnit ∉ segment

theorem isSegment_of_mem_normalizeSegments (h : ∀ seg ∈ segs, slashUnit ∉ seg) :
    ∀ seg ∈ normalizeSegments false segs, IsSegment seg := by
  induction segs using reverseRecOn with
  | nil => simp [normalizeSegments]
  | append_singleton segs last ih =>
    rw [forall_mem_append, forall_mem_singleton] at h
    have hdone := ih h.1
    rw [normalizeSegments, foldl_append, foldl_cons, foldl_nil]
    unfold normalizeStep
    split_ifs with hskip hparent habove
    · exact hdone
    · simp at habove
    · exact fun seg hseg ↦ hdone seg (mem_of_mem_dropLast hseg)
    · rw [forall_mem_append, forall_mem_singleton]
      exact ⟨hdone, fun hempty ↦ hskip (.inl hempty), hparent, h.2⟩

theorem isSegment_of_mem_resolvePath {cwd : JsString}
    (h : seg ∈ resolvePath cwd path) : IsSegment seg := by
  apply isSegment_of_mem_normalizeSegments _ seg h
  rw [forall_mem_append]
  refine ⟨?_, fun _ hseg ↦ notMem_of_mem_splitOn hseg⟩
  split_ifs
  · exact forall_mem_nil _
  · exact fun _ hseg ↦ notMem_of_mem_splitOn hseg

theorem pathSegments_append (left right : JsString) :
    pathSegments (left ++ slashUnit :: right) = pathSegments left ++ pathSegments right :=
  splitOn_append_cons_self left right

/-! ## Containment -/

theorem commonLength_le (left right : List JsString) : commonLength left right ≤ left.length := by
  fun_induction commonLength left right with
  | case1 left lefts rights ih => simpa using ih
  | case2 => simp
  | case3 => simp

theorem commonLength_eq_length_iff (left right : List JsString) :
    commonLength left right = left.length ↔ left <+: right := by
  induction left generalizing right with
  | nil => simp [commonLength]
  | cons first rest ih =>
    cases right with
    | nil => simp [commonLength]
    | cons =>
      rw [commonLength, cons_prefix_cons]
      split_ifs with hsame
      · simp [hsame, ih]
      · simp [hsame]

/-- `within(parent, child)`. -/
def within (cwd parent child : JsString) : Bool :=
  let relative := relativePath cwd parent child
  relative = [] || (!(parentSegment ++ [slashUnit]).isPrefixOf relative && relative ≠ parentSegment &&
    !isAbsolutePath relative)

/-- A path that starts with a name is neither absolute nor outside. -/
theorem inside_joinPath (h : ∀ seg ∈ segs, IsSegment seg) :
    joinPath segs = [] ∨ (¬ (parentSegment ++ [slashUnit]) <+: joinPath segs ∧
      joinPath segs ≠ parentSegment ∧ isAbsolutePath (joinPath segs) = false) := by
  cases segs with
  | nil => exact Or.inl rfl
  | cons first rest =>
    right
    have hfirst := h first mem_cons_self
    have hcut : pathSegments (joinPath (first :: rest)) = first :: rest :=
      splitOn_intercalate slashUnit (fun seg hseg ↦ (h seg hseg).slash_notMem) (cons_ne_nil _ _)
    have hparent : pathSegments parentSegment = [parentSegment] :=
      splitOn_eq_singleton (by decide)
    refine ⟨?_, ?_, ?_⟩
    · rintro ⟨tail, htail⟩
      rw [append_assoc, singleton_append] at htail
      rw [← htail, pathSegments_append, hparent, singleton_append, cons.injEq] at hcut
      exact hfirst.ne_parent hcut.1.symm
    · intro hjoin
      rw [hjoin, hparent, cons.injEq] at hcut
      exact hfirst.ne_parent hcut.1.symm
    · cases hjoin : joinPath (first :: rest) with
      | nil => rfl
      | cons unit tail =>
        by_contra habsolute
        have hunit : unit = slashUnit := by simpa [isAbsolutePath] using habsolute
        have hslash := pathSegments_append [] tail
        rw [nil_append, ← hunit, ← hjoin, hcut] at hslash
        exact hfirst.ne_nil (cons.inj hslash).1

/-- A path that starts with `..` is outside. -/
theorem outside_joinPath (segs : List JsString) :
    (parentSegment ++ [slashUnit]) <+: joinPath (parentSegment :: segs) ∨
      joinPath (parentSegment :: segs) = parentSegment := by
  cases segs with
  | nil => exact .inr (by simp [joinPath, intercalate])
  | cons next rest =>
    left
    refine ⟨joinPath (next :: rest), ?_⟩
    rw [joinPath, joinPath, intercalate_cons_cons]

/-- A path is within another when the segments of the outer one start it. -/
theorem within_iff (cwd parent child : JsString) :
    within cwd parent child ↔ resolvePath cwd parent <+: resolvePath cwd child := by
  by_cases hsame : parent = child
  · simp [within, relativePath, hsame]
  have hrelative : relativePath cwd parent child = joinPath (_ ++ _) := if_neg hsame
  have hinside : ∀ seg ∈ resolvePath cwd child, IsSegment seg :=
    fun _ ↦ isSegment_of_mem_resolvePath
  generalize resolvePath cwd parent = outer at *
  generalize resolvePath cwd child = inner at *
  rw [← commonLength_eq_length_iff]
  have hle := commonLength_le outer inner
  constructor
  · intro hwithin
    by_contra hne
    obtain ⟨count, hcount⟩ : ∃ count, outer.length - commonLength outer inner = count + 1 :=
      ⟨_, (Nat.succ_pred_eq_of_pos (by omega)).symm⟩
    rw [hcount, replicate_succ, cons_append] at hrelative
    rw [within, hrelative] at hwithin
    rcases outside_joinPath (replicate count parentSegment ++
        inner.drop (commonLength outer inner)) with houtside | houtside
    · have hstarts := isPrefixOf_iff_prefix.mpr houtside
      simp only [hstarts, Bool.not_true, Bool.false_and, Bool.or_false, decide_eq_true_eq] at hwithin
      rw [hwithin] at houtside
      exact absurd (prefix_nil.mp houtside) (by decide)
    · rw [houtside] at hwithin
      cases hwithin
  · intro hstarts
    rw [hstarts, Nat.sub_self, replicate_zero, nil_append] at hrelative
    have hsegs : ∀ seg ∈ inner.drop outer.length, IsSegment seg :=
      fun seg hseg ↦ hinside seg (mem_of_mem_drop hseg)
    rw [within, hrelative]
    rcases inside_joinPath hsegs with hempty | ⟨hnotPrefix, hnotParent, hnotAbsolute⟩
    · simp [hempty]
    · rw [← isPrefixOf_iff_prefix, Bool.not_eq_true] at hnotPrefix
      simp [hnotPrefix, hnotParent, hnotAbsolute]

/-- Two paths around the same path lie within one another. -/
theorem within_or_within {cwd left right : JsString} (hleft : within cwd left path)
    (hright : within cwd right path) :
    within cwd left right ∨ within cwd right left := by
  rw [within_iff] at hleft hright
  rw [within_iff, within_iff]
  exact prefix_or_prefix_of_prefix hleft hright

end GajaeCode.Text
