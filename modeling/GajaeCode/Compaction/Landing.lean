import GajaeCode.Compaction.CutPoint

/-!
# Where a cut can land

The walk back from the newest entry stops at an entry that adds tokens, and the cut then moves to
the nearest cut point. So a cut cannot land before every cut point: between it and the cut point
before it some entry has to have tokens, unless it is the first or the last one of the window.
-/

namespace GajaeCode.Compaction

open Text Json Session List Option

variable {keep : ℚ} {index found : ℕ}

section

variable {entries : List SessionEntry} {start : ℕ}

/-- The estimated tokens of the entry at an index. -/
def tokensAt (entries : List SessionEntry) (index : ℕ) : ℕ :=
  (entries[index]?.map estimateEntryTokens).getD 0

theorem findBudgetIndex_succ (keep : ℚ) (index accumulated : ℕ) :
    findBudgetIndex entries start keep (index + 1) accumulated = if index < start then none
      else if keep ≤ (accumulated + tokensAt entries index : ℕ) then some index
      else findBudgetIndex entries start keep index (accumulated + tokensAt entries index) := rfl

/-- While the budget is not reached, the walk stops only at an entry that has tokens. -/
theorem findBudgetIndex_spec {accumulated : ℕ}
    (h : findBudgetIndex entries start keep index accumulated = some found) :
    start ≤ found ∧ ((accumulated : ℚ) < keep → 0 < tokensAt entries found) := by
  induction index generalizing accumulated with
  | zero => simp [findBudgetIndex] at h
  | succ index ih =>
    rw [findBudgetIndex_succ] at h
    split_ifs at h with hstart hbudget
    · rw [some.injEq] at h
      refine ⟨by omega, fun hbelow ↦ ?_⟩
      rw [← h, Nat.pos_iff_ne_zero]
      intro hzero
      rw [hzero, Nat.add_zero] at hbudget
      exact absurd hbelow (not_lt.mpr hbudget)
    · exact ⟨(ih h).1, fun _ ↦ (ih h).2 (not_le.mp hbudget)⟩

theorem last_or_tokensAt_pos {stop : ℕ}
    (h : findBudgetIndex entries start keep stop 0 = some found) :
    found + 1 = stop ∨ 0 < tokensAt entries found := by
  cases stop with
  | zero => simp [findBudgetIndex] at h
  | succ =>
    rw [findBudgetIndex_succ] at h
    split_ifs at h with hstart hbudget
    · rw [some.injEq] at h
      exact .inl (by rw [h])
    · exact .inr ((findBudgetIndex_spec h).2 (not_le.mp hbudget))

/-- Every entry that has tokens is where the walk stops for some budget. -/
theorem exists_findBudgetIndex_eq (hstart : start ≤ found)
    (hindex : found < index) (htokens : 0 < tokensAt entries found) (accumulated : ℕ) :
    ∃ keep : ℚ, (accumulated : ℚ) < keep ∧
      findBudgetIndex entries start keep index accumulated = some found := by
  induction index generalizing accumulated with
  | zero => omega
  | succ index ih =>
    by_cases hfound : found = index
    · subst hfound
      refine ⟨(accumulated + tokensAt entries found : ℕ), ?_, ?_⟩
      · exact_mod_cast Nat.lt_add_of_pos_right htokens
      · rw [findBudgetIndex_succ, if_neg (by omega), if_pos (le_refl _)]
    · obtain ⟨keep, hbelow, hwalk⟩ := ih (by omega) (accumulated + tokensAt entries index)
      refine ⟨keep, ?_, ?_⟩
      · have hle : ((accumulated : ℕ) : ℚ) ≤ (accumulated + tokensAt entries index : ℕ) := by
          exact_mod_cast Nat.le_add_right _ _
        exact lt_of_le_of_lt hle hbelow
      · rw [findBudgetIndex_succ, if_neg (by omega), if_neg (not_le.mpr hbelow), hwalk]

theorem findBudgetIndex_zero {stop : ℕ} (h : start < stop) :
    findBudgetIndex entries start 0 stop 0 = some (stop - 1) := by
  obtain ⟨index, rfl⟩ := Nat.exists_eq_succ_of_ne_zero (Nat.ne_of_gt (Nat.zero_lt_of_lt h))
  rw [findBudgetIndex_succ, if_neg (by omega), if_pos (Nat.cast_nonneg _), Nat.succ_sub_one]

/-- A budget above all tokens is never reached. -/
theorem exists_findBudgetIndex_eq_none (index accumulated : ℕ) :
    ∃ bound : ℕ, ∀ keep : ℚ, (bound : ℚ) < keep →
      findBudgetIndex entries start keep index accumulated = none := by
  induction index generalizing accumulated with
  | zero => exact ⟨0, fun _ _ ↦ rfl⟩
  | succ index ih =>
    obtain ⟨bound, hbound⟩ := ih (accumulated + tokensAt entries index)
    refine ⟨max bound (accumulated + tokensAt entries index), fun keep h ↦ ?_⟩
    rw [Nat.cast_max, max_lt_iff] at h
    rw [findBudgetIndex_succ, if_neg (not_le.mpr h.2), hbound keep h.1, ite_self]

end

/-! ## Landing entries -/

section

variable {entries : List SessionEntry} {start stop cut : ℕ}

theorem sorted_findValidCutPoints (entries : List SessionEntry) (start stop : ℕ) :
    (findValidCutPoints entries start stop).Pairwise (· < ·) :=
  Pairwise.filter _ (pairwise_lt_range' 1)

theorem find_eq_some_of_sorted {points : List ℕ} (hsorted : points.Pairwise (· < ·)) {point : ℕ}
    (h : points.find? (index ≤ ·) = some point) :
    index ≤ point ∧ ∀ other ∈ points, other < point → other < index := by
  rw [find?_eq_some_iff_append] at h
  obtain ⟨hidx, front, back, rfl, hfront⟩ := h
  refine ⟨of_decide_eq_true hidx, fun other hother hlt ↦ ?_⟩
  rw [pairwise_append, pairwise_cons] at hsorted
  rcases mem_append.mp hother with hmem | hmem
  · simpa using hfront other hmem
  · rcases mem_cons.mp hmem with rfl | hback
    · exact absurd hlt (lt_irrefl _)
    · exact absurd hlt (hsorted.2.1.1 other hback).not_gt

/-- What a budget that is reached chooses from sorted cut points. -/
theorem chooseCutPoint_some {cutPoints : List ℕ} (hsorted : cutPoints.Pairwise (· < ·))
    (fallback index : ℕ) (hmem : cut ∈ cutPoints) :
    chooseCutPoint cutPoints fallback (some index) = cut ↔
      (index ≤ cut ∧ ∀ other ∈ cutPoints, other < cut → other < index) ∨
        (cut < index ∧ ∀ other ∈ cutPoints, other ≤ cut) := by
  rw [chooseCutPoint]
  cases hfind : cutPoints.find? (index ≤ ·) with
  | some point =>
    obtain ⟨hidx, hbefore⟩ := find_eq_some_of_sorted hsorted hfind
    have hpoint := mem_of_find?_eq_some hfind
    constructor
    · rintro rfl
      exact .inl ⟨hidx, hbefore⟩
    · rintro (⟨hcut, hfirst⟩ | ⟨hcut, hlast⟩)
      · rcases lt_trichotomy point cut with hlt | heq | hgt
        · exact absurd (hfirst point hpoint hlt) hidx.not_gt
        · exact heq
        · exact absurd (hbefore cut hmem hgt) hcut.not_gt
      · exact absurd (hlast point hpoint) (hcut.trans_le hidx).not_ge
  | none =>
    have hbelow : ∀ other ∈ cutPoints, other < index := by
      intro other hother
      simpa using find?_eq_none.mp hfind other hother
    have hne := ne_nil_of_mem hmem
    rw [getD_none, getLastD_eq_getLast?, getLast?_eq_getLast_of_ne_nil hne, getD_some]
    have hlast : ∀ other ∈ cutPoints, other ≤ cutPoints.getLast hne := by
      intro other hother
      exact (hsorted.imp Nat.le_of_lt).rel_getLast hother
    constructor
    · rintro rfl
      exact .inr ⟨hbelow _ hmem, hlast⟩
    · rintro (⟨hcut, -⟩ | ⟨-, hmax⟩)
      · exact absurd (hbelow cut hmem) hcut.not_gt
      · exact le_antisymm (hmax _ (getLast_mem hne)) (hlast cut hmem)

/-- Cut points that some budget cuts at: the first and the last one of the window, and each one
with tokens between the cut point before it and its own entry. -/
structure IsLanding (entries : List SessionEntry) (startIndex endIndex cut : ℕ) : Prop where
  valid : cut ∈ findValidCutPoints entries startIndex endIndex
  reached : (∀ other ∈ findValidCutPoints entries startIndex endIndex, cut ≤ other) ∨
    (∀ other ∈ findValidCutPoints entries startIndex endIndex, other ≤ cut) ∨
    ∃ index, startIndex ≤ index ∧ index ≤ cut ∧ 0 < tokensAt entries index ∧
      ∀ other ∈ findValidCutPoints entries startIndex endIndex, other < cut → other < index

theorem isLanding_chooseCutPoint (hne : findValidCutPoints entries start stop ≠ []) (keep : ℚ) :
    IsLanding entries start stop (chooseCutPoint (findValidCutPoints entries start stop) start
        (findBudgetIndex entries start keep stop 0)) := by
  have hmem := chooseCutPoint_mem start (findBudgetIndex entries start keep stop 0) hne
  have hsorted := sorted_findValidCutPoints entries start stop
  refine ⟨hmem, ?_⟩
  cases hbudget : findBudgetIndex entries start keep stop 0 with
  | none =>
    obtain ⟨first, rest, hlist⟩ := exists_cons_of_ne_nil hne
    rw [hlist, pairwise_cons] at hsorted
    apply Or.inl
    intro other hother
    rw [hlist] at hother ⊢
    rcases mem_cons.mp hother with rfl | hrest
    · exact le_refl _
    · exact (hsorted.1 other hrest).le
  | some index =>
    rw [hbudget] at hmem
    rcases (chooseCutPoint_some hsorted start index hmem).mp rfl with ⟨hidx, hbefore⟩ | ⟨-, hlast⟩
    · rcases last_or_tokensAt_pos hbudget with hend | htokens
      · refine .inr (.inl fun other hother ↦ ?_)
        have hother := mem_findValidCutPoints hother
        omega
      · exact .inr (.inr ⟨index, (findBudgetIndex_spec hbudget).1, hidx, htokens, hbefore⟩)
    · exact .inr (.inl hlast)

/-- Every landing entry is where some budget cuts. -/
theorem IsLanding.exists_budget (h : IsLanding entries start stop cut) :
    ∃ keep : ℚ, chooseCutPoint (findValidCutPoints entries start stop) start
      (findBudgetIndex entries start keep stop 0) = cut := by
  have hsorted := sorted_findValidCutPoints entries start stop
  have hbounds := mem_findValidCutPoints h.valid
  rcases h.reached with hfirst | hlast | ⟨index, hstart, hidx, htokens, hbefore⟩
  · obtain ⟨bound, hbound⟩ := @exists_findBudgetIndex_eq_none entries start stop 0
    refine ⟨(bound + 1 : ℕ), ?_⟩
    rw [hbound _ (by exact_mod_cast Nat.lt_succ_self bound)]
    obtain ⟨first, rest, hlist⟩ := exists_cons_of_ne_nil (ne_nil_of_mem h.valid)
    rw [hlist, pairwise_cons] at hsorted
    have hcut := h.valid
    rw [hlist] at hfirst hcut ⊢
    rcases mem_cons.mp hcut with heq | hrest
    · exact heq.symm
    · exact absurd (hsorted.1 cut hrest) (hfirst first mem_cons_self).not_gt
  · refine ⟨0, ?_⟩
    rw [findBudgetIndex_zero (by omega), chooseCutPoint_some hsorted start _ h.valid]
    by_cases hend : cut = stop - 1
    · exact .inl ⟨hend.ge, fun other _ hother ↦ hother.trans_le hend.le⟩
    · exact .inr ⟨by omega, hlast⟩
  · obtain ⟨keep, -, hbudget⟩ :=
      exists_findBudgetIndex_eq hstart (hidx.trans_lt hbounds.2) htokens 0
    refine ⟨keep, ?_⟩
    rw [hbudget]
    exact (chooseCutPoint_some hsorted start index h.valid).mpr (.inl ⟨hidx, hbefore⟩)

end

/-! ## The bookkeeping before a cut -/

section

variable {entries : List SessionEntry} {start index : ℕ}

theorem entryAt_mono {left right : SessionEntry → Bool} (h : ∀ entry, left entry → right entry)
    (hidx : entryAt entries left index) : entryAt entries right index := by
  rw [entryAt, any_eq_true_iff_get] at hidx ⊢
  obtain ⟨hsome, hleft⟩ := hidx
  exact ⟨hsome, h _ hleft⟩

/-- The entries that the cut does not move over: messages and compactions. -/
def isBarrier (entry : SessionEntry) : Bool := entry.isCompaction || entry.isMessage

/-- `first` is where the run of entries before `index` begins that are neither messages nor
compactions. -/
structure IsRunStart (entries : List SessionEntry) (startIndex index first : ℕ) : Prop where
  start_le : startIndex ≤ first
  le_index : first ≤ index
  run : ∀ between, first ≤ between → between < index → entryAt entries isBarrier between = false
  barrier : first = startIndex ∨ entryAt entries isBarrier (first - 1) = true

theorem isRunStart_includeBookkeeping (h : start ≤ index) :
    IsRunStart entries start index (includeBookkeeping entries start index) := by
  induction index with
  | zero => exact ⟨h, Nat.le_refl 0, fun _ _ hlt ↦ absurd hlt (Nat.not_lt_zero _), .inl (by
      rw [includeBookkeeping]
      omega)⟩
  | succ index ih =>
    rw [includeBookkeeping]
    split_ifs with hstart hbarrier
    · exact ⟨h, Nat.le_refl _, fun _ hge hlt ↦ absurd hlt hge.not_gt, .inl (by omega)⟩
    · exact ⟨h, Nat.le_refl _, fun _ hge hlt ↦ absurd hlt hge.not_gt, .inr hbarrier⟩
    · have ih := ih (by omega)
      refine ⟨ih.start_le, ih.le_index.trans (Nat.le_succ _), fun between hge hlt ↦ ?_, ih.barrier⟩
      rcases Nat.lt_succ_iff_lt_or_eq.mp hlt with hlt | rfl
      · exact ih.run between hge hlt
      · exact eq_false_of_ne_true hbarrier

theorem IsRunStart.unique {first second : ℕ} (hfirst : IsRunStart entries start index first)
    (hsecond : IsRunStart entries start index second) : first = second := by
  have hle {first second} (hfirst : IsRunStart entries start index first)
      (hsecond : IsRunStart entries start index second) : first ≤ second := by
    by_contra hlt
    have hstart := hsecond.start_le
    have hindex := hfirst.le_index
    rcases hfirst.barrier with heq | hbarrier
    · omega
    · rw [hsecond.run (first - 1) (by omega) (by omega)] at hbarrier
      cases hbarrier
  exact le_antisymm (hle hfirst hsecond) (hle hsecond hfirst)

end

/-! ## The chosen cut -/

section

variable {entries : List SessionEntry} {start stop : ℕ}

/-- The result for a cut that is moved back to `first`. -/
def cutResult (entries : List SessionEntry) (startIndex first : ℕ) : CutPointResult :=
  let turnStartIndex :=
    if entryAt entries isUserMessage first then none
    else findTurnStartIndex entries startIndex first
  ⟨first, turnStartIndex, turnStartIndex.isSome⟩

/-- A property of the results for all budgets is one of the runs before the landing entries. -/
theorem forall_findCutPoint_iff {property : CutPointResult → Prop}
    (hempty : findValidCutPoints entries start stop = [] → property ⟨start, none, false⟩) :
    (∀ keep, property (findCutPoint entries start stop keep)) ↔
      ∀ cut first, IsLanding entries start stop cut →
        IsRunStart entries start cut first → property (cutResult entries start first) := by
  constructor
  · intro h cut first hlanding hrun
    obtain ⟨keep, hchoose⟩ := hlanding.exists_budget
    have hresult := h keep
    rw [findCutPoint] at hresult
    rw [if_neg (ne_nil_of_mem hlanding.valid), hchoose,
      (isRunStart_includeBookkeeping (hrun.start_le.trans hrun.le_index)).unique hrun] at hresult
    exact hresult
  · intro h keep
    rw [findCutPoint]
    by_cases hne : findValidCutPoints entries start stop = []
    · rw [if_pos hne]
      exact hempty hne
    · have hlanding := isLanding_chooseCutPoint hne keep
      rw [if_neg hne]
      exact h _ _ hlanding (isRunStart_includeBookkeeping (mem_findValidCutPoints hlanding.valid).1)

end

end GajaeCode.Compaction
