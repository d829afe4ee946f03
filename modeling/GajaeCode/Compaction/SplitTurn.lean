import GajaeCode.Compaction.Landing

/-!
# The split-turn flag

A cut splits a turn when the first message it keeps does not start one. `findCutPoint` decides this
from the entry it cuts before: it asks whether that entry is a user message, and looks for a turn
start from that entry backwards. Bookkeeping before a message, and turns that start with something
other than a user message, are then taken for the middle of a turn.
-/

namespace GajaeCode.Compaction

open Text Json Session Bool Option

variable {idx : ℕ} {entry : SessionEntry}

/-- An entry that puts a message into the context. -/
def producesContext (entry : SessionEntry) : Bool := (getMessageFromEntry entry).isSome

/-- The first entry at or after `index` that puts a message into the context. -/
structure IsFirstContext (entries : List SessionEntry) (index first : ℕ) : Prop where
  index_le : index ≤ first
  context : entryAt entries producesContext first = true
  before : ∀ between, index ≤ between → between < first → entryAt entries producesContext between = false

/-- The last turn start of the window before `index`. -/
structure IsLatestTurnStart (entries : List SessionEntry) (startIndex index turn : ℕ) : Prop where
  start_le : startIndex ≤ turn
  lt_index : turn < index
  starts : entryAt entries startsTurn turn = true
  latest : ∀ between, turn < between → between < index → entryAt entries startsTurn between = false

/-- The flag is set exactly for a cut in the middle of a turn, and then the start of that turn is
reported. -/
structure SplitFlagExact (entries : List SessionEntry) (startIndex : ℕ) (cut : CutPointResult) : Prop where
  flag : cut.isSplitTurn = true ↔
    ∃ first, IsFirstContext entries cut.firstKeptEntryIndex first ∧
      entryAt entries startsTurn first = false ∧
      ∃ turn, startIndex ≤ turn ∧ turn < first ∧ entryAt entries startsTurn turn = true
  turn : cut.isSplitTurn = true → ∃ turn, cut.turnStartIndex = some turn ∧
    IsLatestTurnStart entries startIndex cut.firstKeptEntryIndex turn

/-- A message that is kept first at `first`, behind a run of bookkeeping from `run` on: a turn start
is a user message when nothing of the run stands before it, and otherwise opens the window. -/
def KeepsTurnStart (entries : List SessionEntry) (startIndex run first : ℕ) : Prop :=
  entryAt entries startsTurn first = true →
    if run = first then entryAt entries isUserMessage first = true
    else ∀ turn, startIndex ≤ turn → turn < run → entryAt entries startsTurn turn = false

section

variable {entries : List SessionEntry} {startIndex endIndex : ℕ}

theorem findTurnStartIndex_eq_none_iff : findTurnStartIndex entries startIndex idx = none ↔
      ∀ turn, startIndex ≤ turn → turn ≤ idx → entryAt entries startsTurn turn = false := by
  induction idx with
  | zero =>
    rw [findTurnStartIndex]
    constructor
    · intro h turn hstart hturn
      have hzero : turn = 0 := Nat.le_zero.mp hturn
      subst hzero
      split_ifs at h with hif
      apply eq_false_of_ne_true
      intro hstarts
      exact hif ⟨Nat.le_zero.mp hstart, hstarts⟩
    · intro h
      apply if_neg
      rintro ⟨hstart, hstarts⟩
      rw [h 0 hstart.le (Nat.le_refl 0)] at hstarts
      cases hstarts
  | succ idx ih =>
    rw [findTurnStartIndex]
    split_ifs with hstart hstarts
    · refine ⟨fun _ turn hge hle ↦ ?_, fun _ ↦ rfl⟩
      omega
    · refine ⟨fun h ↦ absurd h not_false, fun h ↦ ?_⟩
      rw [h (idx + 1) (by omega) (Nat.le_refl _)] at hstarts
      cases hstarts
    · rw [ih]
      constructor
      · intro h turn hge hle
        rcases Nat.le_succ_iff.mp hle with hle | rfl
        · exact h turn hge hle
        · exact eq_false_of_ne_true hstarts
      · intro h turn hge hle
        exact h turn hge (hle.trans (Nat.le_succ _))

theorem isLatestTurnStart_of_findTurnStartIndex {turn : ℕ}
    (h : findTurnStartIndex entries startIndex idx = some turn) :
    IsLatestTurnStart entries startIndex (idx + 1) turn := by
  induction idx with
  | zero =>
    rw [findTurnStartIndex] at h
    split_ifs at h with hif
    rw [some.injEq] at h
    subst h
    exact ⟨hif.1.le, Nat.zero_lt_one, hif.2, fun _ hge hlt ↦ by omega⟩
  | succ idx ih =>
    rw [findTurnStartIndex] at h
    split_ifs at h with hstart hstarts
    · rw [some.injEq] at h
      subst h
      exact ⟨by omega, Nat.lt_succ_self _, hstarts, fun _ hge hlt ↦ by omega⟩
    · have ih := ih h
      refine ⟨ih.start_le, ih.lt_index.trans (Nat.lt_succ_self _), ih.starts, fun between hlow hhigh ↦ ?_⟩
      rcases Nat.lt_succ_iff_lt_or_eq.mp hhigh with hlt | rfl
      · exact ih.latest between hlow hlt
      · exact eq_false_of_ne_true hstarts

theorem producesContext_of_turn (h : startsTurn entry ∨ isValidCutPoint entry) :
    producesContext entry := by
  obtain ⟨id, parentId, timestamp, body⟩ := entry
  cases body with
  | message | branchSummary | customMessage => rfl
  | _ => exact h.elim (absurd · false_ne_true) (absurd · false_ne_true)

theorem startsTurn_of_isUserMessage (h : isUserMessage entry) : startsTurn entry := by
  obtain ⟨id, parentId, timestamp, body⟩ := entry
  cases body with
  | message message =>
    have hrole : message.role = .user := of_decide_eq_true h
    simp [startsTurn, hrole]
  | _ => cases h

theorem entryAt_eq_false {left right : SessionEntry → Bool}
    (h : ∀ entry, left entry → right entry) (hidx : entryAt entries right idx = false) :
    entryAt entries left idx = false := by
  apply eq_false_of_ne_true
  intro hleft
  rw [entryAt_mono h hleft] at hidx
  cases hidx

theorem IsFirstContext.unique {first second : ℕ} (hfirst : IsFirstContext entries idx first)
    (hsecond : IsFirstContext entries idx second) : first = second := by
  have hle {first second} (hfirst : IsFirstContext entries idx first)
      (hsecond : IsFirstContext entries idx second) : first ≤ second := by
    by_contra hlt
    have hcontext := hsecond.context
    rw [hfirst.before second hsecond.index_le (not_le.mp hlt)] at hcontext
    cases hcontext
  exact le_antisymm (hle hfirst hsecond) (hle hsecond hfirst)

theorem exists_isFirstContext {cut : ℕ} (hle : idx ≤ cut)
    (hcut : entryAt entries producesContext cut) : ∃ first, IsFirstContext entries idx first := by
  have hexists : ∃ first, idx ≤ first ∧ entryAt entries producesContext first := ⟨cut, hle, hcut⟩
  obtain ⟨hidx, hctx⟩ := Nat.find_spec hexists
  refine ⟨Nat.find hexists, hidx, hctx, fun between hbetween hlt ↦ ?_⟩
  apply eq_false_of_ne_true
  intro hproduces
  exact Nat.find_min hexists hlt ⟨hbetween, hproduces⟩

variable {run first : ℕ}

theorem IsFirstContext.not_startsTurn (h : IsFirstContext entries run first)
    (hrun : run ≤ idx) (hlt : idx < first) : entryAt entries startsTurn idx = false :=
  entryAt_eq_false (fun _ h ↦ producesContext_of_turn (.inl h)) (h.before idx hrun hlt)

/-- Before an entry that does not start a turn, the turn is looked up. -/
theorem turnStartIndex_cutResult (hstarts : entryAt entries startsTurn run = false) :
    (cutResult entries startIndex run).turnStartIndex = findTurnStartIndex entries startIndex run := by
  have huser : entryAt entries isUserMessage run = false :=
    entryAt_eq_false (fun _ ↦ startsTurn_of_isUserMessage) hstarts
  rw [cutResult, huser]
  rfl

/-- No turn is reported for a cut whose first message starts one exactly when it keeps its turn. -/
theorem turnStartIndex_cutResult_eq_none_iff (h : IsFirstContext entries run first)
    (hstarts : entryAt entries startsTurn first) (hstart : startIndex ≤ run) :
    (cutResult entries startIndex run).turnStartIndex = none ↔
      KeepsTurnStart entries startIndex run first := by
  rcases Nat.lt_or_eq_of_le h.index_le with hlt | rfl
  · have hrun := h.not_startsTurn (Nat.le_refl run) hlt
    rw [turnStartIndex_cutResult hrun, findTurnStartIndex_eq_none_iff, KeepsTurnStart, if_neg hlt.ne]
    constructor
    · intro hnone _ turn hge hturn
      exact hnone turn hge hturn.le
    · intro hkeeps turn hge hle
      rcases Nat.lt_or_eq_of_le hle with hbefore | rfl
      · exact hkeeps hstarts turn hge hbefore
      · exact hrun
  · rw [KeepsTurnStart, if_pos rfl, cutResult]
    split_ifs with huser
    · exact ⟨fun _ _ ↦ huser, fun _ ↦ rfl⟩
    · rw [findTurnStartIndex_eq_none_iff]
      refine ⟨fun hnone ↦ ?_, fun hkeeps ↦ absurd (hkeeps hstarts) huser⟩
      rw [hnone run hstart (Nat.le_refl run)] at hstarts
      cases hstarts

theorem splitFlagExact_cutResult_iff (h : IsFirstContext entries run first) (hstart : startIndex ≤ run) :
    SplitFlagExact entries startIndex (cutResult entries startIndex run) ↔
      KeepsTurnStart entries startIndex run first := by
  have hsplit : (cutResult entries startIndex run).isSplitTurn =
    (cutResult entries startIndex run).turnStartIndex.isSome := rfl
  by_cases hstarts : entryAt entries startsTurn first
  · rw [← turnStartIndex_cutResult_eq_none_iff h hstarts hstart]
    constructor
    · intro hexact
      by_contra hsome
      obtain ⟨other, hother, hnot, -⟩ := hexact.flag.mp (hsplit.trans (isSome_iff_ne_none.mpr hsome))
      rw [← h.unique hother, hstarts] at hnot
      cases hnot
    · intro hnone
      have hfalse : (cutResult entries startIndex run).isSplitTurn = false := by
        rw [hsplit, hnone, isSome_none]
      refine ⟨⟨fun hflag ↦ ?_, ?_⟩, fun hflag ↦ ?_⟩
      · rw [hfalse] at hflag
        cases hflag
      · rintro ⟨other, hother, hnot, -⟩
        rw [← h.unique hother, hstarts] at hnot
        cases hnot
      · rw [hfalse] at hflag
        cases hflag
  · have hstarts := eq_false_of_ne_true hstarts
    have hrun : entryAt entries startsTurn run = false := by
      rcases Nat.lt_or_eq_of_le h.index_le with hlt | rfl
      · exact h.not_startsTurn (Nat.le_refl run) hlt
      · exact hstarts
    have hturn := @turnStartIndex_cutResult entries startIndex run hrun
    refine ⟨fun _ hyes ↦ ?_, fun _ ↦ ⟨?_, fun hflag ↦ ?_⟩⟩
    · rw [hstarts] at hyes
      cases hyes
    · rw [hsplit, hturn, isSome_iff_ne_none, Ne, findTurnStartIndex_eq_none_iff]
      simp only [not_forall, Bool.not_eq_false, exists_prop]
      constructor
      · rintro ⟨turn, hge, hle, hyes⟩
        exact ⟨first, h, hstarts, turn, hge, by
          have hfirst := h.index_le
          rcases Nat.lt_or_eq_of_le hle with hlt | rfl
          · omega
          · rw [hrun] at hyes
            exact absurd hyes false_ne_true, hyes⟩
      · rintro ⟨other, hother, -, turn, hge, hlt, hyes⟩
        rw [← h.unique hother] at hlt
        refine ⟨turn, hge, ?_, hyes⟩
        by_contra hgt
        rw [h.not_startsTurn (by omega) hlt] at hyes
        cases hyes
    · rw [hsplit, hturn, isSome_iff_exists] at hflag
      obtain ⟨turn, hfound⟩ := hflag
      have hlatest := isLatestTurnStart_of_findTurnStartIndex hfound
      refine ⟨turn, hturn.trans hfound, hlatest.start_le, ?_, hlatest.starts,
        fun between hlow hhigh ↦ hlatest.latest between hlow (hhigh.trans (Nat.lt_succ_self _))⟩
      rcases Nat.lt_succ_iff_lt_or_eq.mp hlatest.lt_index with hlt | rfl
      · exact hlt
      · have hyes := hlatest.starts
        rw [hrun] at hyes
        cases hyes

end

/-- Whatever the budget, the flag is exact precisely when at every place where a cut can land the
message that is kept first keeps its turn. -/
theorem splitFlagExact_iff (entries : List SessionEntry) (startIndex endIndex : ℕ) :
    (∀ keepRecentTokens,
      SplitFlagExact entries startIndex (findCutPoint entries startIndex endIndex keepRecentTokens)) ↔
      ∀ cut run first, IsLanding entries startIndex endIndex cut →
        IsRunStart entries startIndex cut run → IsFirstContext entries run first →
          KeepsTurnStart entries startIndex run first := by
  have hempty : findValidCutPoints entries startIndex endIndex = [] →
      SplitFlagExact entries startIndex ⟨startIndex, none, false⟩ := by
    intro _
    refine ⟨⟨fun hflag ↦ absurd hflag false_ne_true, ?_⟩, fun hflag ↦ absurd hflag false_ne_true⟩
    rintro ⟨first, hfirst, -, turn, hstart, hlt, hyes⟩
    rw [hfirst.not_startsTurn hstart hlt] at hyes
    cases hyes
  rw [forall_findCutPoint_iff hempty]
  constructor
  · intro h cut run first hlanding hrun hfirst
    exact (splitFlagExact_cutResult_iff hfirst hrun.start_le).mp (h cut run hlanding hrun)
  · intro h cut run hlanding hrun
    have hcut : entryAt entries producesContext cut = true :=
      entryAt_mono (fun _ h ↦ producesContext_of_turn (.inr h)) (List.mem_filter.mp hlanding.valid).2
    obtain ⟨first, hfirst⟩ := exists_isFirstContext hrun.le_index hcut
    exact (splitFlagExact_cutResult_iff hfirst hrun.start_le).mpr (h cut run first hlanding hrun hfirst)

/-- The model is changed between two turns. -/
def changedModel : List SessionEntry :=
  [⟨utf16 "a", none, [], .message ⟨.user, [(utf16 "content", .str (utf16 "one"))], none⟩⟩,
    ⟨utf16 "b", some (utf16 "a"), [], .modelChange (utf16 "p/m") none false⟩,
    ⟨utf16 "c", some (utf16 "b"), [], .message ⟨.user, [(utf16 "content", .str (utf16 "two"))], none⟩⟩]

/-- The kept messages start with a whole turn, and the cut is reported to split the turn before. -/
theorem whole_turn_reported_split : findCutPoint changedModel 0 3 1 = ⟨1, some 0, true⟩ ∧
      ¬ SplitFlagExact changedModel 0 (findCutPoint changedModel 0 3 1) := by
  have hcut : findCutPoint changedModel 0 3 1 = ⟨1, some 0, true⟩ := by decide +kernel
  refine ⟨hcut, fun hexact ↦ ?_⟩
  obtain ⟨first, hfirst, hnot, -⟩ := hexact.flag.mp rfl
  have hsecond : IsFirstContext changedModel 1 2 := by
    refine ⟨by decide, by decide, fun between hlow hhigh ↦ ?_⟩
    obtain rfl : between = 1 := by omega
    decide
  rw [hfirst.unique hsecond] at hnot
  cases hnot

end GajaeCode.Compaction
