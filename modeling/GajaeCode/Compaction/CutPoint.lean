import GajaeCode.Compaction.Settings

/-!
# The cut point of a compaction

`findCutPoint` walks back from the newest entry until enough tokens are kept, moves to a message
at which a conversation may be cut, and then back over the bookkeeping entries before it. When
the cut falls inside a turn, the start of that turn is looked up as well.
-/

namespace GajaeCode.Compaction

open Text Json Session List Option

variable {start : ℕ} {entries : List SessionEntry} (entry : SessionEntry)

/-- The message an entry stands for in a compaction. -/
def getMessageFromEntry : Option SessionMessage :=
  match entry.body with
  | .message message => some ⟨entry.id, message⟩
  | .customMessage customType content details display attribution =>
    some ⟨entry.id,
      createCustomMessage customType content display details entry.timestamp attribution⟩
  | .branchSummary fromId summary =>
    some ⟨entry.id, createBranchSummaryMessage summary fromId entry.timestamp⟩
  | _ => none

def estimateEntryTokens : ℕ :=
  match getMessageFromEntry entry with
  | some message => estimateMessageTokens message.message
  | none => 0

/-- A conversation may be cut before these entries, and never before a tool result. -/
def isValidCutPoint : Bool :=
  match entry.body with
  | .message message =>
    match message.role with
    | .bashExecution | .hookMessage | .branchSummary | .compactionSummary | .user
    | .assistant _ _ => true
    | _ => false
  | .branchSummary _ _ | .customMessage _ _ _ _ _ => true
  | _ => false

/-- The entry at an index satisfies a test. -/
def entryAt (entries : List SessionEntry) (test : SessionEntry → Bool) (index : ℕ) : Bool :=
  entries[index]?.any test

def findValidCutPoints (entries : List SessionEntry) (startIndex endIndex : ℕ) : List ℕ :=
  (List.range' startIndex (endIndex - startIndex)).filter (entryAt entries isValidCutPoint)

/-- Entries that a user turn can start with. -/
def startsTurn : Bool :=
  match entry.body with
  | .branchSummary _ _ | .customMessage _ _ _ _ _ => true
  | .message message => message.role = .user || message.role = .bashExecution
  | _ => false

/-- The entry at or before `index` that starts its turn. -/
def findTurnStartIndex (entries : List SessionEntry) (startIndex : ℕ) : ℕ → Option ℕ
  | 0 => if startIndex = 0 ∧ entryAt entries startsTurn 0 then some 0 else none
  | index + 1 =>
    if index + 1 < startIndex then none
    else if entryAt entries startsTurn (index + 1) then some (index + 1)
    else findTurnStartIndex entries startIndex index

/-- Walking back from `index`, the entry at which the kept tokens reach the budget. -/
def findBudgetIndex (entries : List SessionEntry) (startIndex : ℕ) (keepRecentTokens : ℚ) :
    ℕ → ℕ → Option ℕ
  | 0, _ => none
  | index + 1, accumulatedTokens =>
    if index < startIndex then none
    else
      let accumulatedTokens :=
        accumulatedTokens + (entries[index]?.map estimateEntryTokens).getD 0
      if keepRecentTokens ≤ accumulatedTokens then some index
      else findBudgetIndex entries startIndex keepRecentTokens index accumulatedTokens

/-- The cut point closest after the budget index, the last one if there is none. -/
def chooseCutPoint (cutPoints : List ℕ) (fallback : ℕ) : Option ℕ → ℕ
  | none => cutPoints.headD fallback
  | some index => (cutPoints.find? (index ≤ ·)).getD (cutPoints.getLastD fallback)

/-- Moves a cut back over entries that are neither messages nor compactions. -/
def includeBookkeeping (entries : List SessionEntry) (startIndex : ℕ) : ℕ → ℕ
  | 0 => 0
  | index + 1 =>
    if index + 1 ≤ startIndex then index + 1
    else if entryAt entries (fun entry ↦ entry.isCompaction || entry.isMessage) index then index + 1
    else includeBookkeeping entries startIndex index

structure CutPointResult where
  firstKeptEntryIndex : ℕ
  turnStartIndex : Option ℕ
  isSplitTurn : Bool
  deriving DecidableEq

def isUserMessage : Bool :=
  match entry.body with
  | .message message => message.role = .user
  | _ => false

def findCutPoint (entries : List SessionEntry) (startIndex endIndex : ℕ) (keepRecentTokens : ℚ) :
    CutPointResult :=
  let cutPoints := findValidCutPoints entries startIndex endIndex
  if cutPoints = [] then ⟨startIndex, none, false⟩
  else
    let cutIndex := includeBookkeeping entries startIndex
      (chooseCutPoint cutPoints startIndex
        (findBudgetIndex entries startIndex keepRecentTokens endIndex 0))
    let turnStartIndex :=
      if entryAt entries isUserMessage cutIndex then none
      else findTurnStartIndex entries startIndex cutIndex
    ⟨cutIndex, turnStartIndex, turnStartIndex.isSome⟩

/-! ## Bounds -/

theorem mem_findValidCutPoints {endIndex idx : ℕ}
    (h : idx ∈ findValidCutPoints entries start endIndex) :
    start ≤ idx ∧ idx < endIndex := by
  rw [findValidCutPoints, mem_filter, mem_range'_1] at h
  omega

theorem findTurnStartIndex_bounds :
    ∀ {index turnStart : ℕ}, findTurnStartIndex entries start index = some turnStart →
      start ≤ turnStart ∧ turnStart ≤ index := by
  intro index
  induction index with
  | zero =>
    intro turnStart h
    simp only [findTurnStartIndex, ite_none_right_eq_some, some.injEq] at h
    omega
  | succ index ih =>
    intro turnStart h
    rw [findTurnStartIndex] at h
    split_ifs at h with hstart hturn
    · rw [some.injEq] at h
      omega
    · have hbounds := ih h
      omega

theorem chooseCutPoint_mem {cutPoints : List ℕ} (fallback : ℕ) (budgetIndex : Option ℕ)
    (hne : cutPoints ≠ []) : chooseCutPoint cutPoints fallback budgetIndex ∈ cutPoints := by
  cases budgetIndex with
  | none =>
    rw [chooseCutPoint, headD_eq_head?_getD, head?_eq_some_head hne, getD_some]
    exact head_mem hne
  | some idx =>
    rw [chooseCutPoint]
    cases hfind : cutPoints.find? (idx ≤ ·) with
    | some => exact mem_of_find?_eq_some hfind
    | none =>
      rw [getD_none, getLastD_eq_getLast?, getLast?_eq_getLast_of_ne_nil hne, getD_some]
      exact getLast_mem hne

theorem includeBookkeeping_bounds (entries : List SessionEntry) :
    ∀ {index : ℕ}, start ≤ index → start ≤ includeBookkeeping entries start index ∧
        includeBookkeeping entries start index ≤ index := by
  intro index
  induction index with
  | zero =>
    intro h
    exact ⟨h, Nat.le_refl 0⟩
  | succ index ih =>
    intro h
    rw [includeBookkeeping]
    split_ifs with hstart hstop
    · exact ⟨h, Nat.le_refl _⟩
    · exact ⟨h, Nat.le_refl _⟩
    · have hbounds := ih (by omega)
      exact ⟨hbounds.1, Nat.le_succ_of_le hbounds.2⟩

/-- A cut lies in its range, and the turn it splits starts between the range's start and it. -/
structure CutPointResult.InRange (cut : CutPointResult) (startIndex endIndex : ℕ) : Prop where
  start_le : startIndex ≤ cut.firstKeptEntryIndex
  le_end : cut.firstKeptEntryIndex ≤ endIndex
  turn : ∀ turnStart ∈ cut.turnStartIndex,
    startIndex ≤ turnStart ∧ turnStart ≤ cut.firstKeptEntryIndex
  split : cut.isSplitTurn = cut.turnStartIndex.isSome

theorem findCutPoint_inRange (entries : List SessionEntry) {endIndex : ℕ}
    (h : start ≤ endIndex) (keep : ℚ) :
    (findCutPoint entries start endIndex keep).InRange start endIndex := by
  rw [findCutPoint]
  split_ifs with hcut
  · exact ⟨Nat.le_refl _, h, fun _ hturn ↦ absurd hturn (not_mem_none _), rfl⟩
  · have hchosen := mem_findValidCutPoints (chooseCutPoint_mem start
      (findBudgetIndex entries start keep endIndex 0) hcut)
    have hbounds := includeBookkeeping_bounds entries hchosen.1
    refine ⟨hbounds.1, hbounds.2.trans hchosen.2.le, ?_, rfl⟩
    intro turnStart hturn
    simp only [mem_def, ite_none_left_eq_some] at hturn
    exact findTurnStartIndex_bounds hturn.2

end GajaeCode.Compaction
