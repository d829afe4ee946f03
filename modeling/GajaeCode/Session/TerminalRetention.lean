import GajaeCode.Text.Utf16
import Mathlib.Algebra.GroupWithZero.Nat
import Mathlib.Data.List.Sort

/-!
# Bounded retention of terminal scopes

A terminal-state write evicts the oldest completed scope rows past a cap and keeps a tombstone for
each. Eviction and tombstones are two passes that know a row only by its pair of hashes.
-/

namespace GajaeCode.Session

open Text List

inductive OwnedWorkDisposition
  | notRequested | leftRunning | stopped | uncertain

inductive ResponseState
  | pending | sent | delivered | failed

structure EvictedTerminalKey where
  keyHash : JsString
  inputHash : JsString
  turnDisposition : JsString
  ownedWorkDisposition : OwnedWorkDisposition
  responseState : Option ResponseState
  responsePayloadHash : Option JsString
  replayPayloadHash : Option JsString
  terminalPublished : Option Bool

structure DurableScopeRetentionRow (τ : Type*) where
  idempotencyKeyHash : Option JsString := none
  idempotencyInputHash : Option JsString := none
  turnDisposition : JsString
  acceptedAt : Option τ := none
  ownedWorkDisposition : Option OwnedWorkDisposition := none
  responseState : Option ResponseState := none
  responsePayloadHash : Option JsString := none
  replayPayloadHash : Option JsString := none
  terminalPublished : Option Bool := none

structure TerminalRetention (τ κ : Type*) where
  scopes : List (DurableScopeRetentionRow τ)
  keys : List (κ ⊕ EvictedTerminalKey)

namespace DurableScopeRetentionRow

variable {τ κ : Type*}

/-- The row is neither a pending marker nor a reservation in flight. -/
def isCompleted (row : DurableScopeRetentionRow τ) : Bool :=
  row.turnDisposition ≠ utf16 "pending" ∧ row.turnDisposition ≠ utf16 "no_effect_reserved"

def retentionKey (row : DurableScopeRetentionRow τ) : JsString :=
  row.idempotencyKeyHash.getD [] ++ 0 :: row.idempotencyInputHash.getD []

/-- The tombstone of a row with both hashes; an empty hash counts as missing. -/
def evictedKey (row : DurableScopeRetentionRow τ) : Option EvictedTerminalKey :=
  match row.idempotencyKeyHash, row.idempotencyInputHash with
  | some keyHash, some inputHash =>
    if keyHash ≠ [] ∧ inputHash ≠ [] then
      some ⟨keyHash, inputHash, row.turnDisposition, row.ownedWorkDisposition.getD .notRequested,
        row.responseState, row.responsePayloadHash, row.replayPayloadHash, row.terminalPublished⟩
    else none
  | _, _ => none

def collectEvictedTerminalKeys (before after : List (DurableScopeRetentionRow τ)) :
    List EvictedTerminalKey :=
  (before.filter isCompleted).filterMap fun row ↦
    if row.retentionKey ∈ after.map retentionKey then none else row.evictedKey

def boundEvictedTerminalKeys (keys : List κ) (cap : ℕ) : List κ :=
  if keys.length ≤ cap then keys else keys.drop (keys.length - cap)

def maxRetainedTerminalKeyTombstones : ℕ := 4096

theorem boundEvictedTerminalKeys_subset (keys : List κ) (cap : ℕ) :
    boundEvictedTerminalKeys keys cap ⊆ keys := by
  unfold boundEvictedTerminalKeys
  split_ifs
  · exact Subset.refl keys
  · exact drop_subset _ keys

theorem retentionKey_of_evictedKey {row : DurableScopeRetentionRow τ}
    {tombstone : EvictedTerminalKey}
    (h : row.evictedKey = some tombstone) :
    row.retentionKey = tombstone.keyHash ++ 0 :: tombstone.inputHash := by
  unfold evictedKey at h
  split at h
  · next hkey hinput =>
    obtain ⟨-, h⟩ := Option.ite_none_right_eq_some.mp h
    cases h
    rw [retentionKey, hkey, hinput]
    rfl
  · cases h

variable [LinearOrder τ] [Zero τ]

def acceptedTime (row : DurableScopeRetentionRow τ) : τ := row.acceptedAt.getD 0

variable (rows : List (DurableScopeRetentionRow τ)) (cap : ℕ)

/-- The completed rows, oldest first; rows of one time keep their order. -/
def byAcceptance : List (DurableScopeRetentionRow τ) :=
  (rows.filter isCompleted).insertionSort (Order.Preimage acceptedTime (· ≤ ·))

def overflowRows : List (DurableScopeRetentionRow τ) :=
  (byAcceptance rows).take ((rows.filter isCompleted).length - cap)

def latestRows : List (DurableScopeRetentionRow τ) :=
  (byAcceptance rows).drop ((rows.filter isCompleted).length - cap)

def evicts (row : DurableScopeRetentionRow τ) : Bool :=
  row.isCompleted && row.retentionKey ∈ (overflowRows rows cap).map retentionKey

def boundCompletedTerminalScopeRows : List (DurableScopeRetentionRow τ) :=
  if (rows.filter isCompleted).length ≤ cap then rows else rows.filter (!evicts rows cap ·)

def boundTerminalRetentionState (priorKeys : List κ) (nextScopes : List (DurableScopeRetentionRow τ))
    (maxScopes : ℕ) : TerminalRetention τ κ :=
  let scopes := boundCompletedTerminalScopeRows nextScopes maxScopes
  let evicted := collectEvictedTerminalKeys nextScopes scopes
  ⟨scopes, boundEvictedTerminalKeys (priorKeys.map .inl ++ evicted.map .inr)
    maxRetainedTerminalKeyTombstones⟩

/-- All rows but the evicted ones are kept: every row in flight, in order, and the latest completed
ones up to the cap. Each evicted row with both hashes leaves one tombstone. -/
structure RetainsLatest (priorKeys : List κ) (result : TerminalRetention τ κ)
    (evicted : List (DurableScopeRetentionRow τ)) : Prop where
  split : (result.scopes ++ evicted).Perm rows
  inFlight : result.scopes.filter (!isCompleted ·) = rows.filter (!isCompleted ·)
  count : (result.scopes.filter isCompleted).length = min cap (rows.filter isCompleted).length
  latest : ∀ gone ∈ evicted, ∀ row ∈ result.scopes.filter isCompleted,
    gone.acceptedTime ≤ row.acceptedTime
  keys : result.keys = priorKeys.map .inl ++ (evicted.filterMap evictedKey).map .inr

/-- No row that should stay has the key of a row past the cap; a row in flight may share the key
of one that leaves no tombstone. -/
structure OverflowApart : Prop where
  latest : ∀ gone ∈ overflowRows rows cap, ∀ row ∈ latestRows rows cap,
    row.retentionKey ≠ gone.retentionKey
  inFlight : ∀ gone ∈ overflowRows rows cap, gone.evictedKey.isSome = true →
    ∀ row ∈ rows, row.isCompleted = false → row.retentionKey ≠ gone.retentionKey

/-! ## Which rows leave -/

theorem completed_perm :
    (rows.filter isCompleted).Perm (overflowRows rows cap ++ latestRows rows cap) := by
  rw [overflowRows, latestRows, take_append_drop]
  exact (perm_insertionSort _ _).symm

theorem scopes_eq :
    boundCompletedTerminalScopeRows rows cap = rows.filter (!evicts rows cap ·) := by
  unfold boundCompletedTerminalScopeRows
  split_ifs with hfits
  · simp [evicts, overflowRows, Nat.sub_eq_zero_of_le hfits]
  · rfl

variable {rows cap} {row gone : DurableScopeRetentionRow τ}

theorem mem_scopes_iff : row ∈ boundCompletedTerminalScopeRows rows cap ↔
    row ∈ rows ∧ evicts rows cap row = false := by
  simp [scopes_eq]

theorem acceptedTime_le (hgone : gone ∈ overflowRows rows cap) (hrow : row ∈ latestRows rows cap) :
    gone.acceptedTime ≤ row.acceptedTime := by
  have hsorted := pairwise_insertionSort
    (Order.Preimage (@acceptedTime τ _) (· ≤ ·)) (rows.filter isCompleted)
  rw [← take_append_drop ((rows.filter isCompleted).length - cap)
    (insertionSort _ _), pairwise_append] at hsorted
  exact hsorted.2.2 gone hgone row hrow

theorem mem_overflowRows_or_latestRows_iff :
    row ∈ overflowRows rows cap ∨ row ∈ latestRows rows cap ↔ row ∈ rows ∧ row.isCompleted := by
  rw [← mem_append, ← (completed_perm rows cap).mem_iff, mem_filter]

theorem evicts_overflowRows (h : row ∈ overflowRows rows cap) : evicts rows cap row := by
  rw [evicts, (mem_overflowRows_or_latestRows_iff.mp (.inl h)).2, Bool.true_and, decide_eq_true_iff]
  exact mem_map_of_mem h

theorem evicts_eq_false_iff (h : row ∈ latestRows rows cap) : evicts rows cap row = false ↔
    ∀ gone ∈ overflowRows rows cap, row.retentionKey ≠ gone.retentionKey := by
  simp [evicts, (mem_overflowRows_or_latestRows_iff.mp (.inr h)).2, eq_comm]

/-- The cap is kept exactly when no latest row has the key of an overflow row. -/
theorem length_completed_scopes_eq_iff :
    ((boundCompletedTerminalScopeRows rows cap).filter isCompleted).length =
        min cap (rows.filter isCompleted).length ↔
      ∀ row ∈ latestRows rows cap, evicts rows cap row = false := by
  have hscopes := (completed_perm rows cap).filter (!evicts rows cap ·)
  have hnone : (overflowRows rows cap).filter (!evicts rows cap ·) = [] := by
    rw [filter_eq_nil_iff]
    intro row hrow
    simp [evicts_overflowRows hrow]
  have hlen : (latestRows rows cap).length = min cap (rows.filter isCompleted).length := by
    rw [latestRows, byAcceptance, length_drop, length_insertionSort]
    omega
  rw [filter_append, hnone, nil_append, filter_comm, ← scopes_eq] at hscopes
  rw [hscopes.length_eq, ← hlen, length_filter_eq_length_iff]
  simp

section

variable (h : OverflowApart rows cap)

include h

theorem evicts_latestRows (hrow : row ∈ latestRows rows cap) : evicts rows cap row = false :=
  (evicts_eq_false_iff hrow).mpr fun gone hgone ↦ h.latest gone hgone row hrow

theorem filter_evicts_perm : (rows.filter (evicts rows cap)).Perm (overflowRows rows cap) := by
  have hperm := (completed_perm rows cap).filter (evicts rows cap)
  have hnone : (latestRows rows cap).filter (evicts rows cap) = [] := by
    rw [filter_eq_nil_iff]
    intro row hrow
    simp [evicts_latestRows h hrow]
  rw [filter_append, filter_eq_self.mpr fun _ ↦ evicts_overflowRows, hnone,
    append_nil, filter_filter] at hperm
  refine (Perm.of_eq (filter_congr fun row _ ↦ ?_)).trans hperm
  cases hopen : row.isCompleted <;> simp [evicts, hopen]

/-- An evicted row leaves its tombstone when no row in flight has its key. -/
theorem collectEvictedTerminalKeys_eq :
    collectEvictedTerminalKeys rows (boundCompletedTerminalScopeRows rows cap) =
      (rows.filter (evicts rows cap)).filterMap evictedKey := by
  rw [collectEvictedTerminalKeys, filterMap_filter, filterMap_filter]
  apply filterMap_congr
  intro row hrow
  cases hevicts : evicts rows cap row with
  | false =>
    have hkept := mem_scopes_iff.mpr ⟨hrow, hevicts⟩
    simp [mem_map_of_mem hkept]
  | true =>
    have hcompleted := (Bool.and_eq_true_iff.mp hevicts).1
    have hgone := (filter_evicts_perm h).mem_iff.mp (mem_filter.mpr ⟨hrow, hevicts⟩)
    cases htombstone : row.evictedKey with
    | none => simp
    | some tombstone =>
      have hnew : row.retentionKey ∉ (boundCompletedTerminalScopeRows rows cap).map retentionKey := by
        rw [mem_map]
        rintro ⟨other, hother, hkey⟩
        rw [mem_scopes_iff] at hother
        cases hopen : other.isCompleted with
        | false => exact h.inFlight row hgone (by simp [htombstone]) other hother.1 hopen hkey
        | true =>
          -- a completed row of the same key is evicted as well
          rw [evicts, hopen, hkey, ← hcompleted, ← evicts, hevicts] at hother
          cases hother.2
      rw [if_pos hcompleted, if_neg hnew, if_pos rfl]

end

/-- Retention does what it is for exactly when keys tell the overflow from the rows that stay. -/
theorem exists_retainsLatest_iff (priorKeys : List κ) (rows : List (DurableScopeRetentionRow τ))
    (cap : ℕ) (hfits : priorKeys.length + ((overflowRows rows cap).filterMap evictedKey).length ≤
      maxRetainedTerminalKeyTombstones) :
    (∃ evicted, RetainsLatest rows cap priorKeys (boundTerminalRetentionState priorKeys rows cap)
      evicted) ↔ OverflowApart rows cap := by
  constructor
  · rintro ⟨evicted, h⟩
    have hkeep := length_completed_scopes_eq_iff.mp h.count
    refine ⟨fun gone hgone row hrow ↦ (evicts_eq_false_iff hrow).mp (hkeep row hrow) gone hgone, ?_⟩
    intro gone hgone hsome row hrow hopen hkey
    obtain ⟨tombstone, htombstone⟩ := Option.isSome_iff_exists.mp hsome
    have hevicted : gone ∈ evicted := by
      have hmem := h.split.mem_iff.mpr (mem_overflowRows_or_latestRows_iff.mp (.inl hgone)).1
      refine (mem_append.mp hmem).resolve_left fun hkept ↦ ?_
      exact absurd (mem_scopes_iff.mp hkept).2 (by simp [evicts_overflowRows hgone])
    have hleft : .inr tombstone ∈ (boundTerminalRetentionState priorKeys rows cap).keys := by
      rw [h.keys]
      apply mem_append_right
      exact mem_map_of_mem (mem_filterMap.mpr ⟨gone, hevicted, htombstone⟩)
    have hcollected : tombstone ∈
        collectEvictedTerminalKeys rows (boundCompletedTerminalScopeRows rows cap) := by
      simpa using boundEvictedTerminalKeys_subset _ _ hleft
    obtain ⟨other, -, hother⟩ := mem_filterMap.mp hcollected
    split at hother
    · cases hother
    · next hnew =>
      apply hnew
      rw [retentionKey_of_evictedKey hother, ← retentionKey_of_evictedKey htombstone, ← hkey]
      exact mem_map_of_mem (mem_scopes_iff.mpr ⟨hrow, by simp [evicts, hopen]⟩)
  · intro h
    have hperm := filter_evicts_perm h
    refine ⟨rows.filter (evicts rows cap), ?_, ?_, ?_, ?_, ?_⟩
    · dsimp only [boundTerminalRetentionState]
      rw [scopes_eq]
      exact perm_append_comm.trans (filter_append_perm _ rows)
    · dsimp only [boundTerminalRetentionState]
      rw [scopes_eq, filter_filter]
      apply filter_congr
      intro row _
      cases hopen : row.isCompleted <;> simp [evicts, hopen]
    · exact length_completed_scopes_eq_iff.mpr fun row ↦ evicts_latestRows h
    · intro gone hgone row hrow
      obtain ⟨hrow, hcompleted⟩ := mem_filter.mp hrow
      obtain ⟨hrow, hkept⟩ := mem_scopes_iff.mp hrow
      refine acceptedTime_le (hperm.mem_iff.mp hgone)
        ((mem_overflowRows_or_latestRows_iff.mpr ⟨hrow, hcompleted⟩).resolve_left fun hover ↦ ?_)
      exact absurd hkept (by simp [evicts_overflowRows hover])
    · rw [← collectEvictedTerminalKeys_eq h]
      refine if_pos ?_
      rw [length_append, length_map, length_map, collectEvictedTerminalKeys_eq h,
        (hperm.filterMap evictedKey).length_eq]
      exact hfits

def stoppedRow (hash : Option JsString) (time : ℕ) : DurableScopeRetentionRow ℕ where
  idempotencyKeyHash := hash
  idempotencyInputHash := hash
  turnDisposition := utf16 "stopped"
  acceptedAt := some time

theorem retainsLatest_of_two_hashes :
    let rows := [stoppedRow (utf16 "a") 1, stoppedRow (utf16 "b") 2]
    ∃ evicted, RetainsLatest rows 1 [] (boundTerminalRetentionState ([] : List ℕ) rows 1) evicted :=
  (exists_retainsLatest_iff [] _ 1 (by decide +kernel)).mpr ⟨by decide +kernel, by decide +kernel⟩

/-- Rows without hashes share one key, so evicting the older one evicts both. -/
theorem not_retainsLatest_of_no_hashes : let rows := [stoppedRow none 1, stoppedRow none 2]
    ¬ ∃ evicted, RetainsLatest rows 1 [] (boundTerminalRetentionState ([] : List ℕ) rows 1) evicted :=
  fun ⟨_, h⟩ ↦ absurd h.count (by decide +kernel)

end DurableScopeRetentionRow

end GajaeCode.Session
