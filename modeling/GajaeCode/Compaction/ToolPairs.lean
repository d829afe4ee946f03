import GajaeCode.Compaction.Landing

/-!
# Tool calls and their results across a cut

A cut never falls before a tool result, but it may fall before another message that stands between
a call and its result. The result is then kept while the call is summarised away.
-/

namespace GajaeCode.Compaction

open Text Json Session

/-- An assistant message with a call of this id. -/
def callsTool (id : JsString) (entry : SessionEntry) : Bool :=
  match entry.body with
  | .message ⟨.assistant _ _, fields, _⟩ =>
    (contentBlocks (JsValue.get (.obj fields) (utf16 "content"))).any fun block ↦
      blockType block = .str (utf16 "toolCall") && JsValue.get block (utf16 "id") = .str id
  | _ => false

/-- The result of the call with this id. -/
def answersTool (id : JsString) (entry : SessionEntry) : Bool :=
  match entry.body with
  | .message ⟨.toolResult, fields, _⟩ => JsValue.get (.obj fields) (utf16 "toolCallId") = .str id
  | _ => false

/-- The result answers the last call of its id before it. -/
def IsToolPair (entries : List SessionEntry) (call result : ℕ) : Prop :=
  call < result ∧ ∃ id, entryAt entries (callsTool id) call = true ∧
    entryAt entries (answersTool id) result = true ∧
    ∀ between, call < between → between < result → entryAt entries (callsTool id) between = false

/-- Every tool result stands after a call of its id. -/
def ResultsFollowCalls (entries : List SessionEntry) : Prop :=
  ∀ result id, entryAt entries (answersTool id) result = true →
    ∃ call < result, entryAt entries (callsTool id) call = true

/-- No kept result has its call in the window before the cut. -/
def KeepsToolPairs (entries : List SessionEntry) (startIndex : ℕ) (cut : CutPointResult) : Prop :=
  ∀ call result, IsToolPair entries call result → startIndex ≤ call →
    call < cut.firstKeptEntryIndex → result < cut.firstKeptEntryIndex

section

variable {entries : List SessionEntry} {startIndex endIndex cut first call result : ℕ}

theorem isBarrier_of_toolUse {id : JsString} {entry : SessionEntry}
    (h : callsTool id entry ∨ answersTool id entry) : isBarrier entry := by
  obtain ⟨entryId, parentId, timestamp, body⟩ := entry
  cases body with
  | message => rfl
  | _ => exact h.elim (absurd · Bool.false_ne_true) (absurd · Bool.false_ne_true)

/-- A message stands on the same side of a cut before and after the cut is moved back. -/
theorem IsRunStart.lt_iff_of_barrier {idx : ℕ} (h : IsRunStart entries startIndex cut first)
    (hbarrier : entryAt entries isBarrier idx) : idx < first ↔ idx < cut := by
  have hle := h.le_index
  constructor
  · intro hlt
    omega
  · intro hlt
    by_contra hge
    rw [h.run idx (by omega) hlt] at hbarrier
    cases hbarrier

theorem keepsToolPairs_cutResult_iff (h : IsRunStart entries startIndex cut first) :
    KeepsToolPairs entries startIndex (cutResult entries startIndex first) ↔
      ∀ call result, IsToolPair entries call result → startIndex ≤ call → ¬ (call < cut ∧ cut ≤ result) := by
  have hside {call result} (hpair : IsToolPair entries call result) :
      (call < first ↔ call < cut) ∧ (result < first ↔ result < cut) := by
    obtain ⟨-, id, hcall, hresult, -⟩ := hpair
    exact ⟨h.lt_iff_of_barrier (entryAt_mono (fun _ h ↦ isBarrier_of_toolUse (.inl h)) hcall),
      h.lt_iff_of_barrier (entryAt_mono (fun _ h ↦ isBarrier_of_toolUse (.inr h)) hresult)⟩
  constructor
  · intro hkeeps call result hpair hstart hbetween
    have hresult := hkeeps call result hpair hstart ((hside hpair).1.mpr hbetween.1)
    exact absurd ((hside hpair).2.mp hresult) hbetween.2.not_gt
  · intro hkeeps call result hpair hstart hcall
    apply (hside hpair).2.mpr
    by_contra hresult
    exact hkeeps call result hpair hstart ⟨(hside hpair).1.mp hcall, not_lt.mp hresult⟩

end

/-- Whatever the budget, calls and results stay together exactly when no cut can land between a
call and its result. -/
theorem keepsToolPairs_iff (entries : List SessionEntry) (startIndex endIndex : ℕ) :
    (∀ keepRecentTokens,
      KeepsToolPairs entries startIndex (findCutPoint entries startIndex endIndex keepRecentTokens)) ↔
      ∀ call result, IsToolPair entries call result → startIndex ≤ call →
        ∀ cut, IsLanding entries startIndex endIndex cut → ¬ (call < cut ∧ cut ≤ result) := by
  have hempty : findValidCutPoints entries startIndex endIndex = [] →
      KeepsToolPairs entries startIndex ⟨startIndex, none, false⟩ := by
    intro _ call result _ hstart hcall
    exact absurd hstart hcall.not_ge
  rw [forall_findCutPoint_iff hempty]
  constructor
  · intro h call result hpair hstart cut hlanding
    have hrun := @isRunStart_includeBookkeeping entries _ _ (mem_findValidCutPoints hlanding.valid).1
    exact (keepsToolPairs_cutResult_iff hrun).mp (h cut _ hlanding hrun) call result hpair hstart
  · intro h cut first hlanding hrun
    apply (keepsToolPairs_cutResult_iff hrun).mpr
    intro call result hpair hstart
    exact h call result hpair hstart cut hlanding

def messageEntry (role : MessageRole) (fields : Fields) : SessionEntry :=
  ⟨utf16 "e", none, utf16 "2026-01-01T00:00:00.000Z", .message ⟨role, fields, none⟩⟩

/-- A command of the user finishes while a tool runs. -/
def interruptedCall : List SessionEntry :=
  [messageEntry .user [(utf16 "content", .str (utf16 "go"))],
    messageEntry (.assistant (utf16 "p") (utf16 "m"))
      [(utf16 "content", .arr [.obj [(utf16 "type", .str (utf16 "toolCall")),
        (utf16 "id", .str (utf16 "a")), (utf16 "name", .str (utf16 "read")),
        (utf16 "arguments", .obj [])]])],
    messageEntry .bashExecution [(utf16 "command", .str (utf16 "ls")), (utf16 "output", .str (utf16 "x"))],
    messageEntry .toolResult [(utf16 "toolCallId", .str (utf16 "a")),
      (utf16 "content", .arr [.obj [(utf16 "type", .str (utf16 "text")), (utf16 "text", .str (utf16 "y"))]])]]

/-- The result is kept, its call is not. -/
theorem cut_between_call_and_result : ResultsFollowCalls interruptedCall ∧
      ¬ KeepsToolPairs interruptedCall 0 (findCutPoint interruptedCall 0 4 1) := by
  constructor
  · intro result id h
    match result, h with
    | 3, h =>
      have hid : utf16 "a" = id := by
        simpa [entryAt, interruptedCall, messageEntry, answersTool, JsValue.get] using h
      rw [← hid]
      decide +kernel
    | 0, h => cases h
    | 1, h => cases h
    | 2, h => cases h
    | result + 4, h => cases h
  · intro hkeeps
    have hcut : (findCutPoint interruptedCall 0 4 1).firstKeptEntryIndex = 2 := by decide +kernel
    have hpair : IsToolPair interruptedCall 1 3 := by
      refine ⟨by decide, utf16 "a", by decide +kernel, by decide +kernel, fun between hlow hhigh ↦ ?_⟩
      obtain rfl : between = 2 := by omega
      decide +kernel
    have hresult := hkeeps 1 3 hpair (Nat.zero_le 1) (by rw [hcut]; decide)
    exact absurd hresult (by decide)

end GajaeCode.Compaction
