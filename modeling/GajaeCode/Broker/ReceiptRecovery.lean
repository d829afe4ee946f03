import GajaeCode.Broker.ReceiptLedger

/-!
# Receipts across crashes

A row that is appended behind a closed line is read back by every later process, also when the
process stops inside the append: the torn line is no JSON text unless all of it is there. So as
long as rows are only appended behind closed lines, what is known of a client reference goes from
nothing to reserved to completed and never back. A row appended behind a torn line merges with
it and is lost.
-/

namespace GajaeCode.Broker

open Text Json Chain Machine List Option JsValue Ledger

variable {clientRef : JsString} {ledger after : Ledger} {file : Bytes}
  {transition : LedgerTransition}

/-! ## Rows are read back -/

def ReceiptState.isCompleted : ReceiptState → Bool
  | pending => false
  | completed _ => true

namespace OperationReceipt

/-- The row as a later process reads it: undefined members of the response are gone. -/
def saved (row : OperationReceipt) : OperationReceipt :=
  match row.state with
  | .pending => row
  | .completed response => { row with state := .completed response.clean }

/-- What the answers depend on: the digest, and whether the operation is completed. -/
def status (row : OperationReceipt) : JsString × Bool := (row.digest, row.state.isCompleted)

/-- Rows that `isReceipt` accepts when they are read back. -/
structure Readable (row : OperationReceipt) : Prop where
  clientRef : row.clientRef ≠ []
  digest : isHexDigest row.digest = true
  response : ∀ response, row.state = .completed response →
    ∃ fields, response = .obj fields ∧ (JsValue.obj fields).DistinctKeys

@[simp] theorem clientRef_saved (row : OperationReceipt) : row.saved.clientRef = row.clientRef := by
  unfold saved
  cases row.state <;> rfl

@[simp] theorem status_saved (row : OperationReceipt) : row.saved.status = row.status := by
  unfold saved status
  cases h : row.state <;> simp [h, ReceiptState.isCompleted]

theorem Readable.distinctKeys {row : OperationReceipt} (h : row.Readable) :
    (obj (receiptFields row)).DistinctKeys := by
  unfold receiptFields
  cases hstate : row.state with
  | pending =>
    simp only [DistinctKeys, DistinctKeysFields, and_true, map_cons, map_nil]
    decide
  | completed response =>
    obtain ⟨fields, rfl, hdist⟩ := h.response response hstate
    have hkeys : ([utf16 "version", utf16 "clientRef", utf16 "digest", utf16 "state",
      utf16 "response", utf16 "ts"] : List JsString).Nodup := by decide
    exact ⟨hkeys, trivial, trivial, trivial, trivial, hdist, trivial, trivial⟩

theorem Readable.readReceipt {row : OperationReceipt} (h : row.Readable) :
    readReceipt (obj (receiptFields row)).clean = some row.saved := by
  obtain ⟨clientRef, digest, state, ts⟩ := row
  have hclientRef : clientRef ≠ [] := h.clientRef
  have hdigest : isHexDigest digest := h.digest
  cases state with
  | pending => exact if_pos ⟨rfl, hclientRef, hdigest⟩
  | completed response =>
    obtain ⟨fields, rfl, -⟩ := h.response response rfl
    exact if_pos ⟨rfl, hclientRef, hdigest⟩

end OperationReceipt

theorem newlineUnit_notMem_valueText (value : JsValue) : newlineUnit ∉ valueText value :=
  fun hmem ↦ absurd ((isOneLine_valueText value).2 newlineUnit hmem) (by decide)

theorem fileReceipts_of_line {line : JsString} (h : fileLines file = [line]) :
    fileReceipts file = ((parseJson line).bind readReceipt).toList := by
  rw [fileReceipts, h, filterMap_cons, filterMap_nil]
  cases (parseJson line).bind readReceipt <;> rfl

section

variable {row : OperationReceipt} (h : row.Readable)

include h

theorem parseJson_row : (parseJson (valueText (.obj (receiptFields row)))).bind readReceipt =
    some row.saved := by
  have hspace : ∀ unit ∈ ([] : JsString), isWhitespace unit := by simp
  have hparse := parseJson_valueText_append (distinctKeys_clean h.distinctKeys) hspace
  rw [append_nil] at hparse
  rw [hparse, bind_some, h.readReceipt]

theorem fileReceipts_rowBytes : fileReceipts (rowBytes row) = [row.saved] := by
  have hline : fileLines (rowBytes row) = [valueText (.obj (receiptFields row))] :=
    fileLines_lineBytes (isOneLine_valueText _).1 (newlineUnit_notMem_valueText _) (cons_ne_nil _ _)
  rw [fileReceipts_of_line hline, parseJson_row h, toList_some]

/-- The first bytes of a row hold no receipt, or all of it. -/
theorem fileReceipts_torn {torn : Bytes} (htorn : torn <+: rowBytes row) :
    fileReceipts torn = [] ∨ fileReceipts torn = [row.saved] := by
  have hne : valueText (.obj (receiptFields row)) ≠ [] := cons_ne_nil _ _
  rcases fileLines_torn (isOneLine_valueText _).1 (newlineUnit_notMem_valueText _) hne htorn with
    hnone | ⟨head, junk, hhead, hjunk, hline⟩
  · left
    rw [fileReceipts, hnone, filterMap_nil]
  · rw [fileReceipts_of_line hline]
    cases hparse : parseJson (head ++ junk) with
    | none => exact Or.inl rfl
    | some =>
      obtain ⟨rfl, rfl⟩ := parseJson_torn hhead hjunk (by rw [hparse]; rfl)
      rw [← hparse, append_nil, parseJson_row h]
      exact Or.inr rfl

end

theorem fileReceipts_append (h : isTerminated file) (tail : Bytes) :
    fileReceipts (file ++ tail) = fileReceipts file ++ fileReceipts tail := by
  rw [fileReceipts, fileLines_append h, filterMap_append]
  rfl

/-! ## What is known of a reference -/

variable (rows : List OperationReceipt)

/-- The last receipt of a reference. -/
def lastReceipt (clientRef : JsString) : Option OperationReceipt :=
  lastWrite (fun row ↦ if row.clientRef = clientRef then some row else none) rows

theorem foldl_setLatest (latest : JsString → Option OperationReceipt) (clientRef : JsString) :
    rows.foldl setLatest latest clientRef = (lastReceipt rows clientRef).or (latest clientRef) := by
  induction rows using reverseRecOn with
  | nil => rfl
  | append_singleton rows row ih =>
    rw [foldl_append, foldl_cons, foldl_nil, lastReceipt, lastWrite_concat]
    by_cases hsame : row.clientRef = clientRef
    · simp [setLatest, hsame]
    · rw [if_neg hsame, none_or, setLatest, Function.update_of_ne (Ne.symm hsame)]
      exact ih

theorem lastReceipt_spec {row : OperationReceipt}
    (h : lastReceipt (fileReceipts file) clientRef = some row) :
    clientRef ≠ [] ∧ isHexDigest row.digest := by
  have hmem := mem_of_getLast? h
  obtain ⟨other, hother, hsame⟩ := mem_filterMap.mp hmem
  split_ifs at hsame with hclient
  obtain ⟨line, -, hline⟩ := mem_filterMap.mp hother
  obtain ⟨value, -, hread⟩ := bind_eq_some_iff.mp hline
  rw [← some.inj hsame, ← hclient]
  unfold readReceipt at hread
  split at hread
  · split_ifs at hread with hkeys hpending hcompl
    · cases hread
      exact hkeys.2
    · cases hread
      exact hkeys.2
  · cases hread

namespace Ledger

/-- What the ledger knows of a reference. -/
def status (ledger : Ledger) (clientRef : JsString) : Option (JsString × Bool) :=
  (ledger.latest clientRef).map OperationReceipt.status

/-- What a new process would know. -/
def recorded (file : Bytes) (clientRef : JsString) : Option (JsString × Bool) :=
  (lastReceipt (fileReceipts file) clientRef).map OperationReceipt.status

/-- The map says what the file says. -/
def Faithful (ledger : Ledger) : Prop := ∀ clientRef, ledger.status clientRef = recorded ledger.file clientRef

theorem status_open (ledger : Ledger) (clientRef : JsString) :
    ledger.open.status clientRef = (recorded ledger.file clientRef).or (ledger.status clientRef) := by
  have hlatest : ledger.open.latest clientRef =
      (lastReceipt (fileReceipts ledger.file) clientRef).or (ledger.latest clientRef) :=
    foldl_setLatest _ _ _
  rw [status, hlatest, recorded, status]
  cases lastReceipt (fileReceipts ledger.file) clientRef <;> simp

theorem status_start (file : Bytes) (clientRef : JsString) :
    (start file).status clientRef = recorded file clientRef := by
  rw [start, status_open]
  simp [status]

theorem faithful_start (file : Bytes) : (start file).Faithful := status_start file

theorem Faithful.status_open (h : ledger.Faithful) (clientRef : JsString) :
    ledger.open.status clientRef = ledger.status clientRef := by
  rw [Ledger.status_open, ← h clientRef, Option.or_self]

theorem Faithful.open (h : ledger.Faithful) : ledger.open.Faithful := by
  intro clientRef
  rw [h.status_open]
  exact h clientRef

theorem recorded_append {tail : Bytes} (hfile : isTerminated file)
    {row : OperationReceipt} (htail : fileReceipts tail = [row.saved]) (clientRef : JsString) :
    recorded (file ++ tail) clientRef =
      if row.clientRef = clientRef then some row.status else recorded file clientRef := by
  rw [recorded, fileReceipts_append hfile, htail, lastReceipt, lastWrite_concat,
    OperationReceipt.clientRef_saved]
  split_ifs
  · rw [Option.some_or, map_some, OperationReceipt.status_saved]
  · rfl

theorem status_append (ledger : Ledger) (row : OperationReceipt) (clientRef : JsString) :
    (ledger.append row).status clientRef =
      if row.clientRef = clientRef then some row.status else ledger.status clientRef := by
  rw [status, append, setLatest]
  by_cases hsame : row.clientRef = clientRef
  · simp [hsame]
  · simp [Function.update_of_ne (Ne.symm hsame), hsame, status]

theorem Faithful.append (h : ledger.Faithful)
    (hfile : isTerminated ledger.file) {row : OperationReceipt} (hrow : row.Readable) :
    (ledger.append row).Faithful := by
  intro clientRef
  have hfileAfter : (ledger.append row).file = ledger.file ++ rowBytes row := rfl
  rw [status_append, hfileAfter, recorded_append hfile (fileReceipts_rowBytes hrow), h clientRef]

/-- What is known only grows: a digest stays, and a completion stays. -/
def Advances (before after : Ledger) : Prop :=
  ∀ clientRef digest completed, before.status clientRef = some (digest, completed) →
    ∃ completed', after.status clientRef = some (digest, completed') ∧
      (completed = true → completed' = true)

theorem Advances.refl (ledger : Ledger) : Advances ledger ledger :=
  fun _ _ compl h ↦ ⟨compl, h, id⟩

theorem Advances.trans {first second third : Ledger} (h : Advances first second)
    (h' : Advances second third) : Advances first third := by
  intro clientRef digest compl hfirst
  obtain ⟨compl', hsecond, hup⟩ := h clientRef digest compl hfirst
  obtain ⟨compl'', hthird, hup'⟩ := h' clientRef digest compl' hsecond
  exact ⟨compl'', hthird, fun hdone ↦ hup' (hup hdone)⟩

theorem advances_of_status_eq {before : Ledger}
    (h : ∀ clientRef, after.status clientRef = before.status clientRef) : Advances before after :=
  fun clientRef _ compl hbefore ↦ ⟨compl, (h clientRef).trans hbefore, id⟩

/-- A row that continues what is known of its reference. -/
def Continues (ledger : Ledger) (row : OperationReceipt) : Prop :=
  ∀ digest completed, ledger.status row.clientRef = some (digest, completed) →
    row.digest = digest ∧ row.state.isCompleted = true

theorem Continues.advances {before : Ledger} {row : OperationReceipt}
    (h : before.Continues row) (hafter : ∀ clientRef, after.status clientRef =
      if row.clientRef = clientRef then some row.status else before.status clientRef) :
    Advances before after := by
  intro clientRef digest compl hbefore
  rw [hafter]
  split_ifs with hsame
  · subst hsame
    obtain ⟨hdigest, hcompl⟩ := h digest compl hbefore
    exact ⟨true, by rw [OperationReceipt.status, hdigest, hcompl], fun _ ↦ rfl⟩
  · exact ⟨compl, hbefore, id⟩

end Ledger

/-! ## Calls -/

namespace LedgerCall

/-- The row a call writes if it writes one. -/
def row : LedgerCall → OperationReceipt
  | reserve clientRef digest now => { clientRef, digest, state := .pending, ts := now }
  | complete clientRef digest response now =>
      { clientRef, digest, state := .completed (.obj response.fields), ts := now }

/-- A reservation of an unknown reference and the completion of a pending one write a row. -/
def appends (ledger : Ledger) : LedgerCall → Bool
  | reserve clientRef _ _ => (ledger.latest clientRef).isNone
  | complete clientRef digest _ _ => (ledger.latest clientRef).any fun current ↦
      current.digest = digest && !current.state.isCompleted

/-- A reservation has a reference and a digest that the reader accepts. -/
def isAcceptable : LedgerCall → Bool
  | reserve clientRef digest _ => clientRef ≠ [] && isHexDigest digest
  | complete _ _ _ _ => true

/-- Where a row is written, the last line of the file is closed and the row can be read back. -/
def appendsSoundly (ledger : Ledger) (call : LedgerCall) : Bool :=
  !call.appends ledger || (isTerminated ledger.file && call.isAcceptable)

theorem pending_of_appends {digest : JsString} {response : BrokerResponse} {now : Decimal}
    (h : (complete clientRef digest response now).appends ledger) :
    ∃ cur, ledger.latest clientRef = some cur ∧ cur.digest = digest := by
  rw [appends] at h
  cases hlatest : ledger.latest clientRef with
  | none => simp [hlatest] at h
  | some cur =>
    rw [hlatest, any_some, Bool.and_eq_true, decide_eq_true_eq] at h
    exact ⟨cur, rfl, h.1⟩

end LedgerCall

theorem Ledger.call_fst (ledger : Ledger) (call : LedgerCall) :
    (ledger.call call).1 = if call.appends ledger then ledger.append call.row else ledger := by
  cases call with
  | reserve clientRef digest | complete clientRef digest =>
    rw [call, LedgerCall.appends, LedgerCall.row]
    simp only [reserve, complete]
    cases ledger.latest clientRef with
    | none => rfl
    | some cur =>
      by_cases hdigest : cur.digest = digest
      · cases hstate : cur.state <;> simp [hdigest, hstate, ReceiptState.isCompleted]
      · simp [hdigest]

section

variable {ledger : Ledger} (hfaithful : ledger.Faithful) {call : LedgerCall}
  (hsound : call.appendsSoundly ledger = true) (happends : call.appends ledger = true)

include hsound happends

theorem sound_of_appendsSoundly : isTerminated ledger.file ∧ call.isAcceptable := by
  simpa [LedgerCall.appendsSoundly, happends] using hsound

include hfaithful

theorem readable_of_appendsSoundly : call.row.Readable := by
  obtain ⟨-, hacceptable⟩ := sound_of_appendsSoundly hsound happends
  cases call with
  | reserve =>
    simp only [LedgerCall.isAcceptable, Bool.and_eq_true, decide_eq_true_eq] at hacceptable
    exact ⟨hacceptable.1, hacceptable.2, by simp [LedgerCall.row]⟩
  | complete clientRef digest response =>
    -- the pending row was read or written before, so its reference and digest are acceptable
    obtain ⟨cur, hcur, hdigest⟩ := LedgerCall.pending_of_appends happends
    have hknown := hfaithful clientRef
    rw [status, hcur, map_some, recorded] at hknown
    obtain ⟨saved, hsaved, hstatus⟩ := map_eq_some_iff.mp hknown.symm
    obtain ⟨hclientRef, hhex⟩ := lastReceipt_spec hsaved
    have hsame : saved.digest = digest := (congrArg Prod.fst hstatus).trans hdigest
    rw [hsame] at hhex
    refine ⟨hclientRef, hhex, fun written hwritten ↦ ⟨response.fields, ?_, response.distinct⟩⟩
    exact (ReceiptState.completed.inj hwritten).symm

omit hfaithful hsound in
theorem continues_of_appends : ledger.Continues call.row := by
  intro digest compl hstatus
  cases call with
  | reserve clientRef =>
    have hnone : ledger.latest clientRef = none := by simpa [LedgerCall.appends] using happends
    simp [status, LedgerCall.row, hnone] at hstatus
  | complete =>
    obtain ⟨cur, hcur, hdigest⟩ := LedgerCall.pending_of_appends happends
    rw [status, LedgerCall.row, hcur, map_some, some.injEq] at hstatus
    exact ⟨hdigest.symm.trans (congrArg Prod.fst hstatus), rfl⟩

end

/-! ## Runs -/

/-- The call of a step appends soundly. -/
def LedgerOp.appendsSoundly (ledger : Ledger) : LedgerOp → Bool
  | .call request => request.appendsSoundly ledger
  | .crash request _ => request.appendsSoundly ledger
  | .reopen => true
  | .restart => true

/-- Every step that appends soundly keeps the file and the map in line and loses nothing. -/
theorem ledgerStep_advances {op : LedgerOp} {answer : LedgerAnswer}
    (hsound : op.appendsSoundly ledger) (hfaithful : ledger.Faithful)
    (hstep : ledgerStep ledger op = some (after, answer)) :
    after.Faithful ∧ ledger.Advances after := by
  cases op with
  | reopen =>
    obtain ⟨rfl, rfl⟩ := hstep
    exact ⟨hfaithful.open, advances_of_status_eq hfaithful.status_open⟩
  | restart =>
    obtain ⟨rfl, rfl⟩ := hstep
    refine ⟨faithful_start _, advances_of_status_eq fun clientRef ↦ ?_⟩
    rw [status_start, hfaithful clientRef]
  | call call =>
    have hafter : (ledger.call call).1 = after := congrArg Prod.fst (some.inj hstep)
    rw [call_fst] at hafter
    split_ifs at hafter with happends
    · subst hafter
      exact ⟨hfaithful.append (sound_of_appendsSoundly hsound happends).1
        (readable_of_appendsSoundly hfaithful hsound happends),
        (continues_of_appends happends).advances (ledger.status_append call.row)⟩
    · subst hafter
      exact ⟨hfaithful, Advances.refl ledger⟩
  | crash call kept =>
    obtain ⟨rfl, rfl⟩ := hstep
    refine ⟨faithful_start _, ?_⟩
    rw [call_fst]
    split_ifs with happends
    · have hfile : (ledger.append call.row).file.take (ledger.file.length + kept) =
          ledger.file ++ (rowBytes call.row).take kept := take_length_add_append kept
      have hterminated := (sound_of_appendsSoundly hsound happends).1
      rw [hfile]
      rcases fileReceipts_torn (readable_of_appendsSoundly hfaithful hsound happends)
        (List.take_prefix kept (rowBytes call.row)) with hnone | hrow
      · apply advances_of_status_eq
        intro clientRef
        rw [status_start, recorded, fileReceipts_append hterminated, hnone,
          append_nil, hfaithful clientRef, recorded]
      · refine (continues_of_appends happends).advances fun clientRef ↦ ?_
        rw [status_start, recorded_append hterminated hrow, hfaithful clientRef]
    · apply advances_of_status_eq
      intro clientRef
      rw [take_of_length_le (Nat.le_add_right _ _), status_start, hfaithful clientRef]

abbrev LedgerTransition := Transition Ledger LedgerOp LedgerAnswer

/-- The reference a step answers with "reserved". -/
def reservedRef (transition : LedgerTransition) : Option JsString :=
  match transition.op, transition.output with
  | .call (.reserve clientRef _ _), .reserved => some clientRef
  | _, _ => none

/-- The reference a step reserves, whatever the answer. -/
def requestedRef (transition : LedgerTransition) : Option JsString :=
  match transition.op with
  | .call (.reserve clientRef _ _) => some clientRef
  | _ => none

/-- The completion of a reference is recorded. -/
def Ledger.isCompleted (ledger : Ledger) (clientRef : JsString) : Bool :=
  (ledger.latest clientRef).any fun row ↦ row.state.isCompleted

def LedgerAnswer.isReplayOrConflict : LedgerAnswer → Bool
  | replay _ => true
  | conflict => true
  | _ => false

/-- No reference is answered "reserved" twice, and one whose completion was recorded is answered
with a replay or a conflict from then on. -/
def AtMostOnce (transitions : List LedgerTransition) : Prop :=
  transitions.Pairwise fun earlier later ↦
    (∀ clientRef ∈ reservedRef earlier, clientRef ∉ reservedRef later) ∧
      ∀ clientRef ∈ requestedRef later, earlier.after.isCompleted clientRef = true →
        later.output.isReplayOrConflict = true

theorem isCompleted_iff (ledger : Ledger) (clientRef : JsString) :
    ledger.isCompleted clientRef ↔ ∃ digest, ledger.status clientRef = some (digest, true) := by
  rw [isCompleted, status]
  cases ledger.latest clientRef with
  | none => simp
  | some => simp [OperationReceipt.status]

theorem reserve_of_completed
    (h : ledger.isCompleted clientRef) (digest : JsString) (now : Decimal) :
    (ledger.reserve clientRef digest now).2.isReplayOrConflict := by
  unfold isCompleted at h
  unfold reserve
  cases hlatest : ledger.latest clientRef with
  | none => simp [hlatest] at h
  | some cur =>
    rw [hlatest, any_some] at h
    dsimp only
    split_ifs
    · rfl
    · cases hstate : cur.state with
      | pending => simp [hstate, ReceiptState.isCompleted] at h
      | completed => rfl

/-- A reservation is of an unknown reference, which is known from then on. -/
theorem status_of_reserved {digest : JsString} {now : Decimal}
    (h : (ledger.reserve clientRef digest now).2 = .reserved) :
    ledger.status clientRef = none ∧
      (ledger.reserve clientRef digest now).1.status clientRef = some (digest, false) := by
  unfold reserve at h ⊢
  cases hlatest : ledger.latest clientRef with
  | none =>
    rw [status_append]
    exact ⟨by rw [status, hlatest]; rfl, if_pos rfl⟩
  | some cur =>
    simp only [hlatest] at h
    split_ifs at h
    cases hstate : cur.state <;> simp [hstate] at h

theorem reservedRef_eq_some
    (hstep : ledgerStep transition.before transition.op = some (transition.after, transition.output))
    (h : clientRef ∈ reservedRef transition) :
    transition.before.status clientRef = none ∧
      ∃ digest compl, transition.after.status clientRef = some (digest, compl) := by
  obtain ⟨before, op, output, after⟩ := transition
  rw [mem_def, reservedRef] at h
  split at h
  · rename_i clientRef' digest now hop houtput
    obtain rfl : op = .call (.reserve clientRef' digest now) := hop
    obtain rfl : output = .reserved := houtput
    obtain rfl := some.inj h
    have hcall : before.reserve clientRef' digest now = (after, .reserved) := some.inj hstep
    obtain ⟨hbefore, hafter⟩ := status_of_reserved (congrArg Prod.snd hcall)
    rw [hcall] at hafter
    exact ⟨hbefore, digest, false, hafter⟩
  · cases h

theorem output_of_requestedRef
    (hstep : ledgerStep transition.before transition.op = some (transition.after, transition.output))
    (h : clientRef ∈ requestedRef transition)
    (hcompl : transition.before.isCompleted clientRef) :
    transition.output.isReplayOrConflict := by
  obtain ⟨before, op, output, after⟩ := transition
  rw [mem_def, requestedRef] at h
  split at h
  · rename_i clientRef' digest now hop
    obtain rfl : op = .call (.reserve clientRef' digest now) := hop
    obtain rfl := some.inj h
    have hcall : before.reserve clientRef' digest now = (after, output) := some.inj hstep
    have hanswer := reserve_of_completed hcompl digest now
    rwa [hcall] at hanswer
  · cases h

/-- In every run from any file whose steps append soundly, receipts are given at most once. -/
theorem atMostOnce_of_appendsSoundly (file : Bytes) (ops : List LedgerOp)
    (hsound : ∀ transition ∈ trace ledgerStep (.start file) ops,
      transition.op.appendsSoundly transition.before = true) :
    AtMostOnce (trace ledgerStep (.start file) ops) := by
  have hrun := pairwise_trace Advances.refl Advances.trans
    (fun _ _ _ _ hguard hfaithful hstep ↦ ledgerStep_advances hguard hfaithful hstep)
    (faithful_start file) hsound
  have hsteps {transition}
      (hmem : transition ∈ trace ledgerStep (.start file) ops) :
      ledgerStep transition.before transition.op = some (transition.after, transition.output) :=
    (of_mem_trace (fun _ _ _ _ _ _ ↦ trivial) trivial hmem).1
  refine hrun.2.imp_of_mem fun {earlier later} hearlier hlater hadvances ↦
    ⟨fun clientRef hreserved hagain ↦ ?_, fun clientRef hrequested hcompleted ↦ ?_⟩
  · obtain ⟨-, digest, completed, hknown⟩ := reservedRef_eq_some (hsteps hearlier) hreserved
    obtain ⟨completed', hstill, -⟩ := hadvances clientRef digest completed hknown
    rw [(reservedRef_eq_some (hsteps hlater) hagain).1] at hstill
    cases hstill
  · obtain ⟨digest, hknown⟩ := (isCompleted_iff _ _).mp hcompleted
    obtain ⟨completed', hstill, hup⟩ := hadvances clientRef digest true hknown
    rw [hup rfl] at hstill
    exact output_of_requestedRef (hsteps hlater) hrequested ((isCompleted_iff _ _).mpr ⟨digest, hstill⟩)

/-- The condition holds of a run with a completion that is torn after seven bytes and asked for
again. -/
theorem atMostOnce_torn_completion : AtMostOnce (trace ledgerStep (.start [])
      [.call (.reserve (utf16 "a") (replicate 64 0x30) .zero),
        .crash (.complete (utf16 "a") (replicate 64 0x30) ⟨[], by simp [DistinctKeys,
          DistinctKeysFields]⟩ .zero) 7,
        .call (.reserve (utf16 "a") (replicate 64 0x30) .zero)]) := by
  apply atMostOnce_of_appendsSoundly
  decide +kernel

/-- A crash leaves one byte of the first reservation. The next row merges with it and is skipped
by the process after that, which reserves the same reference again. -/
theorem torn_row_reserves_twice : ¬ AtMostOnce (trace ledgerStep (.start [])
      [.crash (.reserve (utf16 "a") (replicate 64 0x30) .zero) 1,
        .call (.reserve (utf16 "b") (replicate 64 0x30) .zero), .restart,
        .call (.reserve (utf16 "b") (replicate 64 0x30) .zero)]) := by
  intro honce
  have hrefs : (trace ledgerStep (.start [])
      [.crash (.reserve (utf16 "a") (replicate 64 0x30) .zero) 1,
        .call (.reserve (utf16 "b") (replicate 64 0x30) .zero), .restart,
        .call (.reserve (utf16 "b") (replicate 64 0x30) .zero)]).map reservedRef =
      [none, some (utf16 "b"), none, some (utf16 "b")] := by
    decide +kernel
  have hpairs : ([none, some (utf16 "b"), none, some (utf16 "b")] :
      List (Option JsString)).Pairwise fun earlier later ↦ ∀ clientRef ∈ earlier, clientRef ∉ later := by
    rw [← hrefs, pairwise_map]
    exact honce.imp fun hpair ↦ hpair.1
  simp at hpairs

end GajaeCode.Broker
