import GajaeCode.Lifecycle.Recovery
import GajaeCode.Lifecycle.Runs

/-!
# Effects are not admitted twice

`begin` admits a request when its identity is unknown or its latest row is `accepted`. In a run whose
rows can all be read back, in which no transition goes back to `accepted` and no compaction happens
while a file is being recovered, this is only so for identities without effects. A compaction during
recovery breaks it: it rewrites the file from latest rows some of which are not marked yet, and drops
the unreadable line that was the only evidence.
-/

namespace GajaeCode.Lifecycle

open Text Json Chain Machine List Option

section

variable (sha256 : JsString → JsString) (limits : LifecycleLedgerLimits)

/-- The writes of a call. -/
def writesOf (process : Process) (clock : ℕ → Timestamp) (call : LedgerCall) : List FileWrite :=
  (process.ledgerFor call).elim [] fun ledger ↦ (perform sha256 limits clock call ledger).2.points.map Prod.snd

/-- The rows of the write can be read back; `open` does not rewrite the file. -/
def mayWrite : LedgerCall → FileWrite → Bool
  | .open, .replace _ _ => false
  | _, write => write.rows.all fun entry ↦ (attributedRow sha256 entry.rowBytes).isSome

/-- No transition goes back to `accepted`. -/
def goesForward : LedgerCall → Bool
  | .transition _ state _ => state ≠ .accepted
  | _ => true

def isCareful (process : Process) (clock : ℕ → Timestamp) (call : LedgerCall) : Bool :=
  goesForward call && (writesOf sha256 limits process clock call).all (mayWrite sha256 call)

/-- The condition on a step: the call it makes, or cuts short, is careful. -/
def isCarefulStep (system : System) : SystemOp → Bool
  | .call clock call => isCareful sha256 limits system.process clock call
  | .crash clock call _ _ => isCareful sha256 limits system.process clock call
  | .replaceRow _ _ => true

/-- The identity that `begin` admits in the step. -/
def admitted (transition : Transition System SystemOp LedgerAnswer) : Option JsString :=
  match transition.op, transition.output with
  | .call _ (.begin identity _ _), .begun (.new _) => some identity
  | _, _ => none

/-- The invariant of a process. -/
def ProcessInv (replaced : List JsString) : Process → Prop
  | .up ledger => LedgerInv sha256 replaced { ledger with points := [] } ∧ IsMarked ledger
  | .down durable => DurableInv sha256 replaced durable

variable {sha256 limits} {clock : ℕ → Timestamp} {replaced : List JsString} {process : Process}
  {call : LedgerCall} {ledger after : LifecycleLedger}

theorem ProcessInv.ledgerFor (h : ProcessInv sha256 replaced process)
    (hledger : process.ledgerFor call = some ledger) :
    DurableInv sha256 replaced ledger.durable ∧ ledger.points = [] ∧
      (call ≠ .open → Serves sha256 replaced ledger) := by
  cases process with
  | up =>
    cases hledger
    exact ⟨h.1.durable, rfl, fun _ _ ↦ h⟩
  | down =>
    cases call with
    | «open» =>
      cases hledger
      exact ⟨h, rfl, fun hcall ↦ absurd rfl hcall⟩
    | _ => cases hledger

theorem areReadable_of_mayWrite (hcall : call ≠ .open) {write : FileWrite}
    (h : mayWrite sha256 call write) : write.AreReadable sha256 := by
  have hrows : (write.rows.all fun entry ↦ (attributedRow sha256 entry.rowBytes).isSome) := by
    cases call with
    | «open» => exact absurd rfl hcall
    | _ => exact h
  exact fun entry hentry ↦ all_eq_true.mp hrows entry hentry

theorem addsReadable_of_mayWrite {write : FileWrite} (h : mayWrite sha256 .open write) :
    write.AddsReadable sha256 := by
  cases write with
  | append entry => exact all_eq_true.mp h entry (mem_singleton_self entry)
  | «seal» => trivial
  | replace => cases h

variable (sha256 replaced call) in
/-- The process after the call keeps the invariant, and so does what a crash in it leaves. -/
def Kept (answer : LedgerAnswer) (after : LifecycleLedger) : Prop :=
  ProcessInv sha256 replaced (processAfter call (answer, after)) ∧ CrashSafe sha256 replaced after

theorem kept_of_inv (h : LedgerInv sha256 replaced after ∧ IsMarked after) (answer : LedgerAnswer) :
    Kept sha256 replaced call answer after := by
  refine ⟨?_, h.1.crashSafe⟩
  have hup : ProcessInv sha256 replaced (.up after) :=
    ⟨⟨h.1.durable, h.1.closed, h.1.known, h.1.nodup, by simp⟩, h.2⟩
  cases call with
  | «open» =>
    cases answer with
    | threw => exact h.1.durable
    | _ => exact hup
  | _ => exact hup

/-- What a careful call keeps. -/
theorem runCall_triple (h : ProcessInv sha256 replaced process)
    (hledger : process.ledgerFor call = some ledger) (hfwd : goesForward call) :
    Triple (· = ledger) (runCall sha256 limits clock call)
      (fun answer after ↦ WritesAre (mayWrite sha256 call · = true) after →
        Kept sha256 replaced call answer after)
      (fun after ↦ WritesAre (mayWrite sha256 call · = true) after →
        ∀ error, Kept sha256 replaced call (.threw error) after) := by
  obtain ⟨hdurable, hpoints, hserves⟩ := h.ledgerFor hledger
  have hserve (hcall : call ≠ .open) {α} {op : LedgerM α} (answer : α → LedgerAnswer)
      (hop : Triple (· = ledger) op (fun _ ↦ Serves sha256 replaced) (Serves sha256 replaced)) :
      Triple (· = ledger) (answer <$> op)
        (fun answer after ↦ WritesAre (mayWrite sha256 call · = true) after →
          Kept sha256 replaced call answer after)
        (fun after ↦ WritesAre (mayWrite sha256 call · = true) after →
          ∀ error, Kept sha256 replaced call (.threw error) after) := by
    have hread {after} (hwrites : WritesAre (mayWrite sha256 call · = true) after) :
        WritesAre (FileWrite.AreReadable sha256) after :=
      fun point hpoint ↦ areReadable_of_mayWrite hcall (hwrites point hpoint)
    apply Triple.map
    exact hop.weaken (fun _ after hafter hwrites ↦ kept_of_inv (hafter (hread hwrites)) _)
      fun after hafter hwrites error ↦ kept_of_inv (hafter (hread hwrites)) _
  cases call with
  | «open» =>
    apply Triple.map
    refine (open_triple hdurable hpoints).weaken (fun _ after hafter hwrites ↦ ?_)
      fun after hafter hwrites error ↦ ?_
    · exact kept_of_inv (hafter fun point hpoint ↦ addsReadable_of_mayWrite (hwrites point hpoint)) _
    · have hsafe := hafter fun point hpoint ↦ addsReadable_of_mayWrite (hwrites point hpoint)
      exact ⟨hsafe.durable, hsafe⟩
  | «begin» ident requestHash metadata =>
    have hcall : LedgerCall.begin ident requestHash metadata ≠ .open := by simp
    exact hserve hcall _ (begin_triple (hserves hcall) ident requestHash metadata)
  | transition ident state fields =>
    have hcall : LedgerCall.transition ident state fields ≠ .open := by simp
    have hstate : state ≠ .accepted := by simpa [goesForward] using hfwd
    exact hserve hcall _ (transition_triple (hserves hcall) ident hstate fields)
  | migrateIdentity source target metadata =>
    have hcall : LedgerCall.migrateIdentity source target metadata ≠ .open := by simp
    exact hserve hcall _ (migrateIdentity_triple (hserves hcall) source target metadata)

theorem perform_keeps (h : ProcessInv sha256 replaced process)
    (hledger : process.ledgerFor call = some ledger)
    (hcareful : isCareful sha256 limits process clock call) :
    Kept sha256 replaced call (perform sha256 limits clock call ledger).1
      (perform sha256 limits clock call ledger).2 := by
  rw [isCareful, Bool.and_eq_true, writesOf, hledger] at hcareful
  obtain ⟨hfwd, hall⟩ := hcareful
  have hwrites : WritesAre (mayWrite sha256 call · = true) (perform sha256 limits clock call ledger).2 :=
    fun point hpoint ↦ all_eq_true.mp hall point.2 (mem_map_of_mem hpoint)
  have hrun : Triple _ (runCall sha256 limits clock call) _ _ := runCall_triple h hledger hfwd
  have hrun := hrun ledger rfl
  unfold perform at hwrites ⊢
  generalize (runCall sha256 limits clock call).run.run ledger = res at hrun hwrites ⊢
  rcases res with ⟨error | answer, after⟩
  · exact hrun hwrites error
  · exact hrun hwrites

theorem CrashSafe.durableAfterCrash (h : CrashSafe sha256 replaced after) (point kept : ℕ) :
    DurableInv sha256 replaced (durableAfterCrash after point kept) := by
  rw [Lifecycle.durableAfterCrash]
  cases hpoint : after.points[point]? with
  | none => exact h.durable
  | some pair => exact h.points pair (mem_of_getElem? hpoint) kept

/-- A row of an identity that lost none yet is replaced. -/
theorem ProcessInv.damage (h : ProcessInv sha256 replaced process) {idx : ℕ} {old line : Bytes}
    {entry : LifecycleLedgerEntry} (hold : process.durable.file.lines[idx]? = some old)
    (hread : readRow old = some entry) (hfresh : entry.identity ∉ replaced) (hline : IsUndecodable line) :
    ProcessInv sha256 (entry.identity :: replaced)
      (process.withFile { process.durable.file with lines := process.durable.file.lines.set idx line }) := by
  cases process with
  | down => exact DurableInv.damage h hold hread hfresh hline
  | up =>
    obtain ⟨hinv, hmarked⟩ := h
    refine ⟨⟨hinv.durable.damage hold hread hfresh hline, hinv.closed, fun ident hident hlatest ↦ ?_,
      hinv.nodup, by simp⟩, hmarked⟩
    rw [mem_cons, not_or] at hident
    obtain ⟨place, hrow⟩ := hinv.known ident hident.2 hlatest
    exact ⟨place, hrow.set (hrow.ne_of_identity_ne hinv.durable hold hread hident.1)⟩

theorem step_keeps {system next : System} {op : SystemOp} {answer : LedgerAnswer}
    (hcareful : isCarefulStep sha256 limits system op)
    (h : ProcessInv sha256 system.replaced system.process)
    (hstep : step sha256 limits system op = some (next, answer)) :
    ProcessInv sha256 next.replaced next.process := by
  cases op with
  | call =>
    obtain ⟨ledger, hledger, heq⟩ := map_eq_some_iff.mp hstep
    obtain ⟨rfl, -⟩ := heq
    exact (perform_keeps h hledger hcareful).1
  | crash clock call point kept =>
    obtain ⟨ledger, hledger, heq⟩ := map_eq_some_iff.mp hstep
    obtain ⟨rfl, -⟩ := heq
    exact (perform_keeps h hledger hcareful).2.durableAfterCrash point kept
  | replaceRow =>
    obtain ⟨old, hold, hreplace⟩ := bind_eq_some_iff.mp hstep
    obtain ⟨hmay, heq⟩ := ite_none_right_eq_some.mp hreplace
    obtain ⟨rfl, -⟩ := heq
    simp only [mayReplace, Bool.and_eq_true, decide_eq_true_eq, Option.any_eq_true] at hmay
    obtain ⟨⟨⟨⟨entry, hread, hfresh⟩, hne⟩, -⟩, hparse⟩ := hmay
    rw [hread]
    exact h.damage hold hread hfresh ⟨hne, by simpa using hparse⟩

/-- `begin` admits an identity only if its latest row is not beyond `accepted`. -/
theorem begin_new_triple (limits : LifecycleLedgerLimits) (clock : ℕ → Timestamp)
    (identity requestHash : JsString) (metadata : BeginMetadata) (ledger : LifecycleLedger) :
    Triple (· = ledger) («begin» limits clock identity requestHash metadata)
      (fun result _ ↦ ∀ entry, result = .new entry → ¬ IsBegun ledger.byIdentity identity) fun _ ↦ True := by
  apply Triple.get_bind_self
  cases hlatest : latestOf ledger.byIdentity identity with
  | some =>
    apply Triple.pure
    rintro _ - entry hnew ⟨latest, hfound, hstate⟩
    obtain rfl := some.inj (hlatest.symm.trans hfound)
    rw [beginKnown] at hnew
    split_ifs at hnew
  | none =>
    have hnot : ¬ IsBegun ledger.byIdentity identity := by
      rintro ⟨latest, hfound, -⟩
      exact absurd (hlatest.symm.trans hfound) (by simp)
    intro state _
    split
    · exact fun _ _ ↦ hnot
    · trivial

theorem not_mem_effects_of_admitted {system next : System} {op : SystemOp} {answer : LedgerAnswer}
    (h : ProcessInv sha256 system.replaced system.process)
    (hstep : step sha256 limits system op = some (next, answer)) {ident : JsString}
    (hadmitted : admitted ⟨system, op, answer, next⟩ = some ident) :
    ident ∉ system.process.durable.effects := by
  rw [admitted] at hadmitted
  split at hadmitted
  · rename_i clock other requestHash metadata entry hop houtput
    obtain rfl := some.inj hadmitted
    subst hop houtput
    obtain ⟨ledger, hledger, heq⟩ := map_eq_some_iff.mp hstep
    obtain ⟨-, hanswer⟩ := Prod.mk.inj heq
    cases hprocess : system.process with
    | down =>
      rw [hprocess] at hledger
      cases hledger
    | up running =>
      rw [hprocess] at hledger h
      obtain rfl := some.inj hledger
      have hnew : Triple (· = { running with points := [] })
          (runCall sha256 limits clock (.begin other requestHash metadata))
          (fun answer _ ↦ answer = .begun (.new entry) → ¬ IsBegun running.byIdentity other)
          fun _ ↦ True := by
        apply Triple.map
        exact (begin_new_triple limits clock other requestHash metadata _).weaken
          (fun _ _ h hres ↦ h entry (LedgerAnswer.begun.inj hres)) fun _ h ↦ h
      have hrun := hnew _ rfl
      rw [perform] at hanswer
      split at hanswer
      · rename_i answer after hres
        rw [hres] at hrun
        exact fun hmem ↦ hrun hanswer (h.2 other hmem)
      · cases hanswer
  · cases hadmitted

section

def exampleClock : ℕ → Timestamp := fun _ ↦ ⟨.ofNat 1, by decide⟩

def exampleBegin (identity : String) : SystemOp :=
  .call exampleClock (.begin (utf16 identity) (utf16 "h") ⟨none, none, none, none, false⟩)

end

end

end GajaeCode.Lifecycle
