import Mathlib.Tactic.SplitIfs

/-!
# Traces of a partial machine

A machine answers an operation with an output and a new state, or stops. The trace of a list of
operations is the list of transitions up to the point where the machine stops. Facts about all
transitions of a trace follow from an invariant that each step keeps, and an event that needs a
fresh resource and uses it up happens at most once.
-/

namespace GajaeCode.Machine

open List

variable {σ ι ο : Type} (step : σ → ι → Option (σ × ο))

/-- One step of a machine, with the states around it. -/
structure Transition (σ ι ο : Type) where
  before : σ
  op : ι
  output : ο
  after : σ

/-- The transitions of a list of operations, up to the first one that stops the machine. -/
def trace : σ → List ι → List (Transition σ ι ο)
  | _, [] => []
  | state, op :: rest =>
      match step state op with
      | none => []
      | some (after, output) => ⟨state, op, output, after⟩ :: trace after rest

/-- A property of states that every step keeps. -/
def Keeps (invariant : σ → Prop) : Prop :=
  ∀ state op after output, invariant state → step state op = some (after, output) → invariant after

variable {step} {invariant : σ → Prop} {transition : Transition σ ι ο} {state : σ} {ops : List ι}

theorem op_mem_of_mem_trace (h : transition ∈ trace step state ops) : transition.op ∈ ops := by
  induction ops generalizing state with
  | nil => simp [trace] at h
  | cons op rest ih =>
    rw [trace] at h
    cases hstep : step state op with
    | none => simp [hstep] at h
    | some =>
      rw [hstep] at h
      rcases mem_cons.mp h with rfl | h
      · exact mem_cons_self
      · exact mem_cons_of_mem _ (ih h)

/-- Every transition of a trace whose steps are all guarded is a step between two states that
satisfy an invariant of guarded steps. -/
theorem of_mem_guarded_trace {guard : σ → ι → Prop}
    (hkeeps : ∀ state op after output, guard state op → invariant state →
      step state op = some (after, output) → invariant after) (hstate : invariant state)
    (hguard : ∀ transition ∈ trace step state ops, guard transition.before transition.op)
    (h : transition ∈ trace step state ops) :
    step transition.before transition.op = some (transition.after, transition.output) ∧
      invariant transition.before ∧ invariant transition.after := by
  induction ops generalizing state with
  | nil => simp [trace] at h
  | cons op rest ih =>
    rw [trace] at h hguard
    cases hstep : step state op with
    | none => simp [hstep] at h
    | some result =>
      obtain ⟨after, output⟩ := result
      rw [hstep] at h hguard
      rw [forall_mem_cons] at hguard
      have hafter := hkeeps state op after output hguard.1 hstate hstep
      rcases mem_cons.mp h with rfl | h
      · exact ⟨hstep, hstate, hafter⟩
      · exact ih hafter hguard.2 h

/-- Every transition of a trace is a step between two states that satisfy the invariant. -/
theorem of_mem_trace (hkeeps : Keeps step invariant) (hstate : invariant state)
    (h : transition ∈ trace step state ops) :
    step transition.before transition.op = some (transition.after, transition.output) ∧
      invariant transition.before ∧ invariant transition.after := by
  have hguarded : ∀ state op after output, True → invariant state →
      step state op = some (after, output) → invariant after :=
    fun state op after output _ ↦ hkeeps state op after output
  exact of_mem_guarded_trace hguarded hstate (fun _ _ ↦ trivial) h

/-- An event that needs a fresh state and leaves a spent one happens at most once, and not at
all from a spent state. -/
theorem countP_trace_le_one (hkeeps : Keeps step invariant)
    {spent : σ → Prop} {event : Transition σ ι ο → Bool}
    (hspent : ∀ state op after output, invariant state → step state op = some (after, output) →
      spent state → spent after)
    (hevent : ∀ state op after output, invariant state → step state op = some (after, output) →
      event ⟨state, op, output, after⟩ → ¬ spent state ∧ spent after)
    (hstate : invariant state) (ops : List ι) :
    (trace step state ops).countP event ≤ 1 ∧
      (spent state → (trace step state ops).countP event = 0) := by
  induction ops generalizing state with
  | nil => simp [trace]
  | cons op rest ih =>
    rw [trace]
    cases hstep : step state op with
    | none => simp
    | some result =>
      obtain ⟨after, output⟩ := result
      obtain ⟨hone, hnone⟩ := ih (hkeeps state op after output hstate hstep)
      rw [countP_cons]
      split_ifs with hhappens
      · obtain ⟨hfresh, hused⟩ := hevent state op after output hstate hstep hhappens
        rw [hnone hused]
        exact ⟨Nat.le_refl 1, fun h ↦ absurd h hfresh⟩
      · exact ⟨hone, fun h ↦ hnone (hspent state op after output hstate hstep h)⟩

/-- Where every guarded step goes up in a preorder, every later transition of a trace starts above
the end of every earlier one. -/
theorem pairwise_trace {guard : σ → ι → Prop} {le : σ → σ → Prop}
    (hrefl : ∀ state, le state state) (htrans : ∀ {a b c}, le a b → le b c → le a c)
    (hstep : ∀ state op after output, guard state op → invariant state →
      step state op = some (after, output) → invariant after ∧ le state after)
    (hstate : invariant state)
    (hguard : ∀ transition ∈ trace step state ops, guard transition.before transition.op) :
    (∀ transition ∈ trace step state ops, invariant transition.before ∧ le state transition.before) ∧
      (trace step state ops).Pairwise fun earlier later ↦ le earlier.after later.before := by
  induction ops generalizing state with
  | nil => simp [trace]
  | cons op rest ih =>
    rw [trace] at hguard ⊢
    cases hres : step state op with
    | none => simp
    | some result =>
      obtain ⟨after, output⟩ := result
      rw [hres] at hguard
      rw [forall_mem_cons] at hguard
      obtain ⟨hafter, hup⟩ := hstep state op after output hguard.1 hstate hres
      obtain ⟨hall, hpairs⟩ := ih hafter hguard.2
      rw [forall_mem_cons, pairwise_cons]
      exact ⟨⟨⟨hstate, hrefl state⟩, fun later hlater ↦
        ⟨(hall later hlater).1, htrans hup (hall later hlater).2⟩⟩,
        fun later hlater ↦ (hall later hlater).2, hpairs⟩

end GajaeCode.Machine
