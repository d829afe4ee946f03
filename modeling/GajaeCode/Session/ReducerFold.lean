import GajaeCode.Text.Utf16
import Mathlib.Algebra.Order.Group.Unbundled.Int
import Mathlib.Data.List.Induction
import Mathlib.Data.List.Nodup

/-!
# Folding reducer states

The reducer keeps the newest model change and the newest TTSR counts of a run of deltas. Applying a
delta overwrites blindly, while folding two states decides by the ordinals they hold. Either way the
state holds the newest deltas of its input, which no order and no bracketing changes while the
ordinals differ.
-/

namespace GajaeCode.Session

open Text List

variable {α : Type}

structure TtsrCounts where
  count : ℕ
  rulesCount : ℕ
  recordsCount : ℕ
  deriving DecidableEq

inductive ReducerDelta
  | latestModelChange (ordinal : ℤ) (role : Option JsString)
  | ttsrInjection (ordinal : ℤ) (counts : TtsrCounts)

structure TtsrReducerState extends TtsrCounts where
  largestOrdinal : ℤ
  deriving DecidableEq

structure ReducerState where
  modelChange : Option (ℤ × Option JsString)
  ttsr : TtsrReducerState
  deriving DecidableEq

def createReducerState : ReducerState := ⟨none, ⟨⟨0, 0, 0⟩, -1⟩⟩

def applyReducerDelta (state : ReducerState) : ReducerDelta → ReducerState
  | .latestModelChange ordinal role => { state with modelChange := some (ordinal, role) }
  | .ttsrInjection ordinal counts =>
      { state with ttsr := ⟨counts, max state.ttsr.largestOrdinal ordinal⟩ }

def foldModelChange : Option (ℤ × α) → Option (ℤ × α) → Option (ℤ × α)
  | none, right => right
  | left, none => left
  | some left, some right => if left.1 ≥ right.1 then some left else some right

def foldReducerStates (left right : ReducerState) : ReducerState where
  modelChange := foldModelChange left.modelChange right.modelChange
  ttsr := if left.ttsr.largestOrdinal ≥ right.ttsr.largestOrdinal then left.ttsr else right.ttsr

/-- The state of a run. -/
def reduceDeltas (run : List ReducerDelta) : ReducerState :=
  run.foldl applyReducerDelta createReducerState

/-- An order and a bracketing in which pieces are folded. -/
inductive Bracketing (α : Type)
  | piece (value : α)
  | fold (left right : Bracketing α)

namespace Bracketing

def pieces : Bracketing α → List α
  | piece value => [value]
  | fold left right => left.pieces ++ right.pieces

/-- The pieces are reduced one by one and their states folded. -/
def reduce : Bracketing (List ReducerDelta) → ReducerState
  | piece run => reduceDeltas run
  | fold left right => foldReducerStates left.reduce right.reduce

end Bracketing

def ReducerDelta.ordinal : ReducerDelta → ℤ
  | latestModelChange ordinal _ => ordinal
  | ttsrInjection ordinal _ => ordinal

open ReducerDelta

/-- Among the deltas of one kind, the newest is the given one. -/
def IsNewest (kind : ℤ → α → ReducerDelta) (deltas : List ReducerDelta) :
    Option (ℤ × α) → Prop
  | none => ∀ ordinal value, kind ordinal value ∉ deltas
  | some (newest, value) => kind newest value ∈ deltas ∧
      ∀ ordinal other, kind ordinal other ∈ deltas → ordinal ≤ newest

/-- The TTSR part of a state that holds the given counts. -/
def TtsrReducerState.ofNewest : Option (ℤ × TtsrCounts) → TtsrReducerState
  | none => createReducerState.ttsr
  | some (ordinal, counts) => ⟨counts, ordinal⟩

/-- What the reducer is for: the newest delta of each kind. -/
def ReducerState.Holds (state : ReducerState) (deltas : List ReducerDelta) : Prop :=
  IsNewest latestModelChange deltas state.modelChange ∧
    ∃ newest, IsNewest ttsrInjection deltas newest ∧ state.ttsr = .ofNewest newest

section

variable {kind : ℤ → α → ReducerDelta} {left right : List ReducerDelta}
  {newest newest' : Option (ℤ × α)} (h : IsNewest kind left newest)
include h

theorem IsNewest.fold (h' : IsNewest kind right newest') :
    IsNewest kind (left ++ right) (foldModelChange newest newest') := by
  cases newest <;> cases newest' <;> grind [IsNewest, foldModelChange]

theorem IsNewest.unique (h' : IsNewest kind right newest')
    (hmem : ∀ delta, delta ∈ left ↔ delta ∈ right)
    (hvalue : ∀ ordinal value other,
      kind ordinal value ∈ left → kind ordinal other ∈ left → value = other) :
    newest = newest' := by
  cases newest <;> cases newest' <;> grind [IsNewest]

end

namespace ReducerState.Holds

variable {state state' : ReducerState} {left right : List ReducerDelta} (h : state.Holds left)
include h

theorem fold (h' : state'.Holds right) (hordinals : ∀ delta ∈ left ++ right, 0 ≤ delta.ordinal) :
    (foldReducerStates state state').Holds (left ++ right) := by
  obtain ⟨hmodel, newest, httsr, heq⟩ := h
  obtain ⟨hmodel', newest', httsr', heq'⟩ := h'
  refine ⟨hmodel.fold hmodel', foldModelChange newest newest', httsr.fold httsr', ?_⟩
  rw [foldReducerStates, heq, heq']
  rw [forall_mem_append] at hordinals
  -- the initial ordinal -1 is below those of all deltas
  cases newest <;> cases newest' <;>
    grind [IsNewest, foldModelChange, TtsrReducerState.ofNewest, createReducerState, ordinal]

/-- A delta is applied as its own state is folded, as long as it is the newest. -/
theorem apply {delta : ReducerDelta} (hordinals : ∀ other ∈ left ++ [delta], 0 ≤ other.ordinal)
    (hnewest : ∀ other ∈ left, other.ordinal < delta.ordinal) :
    (applyReducerDelta state delta).Holds (left ++ [delta]) := by
  obtain ⟨hmodel, newest, httsr, heq⟩ := h
  rw [forall_mem_append] at hordinals
  cases delta with
  | latestModelChange number role =>
    refine ⟨by grind [IsNewest, applyReducerDelta, ordinal], newest, ?_, heq⟩
    cases newest <;> grind [IsNewest]
  | ttsrInjection number counts =>
    refine ⟨?_, some (number, counts), by grind [IsNewest, ordinal], ?_⟩
    · rw [applyReducerDelta]
      cases hstate : state.modelChange <;> grind [IsNewest]
    · rw [applyReducerDelta, heq]
      cases newest <;> grind [IsNewest, TtsrReducerState.ofNewest, createReducerState, ordinal]

theorem unique (h' : state'.Holds right) (hmem : ∀ delta, delta ∈ left ↔ delta ∈ right)
    (hdist : (left.map ordinal).Nodup) : state = state' := by
  have hinj := inj_on_of_nodup_map hdist
  obtain ⟨hmodel, newest, httsr, heq⟩ := h
  obtain ⟨hmodel', newest', httsr', heq'⟩ := h'
  have hmodelChange := hmodel.unique hmodel' hmem (by grind [ordinal])
  have hnewest := httsr.unique httsr' hmem (by grind [ordinal])
  cases state
  cases state'
  simp_all

end ReducerState.Holds

/-- A run with increasing ordinals leaves its newest deltas. -/
theorem holds_reduceDeltas {run : List ReducerDelta}
    (hrun : run.Pairwise (·.ordinal < ·.ordinal)) (h : ∀ delta ∈ run, 0 ≤ delta.ordinal) :
    (reduceDeltas run).Holds run := by
  induction run using reverseRecOn with
  | nil => exact ⟨fun _ _ ↦ not_mem_nil, none, fun _ _ ↦ not_mem_nil, rfl⟩
  | append_singleton run last ih =>
    obtain ⟨hrun, -, hlast⟩ := pairwise_append.mp hrun
    rw [reduceDeltas, foldl_append]
    exact (ih hrun fun delta hdelta ↦ h delta (mem_append_left _ hdelta)).apply h
      fun delta hdelta ↦ hlast delta hdelta last (mem_singleton_self _)

theorem Bracketing.holds_reduce (order : Bracketing (List ReducerDelta))
    (hruns : ∀ run ∈ order.pieces, run.Pairwise (·.ordinal < ·.ordinal))
    (h : ∀ delta ∈ order.pieces.flatten, 0 ≤ delta.ordinal) :
    order.reduce.Holds order.pieces.flatten := by
  induction order with
  | piece run =>
    rw [pieces, flatten_singleton] at h ⊢
    exact holds_reduceDeltas (hruns run (mem_singleton_self _)) h
  | fold left right ihLeft ihRight =>
    rw [pieces, flatten_append] at h ⊢
    have hleft := ihLeft (fun run hrun ↦ hruns run (mem_append_left _ hrun))
      fun delta hdelta ↦ h delta (mem_append_left _ hdelta)
    have hright := ihRight (fun run hrun ↦ hruns run (mem_append_right _ hrun))
      fun delta hdelta ↦ h delta (mem_append_right _ hdelta)
    exact hleft.fold hright h

/-- The states of the pieces of a run fold to the state of the run, in any order and bracketing. -/
theorem reduce_eq_reduceDeltas (runs : List (List ReducerDelta))
    (order : Bracketing (List ReducerDelta)) (hpieces : order.pieces.Perm runs)
    (hrun : runs.flatten.Pairwise (·.ordinal < ·.ordinal))
    (h : ∀ delta ∈ runs.flatten, 0 ≤ delta.ordinal) :
    order.reduce = reduceDeltas runs.flatten := by
  have hmem (delta) := hpieces.flatten.mem_iff (a := delta)
  have hdist : (runs.flatten.map ordinal).Nodup :=
    pairwise_map.mpr (hrun.imp fun hlt ↦ hlt.ne)
  have hfolded := order.holds_reduce
    (fun run hmem ↦ (pairwise_flatten.mp hrun).1 run (hpieces.mem_iff.mp hmem))
    fun delta hdelta ↦ h delta ((hmem delta).mp hdelta)
  exact ((holds_reduceDeltas hrun h).unique hfolded (fun delta ↦ (hmem delta).symm) hdist).symm

theorem reduce_eq_reduceDeltas_swapped : (Bracketing.fold (.piece [.ttsrInjection 2 ⟨3, 1, 2⟩])
      (.piece [.latestModelChange 0 none, .ttsrInjection 1 ⟨1, 1, 1⟩])).reduce =
      ⟨some (0, none), ⟨⟨3, 1, 2⟩, 2⟩⟩ :=
  reduce_eq_reduceDeltas [[.latestModelChange 0 none, .ttsrInjection 1 ⟨1, 1, 1⟩],
    [.ttsrInjection 2 ⟨3, 1, 2⟩]] _ (.swap ..) (by decide) (by decide)

end GajaeCode.Session
