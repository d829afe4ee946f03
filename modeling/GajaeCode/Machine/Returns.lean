import Mathlib.Tactic.TypeStar

/-!
# Answers of a computation with a state

The states of a computation stand for points of a simpler space, as the states of a buffered reader
stand for what is left to read. A computation returns a value from one point to another when it does
so from every state that stands for the first one, and answers with a result when it ends with it
from all of them.
-/

namespace GajaeCode.Machine

variable {σ ε π α β : Type} {stands : σ → π → Prop} {op : StateT σ (Except ε) α}
  {next : α → StateT σ (Except ε) β} {first second third : π} {value : α} {other : β}

variable (stands) in
/-- From every state for the point, the value and a state for the second point. -/
def Returns (op : StateT σ (Except ε) α) (first : π) (value : α) (second : π) : Prop :=
  ∀ state, stands state first → ∃ after, op.run state = .ok (value, after) ∧ stands after second

variable (stands) in
/-- From every state for the point, the value or the error. -/
def Answers (op : StateT σ (Except ε) α) (first : π) (result : Except ε α) : Prop :=
  ∀ state, stands state first → op.run' state = result

theorem returns_pure (value : α) (point : π) :
    Returns stands (pure value : StateT σ (Except ε) α) point value point :=
  fun state hstate ↦ ⟨state, rfl, hstate⟩

theorem answers_pure (value : α) (point : π) :
    Answers stands (pure value : StateT σ (Except ε) α) point (.ok value) :=
  fun _ _ ↦ rfl

theorem answers_throw (error : ε) (point : π) :
    Answers stands (throw error : StateT σ (Except ε) α) point (.error error) :=
  fun _ _ ↦ rfl

section

variable (hop : Returns stands op first value second)

include hop

theorem Returns.bind (hnext : Returns stands (next value) second other third) :
    Returns stands (op >>= next) first other third := by
  intro state hstate
  obtain ⟨middle, hrun, hmiddle⟩ := hop state hstate
  obtain ⟨after, hrun', hafter⟩ := hnext middle hmiddle
  refine ⟨after, ?_, hafter⟩
  rw [StateT.run_bind, hrun]
  exact hrun'

theorem Returns.bind_answers {result : Except ε β}
    (hnext : Answers stands (next value) second result) : Answers stands (op >>= next) first result := by
  intro state hstate
  obtain ⟨middle, hrun, hmiddle⟩ := hop state hstate
  rw [StateT.run'_eq, StateT.run_bind, hrun]
  exact hnext middle hmiddle

/-- A state for a point stands for weaker points as well. -/
theorem Returns.weaken
    (h : ∀ state, stands state second → stands state third) : Returns stands op first value third := by
  intro state hstate
  obtain ⟨after, hrun, hafter⟩ := hop state hstate
  exact ⟨after, hrun, h after hafter⟩

end

end GajaeCode.Machine
