import Mathlib.Tactic.TypeStar

/-!
# Computations whose state outlives an exception

An asynchronous method changes its object step by step, and what it changed stays changed when it
throws. Such a method is a computation in `ExceptT ε (StateM σ)`. A triple says what holds after it
returned and what holds after it threw; a loop keeps an invariant when its body does.
-/

namespace GajaeCode.Machine

variable {σ ε α β : Type} {pre : σ → Prop} {post : α → σ → Prop} {post' : β → σ → Prop}
  {threw : σ → Prop} {op : ExceptT ε (StateM σ) α} {next : α → ExceptT ε (StateM σ) β}

/-- From a state with `pre`, the computation returns to a state with `post` or throws in one with
`threw`. -/
def Triple (pre : σ → Prop) (op : ExceptT ε (StateM σ) α) (post : α → σ → Prop) (threw : σ → Prop) :
    Prop :=
  ∀ state, pre state →
    match op.run.run state with
    | (.ok value, after) => post value after
    | (.error _, after) => threw after

theorem Triple.pure {value : α} (h : ∀ state, pre state → post value state) :
    Triple pre (pure value : ExceptT ε (StateM σ) α) post threw := h

theorem Triple.throw {error : ε} (h : ∀ state, pre state → threw state) :
    Triple pre (throw error : ExceptT ε (StateM σ) α) post threw := h

theorem Triple.pure_self {state : σ} {value : α} (h : post value state) :
    Triple (· = state) (Pure.pure value : ExceptT ε (StateM σ) α) post threw := by
  rintro _ rfl
  exact h

theorem Triple.throw_self {state : σ} {error : ε} (h : threw state) :
    Triple (· = state) (MonadExcept.throw error : ExceptT ε (StateM σ) α) post threw := by
  rintro _ rfl
  exact h

theorem Triple.bind (hop : Triple pre op post threw)
    (hnext : ∀ value, Triple (post value) (next value) post' threw) :
    Triple pre (op >>= next) post' threw := by
  intro state hstate
  have hfirst := hop state hstate
  have hrun : (op >>= next).run.run state = match op.run.run state with
      | (.ok value, after) => (next value).run.run after
      | (.error error, after) => (.error error, after) := by
    change (ExceptT.bindCont next (op.run.run state).1).run (op.run.run state).2 = _
    rcases op.run.run state with ⟨value | value, after⟩ <;> rfl
  rw [hrun]
  rcases hres : op.run.run state with ⟨error | value, after⟩
  · rw [hres] at hfirst
    exact hfirst
  · rw [hres] at hfirst
    exact hnext value after hfirst

theorem Triple.map {function : α → β} (h : Triple pre op (fun value ↦ post' (function value)) threw) :
    Triple pre (function <$> op) post' threw := by
  exact h.bind fun _ ↦ Triple.pure fun _ hstate ↦ hstate

/-- Each state may be treated by itself. -/
theorem Triple.of_forall (h : ∀ state, pre state → Triple (· = state) op post threw) :
    Triple pre op post threw := fun state hstate ↦ h state hstate state rfl

/-- The state is read, and the rest starts in it. -/
theorem Triple.get_bind {next : σ → ExceptT ε (StateM σ) β}
    (h : ∀ state, pre state → Triple (· = state) (next state) post' threw) :
    Triple pre (get >>= next) post' threw := fun state hstate ↦ h state hstate state rfl

theorem Triple.get_bind_self {state : σ} {next : σ → ExceptT ε (StateM σ) β}
    (h : Triple (· = state) (next state) post' threw) :
    Triple (· = state) (get >>= next) post' threw := by
  apply Triple.get_bind
  rintro _ rfl
  exact h

/-- The state is changed, and the rest starts in the new one. -/
theorem Triple.modify_bind {update : σ → σ} {next : PUnit → ExceptT ε (StateM σ) β}
    (h : ∀ state, pre state → Triple (· = update state) (next ⟨⟩) post' threw) :
    Triple pre (modify update >>= next) post' threw := fun state hstate ↦ h state hstate _ rfl

theorem Triple.ite {cond : Prop} [Decidable cond] {op' : ExceptT ε (StateM σ) α}
    (hthen : cond → Triple pre op post threw) (helse : ¬ cond → Triple pre op' post threw) :
    Triple pre (if cond then op else op') post threw := by
  by_cases h : cond
  · rw [if_pos h]
    exact hthen h
  · rw [if_neg h]
    exact helse h

theorem Triple.strengthen {pre' : σ → Prop} (h : Triple pre op post threw)
    (hpre : ∀ state, pre' state → pre state) : Triple pre' op post threw :=
  fun state hstate ↦ h state (hpre state hstate)

theorem Triple.weaken {weaker : α → σ → Prop} {threw' : σ → Prop} (h : Triple pre op post threw)
    (hpost : ∀ value state, post value state → weaker value state)
    (hthrew : ∀ state, threw state → threw' state) : Triple pre op weaker threw' := by
  intro state hstate
  have hop := h state hstate
  rcases hres : op.run.run state with ⟨error | value, after⟩
  · rw [hres] at hop
    exact hthrew after hop
  · rw [hres] at hop
    exact hpost value after hop

/-- A loop over a list, with an invariant on the items that are left. -/
theorem Triple.forM {body : β → ExceptT ε (StateM σ) PUnit} (invariant : List β → σ → Prop)
    {items : List β} (h : ∀ item ∈ items, ∀ rest,
      Triple (invariant (item :: rest)) (body item) (fun _ ↦ invariant rest) threw) :
    Triple (invariant items) (items.forM body) (fun _ ↦ invariant []) threw := by
  induction items with
  | nil => exact Triple.pure fun _ hstate ↦ hstate
  | cons item rest ih =>
    rw [List.forall_mem_cons] at h
    exact (h.1 rest).bind fun _ ↦ ih h.2

end GajaeCode.Machine
