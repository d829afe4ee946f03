import Mathlib.Data.List.Basic

/-!
# Checks that stop at the first failure

A validator runs checks in order and stops at the first one that fails. It passes exactly when
every check passes, in whatever order they stand. A loop that compares every item with the ones
before it passes exactly when the items are valid and pairwise compatible.
-/

namespace GajaeCode.Machine

open List Option

variable {ε α β γ σ : Type}

/-- A condition and the failure that is raised without it. -/
def require (condition : Bool) (failure : ε) : Except ε Unit :=
  if condition then .ok () else .error failure

@[simp] theorem require_eq_ok_iff {condition : Bool} {failure : ε} {result : Unit} :
    require condition failure = .ok result ↔ condition := by
  cases condition <;> simp [require]

theorem bind_eq_ok_iff {check : Except ε α} {next : α → Except ε β} {result : β} :
    (check >>= next) = .ok result ↔ ∃ value, check = .ok value ∧ next value = .ok result := by
  cases check with
  | error | ok => simp [bind, Except.bind]

/-- A check in front of the others. -/
@[simp] theorem check_bind_eq_ok_iff {check : Except ε Unit} {next : Unit → Except ε β} {result : β} :
    (check >>= next) = .ok result ↔ check = .ok () ∧ next () = .ok result := by
  rw [bind_eq_ok_iff]
  exact ⟨fun ⟨_, hcheck, hnext⟩ ↦ ⟨hcheck, hnext⟩, fun ⟨hcheck, hnext⟩ ↦ ⟨(), hcheck, hnext⟩⟩

@[simp] theorem forM_eq_ok_iff {items : List α} {check : α → Except ε Unit} {result : Unit} :
    items.forM check = .ok result ↔ ∀ item ∈ items, check item = .ok () := by
  induction items with
  | nil => simp [List.forM, pure, Except.pure]
  | cons item rest ih =>
    rw [List.forM, check_bind_eq_ok_iff, ih, forall_mem_cons]

/-- A search that finds nothing has seen every item. -/
theorem eq_ok_false_of_anyM {items : List α} {test : α → Except ε Bool}
    (h : items.anyM test = .ok false) : ∀ item ∈ items, test item = .ok false := by
  induction items with
  | nil => simp
  | cons item rest ih =>
    rw [anyM, bind_eq_ok_iff] at h
    obtain ⟨found, htest, hrest⟩ := h
    cases found with
    | true => simp [pure, Except.pure] at hrest
    | false => exact forall_mem_cons.mpr ⟨htest, ih hrest⟩

/-- A list of answers that are all there holds the answer to each question. -/
theorem exists_of_mapM_eq_some {items : List α} {answer : α → Option β} {answers : List β}
    (h : items.mapM answer = some answers) {item : α} (hitem : item ∈ items) :
    ∃ found ∈ answers, answer item = some found := by
  induction items generalizing answers with
  | nil => exact absurd hitem not_mem_nil
  | cons first rest ih =>
    simp only [mapM_cons, bind_eq_bind, bind_eq_some_iff, Option.pure_def, some.injEq] at h
    obtain ⟨found, hfound, others, hothers, rfl⟩ := h
    rcases mem_cons.mp hitem with rfl | hmem
    · exact ⟨found, mem_cons_self, hfound⟩
    · obtain ⟨other, hother, hanswer⟩ := ih hothers hmem
      exact ⟨other, mem_cons_of_mem _ hother, hanswer⟩

section

variable {step : σ → α → Except ε σ} {items : List α} {state : σ}

theorem exists_foldlM_eq_ok (h : ∀ item ∈ items, ∀ state, ∃ result, step state item = .ok result) :
    ∃ result, items.foldlM step state = .ok result := by
  induction items generalizing state with
  | nil => exact ⟨state, rfl⟩
  | cons item rest ih =>
    rw [forall_mem_cons] at h
    obtain ⟨next, hnext⟩ := h.1 state
    obtain ⟨result, hres⟩ := @ih next h.2
    exact ⟨result, bind_eq_ok_iff.mpr ⟨next, hnext, hres⟩⟩

/-- A loop that collects its items keeps what every step keeps of the items so far. -/
theorem forall_of_foldlM {step : List α → α → Except ε (List α)} {property : α → Prop}
    (hstep : ∀ item seen next, step seen item = .ok next → (∀ item ∈ seen, property item) →
      (∀ item ∈ next, property item) ∧ item ∈ next ∧ seen ⊆ next)
    {seen result : List α} (h : items.foldlM step seen = .ok result)
    (hseen : ∀ item ∈ seen, property item) :
    (∀ item ∈ result, property item) ∧ items ⊆ result ∧ seen ⊆ result := by
  induction items generalizing seen with
  | nil =>
    cases h
    exact ⟨hseen, nil_subset _, Subset.refl _⟩
  | cons item rest ih =>
    obtain ⟨next, hnext, hrest⟩ := bind_eq_ok_iff.mp h
    obtain ⟨hkept, hitem, hsubset⟩ := hstep item seen next hnext hseen
    obtain ⟨hres, hitems, hsubset'⟩ := ih hrest hkept
    exact ⟨hres, cons_subset.mpr ⟨hsubset' hitem, hitems⟩, Subset.trans hsubset hsubset'⟩

end

section

variable {step : σ → γ → Except ε σ} {summary : List α → σ} {emit : γ → List α}
  {valid : γ → Prop} {compatible : α → α → Prop}

/-- A loop over groups of items, with a summary of the items so far: it passes exactly when every
group is valid and all items are pairwise compatible. -/
theorem foldlM_eq_ok_iff (hstep : ∀ done group result, step (summary done) group = .ok result ↔
      (valid group ∧ (∀ item ∈ emit group, ∀ earlier ∈ done, compatible earlier item) ∧
        (emit group).Pairwise compatible) ∧ result = summary (done ++ emit group))
    {groups : List γ} {done : List α} {result : σ} :
    groups.foldlM step (summary done) = .ok result ↔ (∀ group ∈ groups, valid group) ∧
      (∀ item ∈ groups.flatMap emit, ∀ earlier ∈ done, compatible earlier item) ∧
      (groups.flatMap emit).Pairwise compatible ∧ result = summary (done ++ groups.flatMap emit) := by
  induction groups generalizing done with
  | nil => simp [pure, Except.pure, eq_comm]
  | cons group rest ih =>
    rw [foldlM_cons, bind_eq_ok_iff]
    simp only [hstep, flatMap_cons, forall_mem_cons, forall_mem_append, pairwise_append]
    constructor
    · rintro ⟨_, ⟨⟨hvalid, hdone, hpairs⟩, rfl⟩, hrest⟩
      obtain ⟨hvalids, hcross, hpairs', rfl⟩ := ih.mp hrest
      refine ⟨⟨hvalid, hvalids⟩, ⟨hdone, fun item hitem earlier hearlier ↦ ?_⟩, ⟨hpairs, hpairs', ?_⟩,
        by rw [append_assoc]⟩
      · exact hcross item hitem earlier (mem_append_left _ hearlier)
      · exact fun earlier hearlier item hitem ↦
          hcross item hitem earlier (mem_append_right _ hearlier)
    · rintro ⟨⟨hvalid, hvalids⟩, ⟨hdone, hdone'⟩, ⟨hpairs, hpairs', hcross⟩, rfl⟩
      refine ⟨_, ⟨⟨hvalid, hdone, hpairs⟩, rfl⟩, ih.mpr ⟨hvalids, ?_, hpairs', by rw [append_assoc]⟩⟩
      intro item hitem earlier hearlier
      rcases mem_append.mp hearlier with hearlier | hearlier
      · exact hdone' item hitem earlier hearlier
      · exact hcross earlier hearlier item hitem

end

/-! ## Two computations with the same failures -/

/-- Both fail in the same way, or both return related values. -/
def Agree (relation : α → β → Prop) : Except ε α → Except ε β → Prop
  | .ok left, .ok right => relation left right
  | .error left, .error right => left = right
  | _, _ => False

theorem Agree.bind {relation : α → β → Prop} {relation' : γ → σ → Prop} {left : Except ε α}
    {right : Except ε β} {leftNext : α → Except ε γ} {rightNext : β → Except ε σ}
    (h : Agree relation left right)
    (hnext : ∀ value value', relation value value' → Agree relation' (leftNext value) (rightNext value')) :
    Agree relation' (left.bind leftNext) (right.bind rightNext) := by
  cases left <;> cases right <;> first | exact h.elim | exact h | exact hnext _ _ h

theorem Agree.and_right {relation : α → β → Prop} {property : β → Prop} {left : Except ε α}
    {right : Except ε β} (h : Agree relation left right)
    (hright : ∀ value, right = .ok value → property value) :
    Agree (fun value value' ↦ relation value value' ∧ property value') left right := by
  cases left <;> cases right <;> first | exact h.elim | exact h | exact ⟨h, hright _ rfl⟩

theorem agree_of_eq {left right : Except ε α} (h : left = right) : Agree Eq left right := by
  subst h
  cases left <;> rfl

theorem Agree.eq {left right : Except ε α} (h : Agree Eq left right) : left = right := by
  cases left <;> cases right <;> first | exact h.elim | exact congrArg _ h

end GajaeCode.Machine
