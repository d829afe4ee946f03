import GajaeCode.Text.Utf16

/-!
# The tool-choice queue

Directives force the tool choices of the coming turns. A choice that was yielded stays in flight until
it is resolved, rejected or degraded; the callback of a rejected one may ask for it to be replayed. A
directive keeps the label it was pushed with beside its current one, which a replay extends.
-/

namespace GajaeCode.Session

open Text List Option

variable {χ : Type*}

/-- A generator is the sequence of its next results; `none` ends it. -/
structure ToolChoiceDirective (χ : Type*) where
  id : ℕ
  pushedLabel : JsString
  label : JsString
  generator : ℕ → Option χ
  hasOnRejected : Bool

structure InFlight (χ : Type*) where
  directive : ToolChoiceDirective χ
  yielded : χ

/-- `nextId` stands for object identity: every new directive is another object. -/
structure ToolChoiceQueue (χ : Type*) where
  queue : List (ToolChoiceDirective χ)
  inFlight : Option (InFlight χ)
  lastResolvedLabel : Option JsString
  nextId : ℕ

structure PushOptions where
  now : Bool
  label : Option JsString
  hasOnRejected : Bool

inductive RejectOutcome
  | requeue
  | drop
  deriving DecidableEq

def onceGen (choice : χ) : ℕ → Option χ
  | 0 => some choice
  | _ + 1 => none

namespace ToolChoiceQueue

def empty : ToolChoiceQueue χ := ⟨[], none, none, 0⟩

def pushLabel (options : PushOptions) : JsString := options.label.getD (utf16 "anonymous")

variable (q : ToolChoiceQueue χ)

def push (generator : ℕ → Option χ) (options : PushOptions) : ToolChoiceQueue χ :=
  let directive : ToolChoiceDirective χ :=
    ⟨q.nextId, pushLabel options, pushLabel options, generator, options.hasOnRejected⟩
  { q with
    queue := if options.now then directive :: q.queue else q.queue ++ [directive]
    nextId := q.nextId + 1 }

/-- The first directive that still yields, advanced, with what stands behind it. -/
def serve : List (ToolChoiceDirective χ) → Option (InFlight χ × List (ToolChoiceDirective χ))
  | [] => none
  | head :: rest =>
    match head.generator 0 with
    | none => serve rest
    | some choice => some (⟨{ head with generator := fun n ↦ head.generator (n + 1) }, choice⟩, rest)

def nextToolChoice : Option χ × ToolChoiceQueue χ :=
  match serve q.queue with
  | none => (none, { q with queue := [] })
  | some (inFlight, rest) =>
    (some inFlight.yielded, { q with queue := inFlight.directive :: rest, inFlight := some inFlight })

def resolve : ToolChoiceQueue χ :=
  match q.inFlight with
  | none => q
  | some inFlight =>
    { q with inFlight := none, lastResolvedLabel := some inFlight.directive.label }

/-- `outcome` is the callback's answer, which may depend on anything. -/
def reject (outcome : RejectOutcome) : ToolChoiceQueue χ :=
  match q.inFlight with
  | none => q
  | some ⟨directive, yielded⟩ =>
    if directive.hasOnRejected ∧ outcome = .requeue then
      { q with
        queue := { directive with
          id := q.nextId
          label := directive.label ++ utf16 "-requeued"
          generator := onceGen yielded } :: q.queue
        inFlight := none
        nextId := q.nextId + 1 }
    else { q with inFlight := none }

def degradeInFlight : ToolChoiceQueue χ :=
  match q.inFlight with
  | none => q
  | some inFlight =>
    { q with
      inFlight := none
      queue := if q.queue.head?.map (·.id) = some inFlight.directive.id then q.queue.tail
        else q.queue }

def removeByLabel (label : JsString) (outcome : RejectOutcome) : ToolChoiceQueue χ :=
  let rejected :=
    if q.inFlight.map (·.directive.label) = some label then q.reject outcome else q
  { rejected with queue := rejected.queue.filter (·.label ≠ label) }

inductive Operation (χ : Type*)
  | push (generator : ℕ → Option χ) (options : PushOptions)
  | nextToolChoice
  | resolve
  | reject (outcome : RejectOutcome)
  | degradeInFlight
  | removeByLabel (label : JsString) (outcome : RejectOutcome)

def step : Operation χ → ToolChoiceQueue χ
  | .push generator options => q.push generator options
  | .nextToolChoice => q.nextToolChoice.2
  | .resolve => q.resolve
  | .reject outcome => q.reject outcome
  | .degradeInFlight => q.degradeInFlight
  | .removeByLabel label outcome => q.removeByLabel label outcome

/-- What an operation yields, with the directive it came from. -/
def yielded : Operation χ → Option (InFlight χ)
  | .nextToolChoice => (serve q.queue).map Prod.fst
  | _ => none

def yields : ToolChoiceQueue χ → List (Operation χ) → List (InFlight χ)
  | _, [] => []
  | q, operation :: rest => (q.yielded operation).toList ++ yields (q.step operation) rest

/-- An operation that pushes under a label. -/
def Operation.Pushes (label : JsString) : Operation χ → Prop
  | .push _ options => pushLabel options = label
  | _ => False

/-- No choice pushed under the label is left: none can be yielded and none replayed. -/
def Gone (label : JsString) (q : ToolChoiceQueue χ) : Prop :=
  (∀ directive ∈ q.queue, directive.pushedLabel = label → directive.generator 0 = none) ∧
    ∀ inFlight ∈ q.inFlight, inFlight.directive.pushedLabel = label →
      inFlight.directive.hasOnRejected = false

/-- The removal finds no replay of the label that still yields or may be replayed again, and the
callback does not ask for one itself. -/
def RemovesAll (label : JsString) (outcome : RejectOutcome) (q : ToolChoiceQueue χ) : Prop :=
  (∀ directive ∈ q.queue, directive.pushedLabel = label → directive.label ≠ label →
    directive.generator 0 = none) ∧
    ∀ inFlight ∈ q.inFlight, inFlight.directive.pushedLabel = label →
      inFlight.directive.hasOnRejected → inFlight.directive.label = label ∧ outcome = .drop

variable {q : ToolChoiceQueue χ} {label : JsString} {outcome : RejectOutcome}

theorem of_serve_eq_some {directives rest : List (ToolChoiceDirective χ)} {inFlight : InFlight χ}
    (h : serve directives = some (inFlight, rest)) :
    (∃ directive ∈ directives, directive.generator 0 ≠ none ∧
      inFlight.directive.pushedLabel = directive.pushedLabel) ∧ rest ⊆ directives := by
  induction directives with
  | nil => cases h
  | cons head tail ih =>
    rw [serve] at h
    split at h
    · obtain ⟨⟨directive, hmem, hdirective⟩, hrest⟩ := ih h
      exact ⟨⟨directive, mem_cons_of_mem _ hmem, hdirective⟩, subset_cons_of_subset _ hrest⟩
    · rename_i choice hchoice
      cases h
      exact ⟨⟨head, mem_cons_self, by simp [hchoice], rfl⟩, subset_cons_self _ _⟩

/-- Whatever is new in a queue comes from other labels. -/
def Adds (label : JsString) (q q' : ToolChoiceQueue χ) : Prop :=
  (∀ directive ∈ q'.queue, directive ∈ q.queue ∨ directive.pushedLabel ≠ label) ∧
    ∀ inFlight ∈ q'.inFlight, inFlight ∈ q.inFlight ∨ inFlight.directive.pushedLabel ≠ label

theorem Gone.of_adds {q' : ToolChoiceQueue χ} (h : Gone label q) (hadds : Adds label q q') :
    Gone label q' := by
  refine ⟨fun directive hmem hlabel ↦ ?_, fun inFlight hmem hlabel ↦ ?_⟩
  · exact h.1 directive ((hadds.1 directive hmem).resolve_right (not_not.mpr hlabel)) hlabel
  · exact h.2 inFlight ((hadds.2 inFlight hmem).resolve_right (not_not.mpr hlabel)) hlabel

theorem Gone.reject (h : Gone label q) : Gone label (q.reject outcome) := by
  apply h.of_adds
  unfold ToolChoiceQueue.reject
  cases hinFlight : q.inFlight with
  | none => exact ⟨fun _ ↦ Or.inl, fun _ ↦ Or.inl⟩
  | some =>
    dsimp only
    split
    · rename_i hrequeue
      refine ⟨fun other hother ↦ ?_, fun _ ↦ nofun⟩
      rcases mem_cons.mp hother with rfl | hold
      · exact Or.inr fun hlabel ↦ Bool.false_ne_true ((h.2 _ hinFlight hlabel).symm.trans hrequeue.1)
      · exact .inl hold
    · exact ⟨fun _ ↦ Or.inl, fun _ ↦ nofun⟩

theorem Gone.removeByLabel (h : Gone label q) (other : JsString) :
    Gone label (q.removeByLabel other outcome) := by
  unfold ToolChoiceQueue.removeByLabel
  split
  · exact h.reject.of_adds ⟨fun _ hmem ↦ .inl (mem_filter.mp hmem).1, fun _ ↦ Or.inl⟩
  · exact h.of_adds ⟨fun _ hmem ↦ .inl (mem_filter.mp hmem).1, fun _ ↦ Or.inl⟩

/-- No operation but a push under the label brings it back, and none yields it. -/
theorem Gone.step (h : Gone label q) {operation : Operation χ} (hpush : ¬ operation.Pushes label) :
    Gone label (q.step operation) ∧
      ∀ inFlight ∈ q.yielded operation, inFlight.directive.pushedLabel ≠ label := by
  cases operation with
  | push generator opts =>
    refine ⟨h.of_adds ⟨fun directive hmem ↦ ?_, fun _ ↦ Or.inl⟩, fun _ ↦ nofun⟩
    have hcases : directive ∈ q.queue ∨ directive = ⟨q.nextId, pushLabel opts,
        pushLabel opts, generator, opts.hasOnRejected⟩ := by
      simp only [ToolChoiceQueue.step, push] at hmem
      split at hmem
      · exact (mem_cons.mp hmem).symm
      · exact (mem_append.mp hmem).imp_right mem_singleton.mp
    rcases hcases with hold | rfl
    · exact .inl hold
    · exact .inr hpush
  | nextToolChoice =>
    simp only [ToolChoiceQueue.step, nextToolChoice, yielded]
    cases hserve : serve q.queue with
    | none => exact ⟨h.of_adds ⟨fun _ ↦ nofun, fun _ ↦ Or.inl⟩, fun _ ↦ nofun⟩
    | some served =>
      obtain ⟨⟨directive, hmem, hyields, hlabel⟩, hrest⟩ := of_serve_eq_some hserve
      have hother : served.1.directive.pushedLabel ≠ label :=
        fun heq ↦ hyields (h.1 directive hmem (hlabel.symm.trans heq))
      refine ⟨h.of_adds ⟨fun other hmem ↦ ?_, fun inFlight hmem ↦ ?_⟩, fun inFlight hmem ↦ ?_⟩
      · rcases mem_cons.mp hmem with rfl | hold
        · exact .inr hother
        · exact .inl (hrest hold)
      · exact .inr (mem_some.mp hmem ▸ hother)
      · exact mem_some.mp hmem ▸ hother
  | resolve =>
    refine ⟨?_, fun _ ↦ nofun⟩
    simp only [ToolChoiceQueue.step, resolve]
    split
    · exact h
    · exact h.of_adds ⟨fun _ ↦ Or.inl, fun _ ↦ nofun⟩
  | reject => exact ⟨h.reject, fun _ ↦ nofun⟩
  | degradeInFlight =>
    refine ⟨h.of_adds ?_, fun _ ↦ nofun⟩
    simp only [ToolChoiceQueue.step, degradeInFlight]
    split
    · exact ⟨fun _ ↦ Or.inl, fun _ ↦ Or.inl⟩
    · refine ⟨fun _ hmem ↦ Or.inl ?_, fun _ ↦ nofun⟩
      split at hmem
      · exact mem_of_mem_tail hmem
      · exact hmem
  | removeByLabel other => exact ⟨h.removeByLabel other, fun _ ↦ nofun⟩

theorem Gone.yields {operations : List (Operation χ)} (h : Gone label q)
    (hpush : ∀ operation ∈ operations, ¬ operation.Pushes label) :
    ∀ inFlight ∈ q.yields operations, inFlight.directive.pushedLabel ≠ label := by
  induction operations generalizing q with
  | nil => exact fun _ ↦ nofun
  | cons operation operations ih =>
    obtain ⟨hfirst, hrest⟩ := forall_mem_cons.mp hpush
    obtain ⟨hgone, hyielded⟩ := h.step hfirst
    intro inFlight hmem
    rcases mem_append.mp hmem with hnow | hlater
    · exact hyielded inFlight (mem_toList.mp hnow)
    · exact ih hgone hrest inFlight hlater

theorem gone_removeByLabel (h : RemovesAll label outcome q) :
    Gone label (q.removeByLabel label outcome) := by
  have hkept : ∀ directive ∈ q.queue.filter (·.label ≠ label), directive.pushedLabel = label →
      directive.generator 0 = none := by
    intro directive hmem hpushed
    obtain ⟨hold, hlabel⟩ := mem_filter.mp hmem
    exact h.1 directive hold hpushed (of_decide_eq_true hlabel)
  unfold ToolChoiceQueue.removeByLabel
  split
  · rename_i hmatch
    obtain ⟨inFlight, hinFlight, -⟩ := map_eq_some_iff.mp hmatch
    simp only [ToolChoiceQueue.reject, hinFlight]
    split
    · rename_i hrequeue
      refine ⟨fun directive hmem hpushed ↦ ?_, fun _ ↦ nofun⟩
      obtain ⟨hcases, hlabel⟩ := mem_filter.mp hmem
      rcases mem_cons.mp hcases with rfl | hold
      · have hdrop := (h.2 inFlight hinFlight hpushed hrequeue.1).2
        exact absurd (hrequeue.2.symm.trans hdrop) nofun
      · exact hkept directive (mem_filter.mpr ⟨hold, hlabel⟩) hpushed
    · exact ⟨hkept, fun _ ↦ nofun⟩
  · rename_i hmatch
    refine ⟨hkept, fun inFlight hinFlight hpushed ↦ ?_⟩
    by_contra hrejected
    have hlabel := (h.2 inFlight hinFlight hpushed (by simpa using hrejected)).1
    exact hmatch (map_eq_some_iff.mpr ⟨inFlight, hinFlight, hlabel⟩)

/-- A label whose replays are gone, and whose callback lets go, is never yielded again until it is
pushed again. -/
theorem removeByLabel_final {operations : List (Operation χ)} (h : RemovesAll label outcome q)
    (hpush : ∀ operation ∈ operations, ¬ operation.Pushes label) :
    ∀ inFlight ∈ (q.removeByLabel label outcome).yields operations,
      inFlight.directive.pushedLabel ≠ label :=
  (gone_removeByLabel h).yields hpush

/-- A forced choice, in flight. -/
def forced : ToolChoiceQueue ℕ :=
  (empty.push (onceGen 7) ⟨false, some (utf16 "user-force"), true⟩).nextToolChoice.2

theorem forced_dropped : RemovesAll (utf16 "user-force") .drop forced ∧
    ∀ inFlight ∈ (forced.removeByLabel (utf16 "user-force") .drop).yields [.nextToolChoice],
      inFlight.directive.pushedLabel ≠ utf16 "user-force" := by
  have hremoves : RemovesAll (utf16 "user-force") .drop forced := ⟨by decide, by decide⟩
  exact ⟨hremoves, removeByLabel_final hremoves (by simp [Operation.Pushes])⟩

/-- A removal whose callback asks for a replay is followed by the removed choice. -/
theorem forced_replayed :
    ((forced.removeByLabel (utf16 "user-force") .requeue).yields [.nextToolChoice]).map
      (fun inFlight ↦ (inFlight.directive.pushedLabel, inFlight.yielded)) =
        [(utf16 "user-force", 7)] := by
  decide

end ToolChoiceQueue

end GajaeCode.Session
