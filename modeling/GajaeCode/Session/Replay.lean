import GajaeCode.Session.Context

/-!
# What the replay of a path computes

Each field of the replayed state is described by what the entries write to it: the last thinking
level, the last mode, for every role the last choice of a model, and the table of injected rules.
The default role also follows assistant messages until a choice is recorded for it.
-/

namespace GajaeCode.Session

open Text Json Chain List SessionEntry TtsrInjectionRecord

variable {entry : SessionEntry} {state next : Replay} {path : List SessionEntry}

/-! ## What one entry writes -/

namespace SessionEntry

variable (entry : SessionEntry)

def asCompaction? : Option CompactionEntry :=
  entry.compaction?.map fun data ↦ ⟨entry.id, entry.timestamp, data⟩

def thinkingWrite : Option JsString :=
  match entry.body with
  | .thinkingLevelChange level => some (level.getD (utf16 "off"))
  | _ => none

def modeWrite : Option (JsString × Option Fields) :=
  match entry.body with
  | .modeChange mode data => some (mode, data)
  | _ => none

def countWrite : Option Decimal :=
  match entry.body with
  | .ttsrInjection _ _ count => count
  | _ => none

/-- The model an entry chooses for a role; `some none` when it clears the role. -/
def modelWrite (role : JsString) (entry : SessionEntry) : Option (Option JsString) :=
  match entry.body with
  | .modelChange model entryRole cleared =>
    if entryRole.getD defaultRole ≠ role then none
    else if cleared then some none
    else if model = [] ∨ role = utf16 "__proto__" then none
    else some (some model)
  | _ => none

/-- The model an assistant message was produced by. -/
def assistantWrite : Option JsString :=
  match entry.body with
  | .message message =>
    match message.role with
    | .assistant provider model => some (provider ++ utf16 "/" ++ model)
    | _ => none
  | _ => none

/-- The rules an entry names and the records it carries, in the order they are collected. -/
def ttsrEvents : List (RowEvent JsString TtsrInjectionRecord) :=
  match entry.body with
  | .ttsrInjection rules records _ => rules.map .mention ++ records.map .write
  | _ => []

end SessionEntry

open SessionEntry (modelWrite ttsrEvents assistantWrite)

namespace Replay

theorem run_concat (path : List SessionEntry) (entry : SessionEntry) :
    run (path ++ [entry]) = (run path).bind fun state ↦ step state entry := by
  rw [run, foldlM_append]
  change (run path).bind (fun state ↦ [entry].foldlM step state) = _
  simp

/-- Induction over the loop: what the initial state has and every turn keeps. -/
theorem run_induction {motive : List SessionEntry → Replay → Prop} (base : motive [] initial)
    (turn : ∀ path state entry next, motive path state → step state entry = .ok next →
      motive (path ++ [entry]) next) :
    ∀ {path : List SessionEntry} {state : Replay}, run path = .ok state → motive path state := by
  intro path
  induction path using reverseRecOn with
  | nil =>
    intro state h
    cases h
    exact base
  | append_singleton path entry ih =>
    intro next h
    rw [run_concat] at h
    cases hrun : run path with
    | error => simp [hrun, Except.bind] at h
    | ok state =>
      rw [hrun] at h
      exact turn path state entry next (ih hrun) h

/-- A field that each turn overwrites or leaves alone holds the last value written. -/
theorem run_register {β : Type} (field : Replay → β) (write : SessionEntry → Option β)
    (turn : ∀ state entry next, step state entry = .ok next →
      field next = (write entry).getD (field state)) (h : run path = .ok state) :
    field state = (lastWrite write path).getD (field initial) := by
  apply run_induction (motive := fun path state ↦
    field state = (lastWrite write path).getD (field initial)) rfl _ h
  intro path state entry next ih hstep
  rw [turn state entry next hstep, lastWrite_concat, ih]
  cases write entry <;> rfl

section

variable (state : Replay)

theorem modelChange_models (model role : JsString) (cleared : Bool) (other : JsString) :
    (state.modelChange model role cleared).models other = (if role ≠ other then none
        else if cleared then some none
        else if model = [] ∨ other = utf16 "__proto__" then none
        else some (some model)).getD (state.models other) := by
  rw [modelChange]
  by_cases hrole : role = other
  · subst hrole
    split_ifs <;> simp_all [Record.delete, Record.assign]
  · have hother : other ≠ role := Ne.symm hrole
    split_ifs <;> simp_all [Record.delete, Record.assign]
    split_ifs <;> simp_all

theorem modelChange_eq (model role : JsString) (cleared : Bool) :
    state.modelChange model role cleared = { state with
        models := (state.modelChange model role cleared).models
        hasExplicitDefaultModel :=
          (state.modelChange model role cleared).hasExplicitDefaultModel } := by
  rw [modelChange]
  split_ifs <;> rfl

theorem configuredChain_eq (chain : Option ConfiguredModelChain) : state.configuredChain chain =
      { state with configuredModelChains := (state.configuredChain chain).configuredModelChains } := by
  cases chain with
  | none => rfl
  | some =>
    rw [configuredChain]
    split_ifs <;> rfl

variable (provider model : JsString)

theorem assistantModel_eq : state.assistantModel provider model =
      { state with models := (state.assistantModel provider model).models } := by
  rw [assistantModel]
  split_ifs <;> rfl

theorem assistantModel_of_ne {role : JsString} (h : role ≠ defaultRole) :
    (state.assistantModel provider model).models role = state.models role := by
  rw [assistantModel]
  split_ifs
  · rfl
  · simp only [Record.assign]
    split_ifs
    · rfl
    · rw [Function.update_of_ne h]

/-- What a turn does to the fields that follow the entries of their own kind. -/
structure Turn (state : Replay) (entry : SessionEntry) (next : Replay) : Prop where
  compaction : next.compaction = entry.asCompaction?.or state.compaction
  thinking : next.thinkingLevel = entry.thinkingWrite.getD state.thinkingLevel
  mode : (next.mode, next.modeData) = entry.modeWrite.getD (state.mode, state.modeData)
  count : next.ttsrMessageCount = entry.countWrite.getD state.ttsrMessageCount
  rules : next.injectedTtsrRules =
    (entry.ttsrEvents.map (RowEvent.rowName TtsrInjectionRecord.name)).foldl pushNew
      state.injectedTtsrRules
  records : next.injectedTtsrRuleRecords =
    entry.ttsrEvents.foldl (RowEvent.apply TtsrInjectionRecord.name defaultRecord)
      state.injectedTtsrRuleRecords

/-- What a turn does to the models. -/
structure ModelTurn (state : Replay) (entry : SessionEntry) (next : Replay) : Prop where
  models : ∀ role ≠ defaultRole,
    next.models role = (entry.modelWrite role).getD (state.models role)
  defaultModel : next.models defaultRole = (entry.modelWrite defaultRole).getD
    (if state.hasExplicitDefaultModel then state.models defaultRole
      else entry.assistantWrite.or (state.models defaultRole))
  explicit : next.hasExplicitDefaultModel =
    (state.hasExplicitDefaultModel || (entry.modelWrite defaultRole).isSome)

end

theorem modelTurn_of_quiet (hmodels : next.models = state.models)
    (hexplicit : next.hasExplicitDefaultModel = state.hasExplicitDefaultModel)
    (hwrite : ∀ role, entry.modelWrite role = none) (hassistant : entry.assistantWrite = none) :
    ModelTurn state entry next where
  models role _ := by rw [hmodels, hwrite, Option.getD_none]
  defaultModel := by rw [hmodels, hwrite, hassistant, Option.getD_none, Option.none_or, ite_self]
  explicit := by rw [hexplicit, hwrite, Option.isSome_none, Bool.or_false]

theorem turns_of_step (h : step state entry = .ok next) :
    Turn state entry next ∧ ModelTurn state entry next := by
  obtain ⟨id, parentId, timestamp, body⟩ := entry
  cases body with
  | modelChange model role cleared =>
    cases h
    constructor
    · rw [modelChange_eq]
      exact ⟨rfl, rfl, rfl, rfl, rfl, rfl⟩
    · exact {
        models := fun other _ ↦ modelChange_models state model _ cleared other
        defaultModel := by
          rw [modelChange_models]
          simp only [assistantWrite, Option.none_or, ite_self]
          rfl
        explicit := by
          have hproto : defaultRole ≠ utf16 "__proto__" := by decide
          rw [modelChange]
          simp only [modelWrite]
          split_ifs <;> simp_all }
  | configuredModelChain =>
    cases h
    rw [configuredChain_eq]
    exact ⟨⟨rfl, rfl, rfl, rfl, rfl, rfl⟩, modelTurn_of_quiet rfl rfl (fun _ ↦ rfl) rfl⟩
  | message =>
    simp only [step] at h
    split at h
    · next provider model hrole =>
      cases h
      constructor
      · rw [assistantModel_eq]
        exact ⟨rfl, rfl, rfl, rfl, rfl, rfl⟩
      · exact {
          models := fun role hne ↦ assistantModel_of_ne state provider model hne
          defaultModel := by
            have hproto : defaultRole ≠ utf16 "__proto__" := by decide
            rw [assistantModel]
            split_ifs <;> simp [modelWrite, assistantWrite, hrole, Record.assign, hproto]
          explicit := by
            rw [assistantModel_eq]
            exact (Bool.or_false _).symm }
    · next hrole =>
      cases h
      refine ⟨⟨rfl, rfl, rfl, rfl, rfl, rfl⟩, modelTurn_of_quiet rfl rfl (fun _ ↦ rfl) ?_⟩
      simp [assistantWrite]
  | custom =>
    simp only [step] at h
    split_ifs at h
    · split at h
      · cases h
        exact ⟨⟨rfl, rfl, rfl, rfl, rfl, rfl⟩, modelTurn_of_quiet rfl rfl (fun _ ↦ rfl) rfl⟩
      · cases h
    · cases h
      exact ⟨⟨rfl, rfl, rfl, rfl, rfl, rfl⟩, modelTurn_of_quiet rfl rfl (fun _ ↦ rfl) rfl⟩
  | ttsrInjection rules records count =>
    cases h
    refine ⟨⟨rfl, rfl, rfl, rfl, ?_, ?_⟩, modelTurn_of_quiet rfl rfl (fun _ ↦ rfl) rfl⟩
    · simp only [ttsrEvents, map_append, map_map, foldl_append]
      change (records.map name).foldl addRule _ = _
      congr 1
      exact congrArg (foldl addRule state.injectedTtsrRules) (map_id rules).symm
    · simp only [ttsrEvents, foldl_append, foldl_map]
      rfl
  | _ =>
    cases h
    exact ⟨⟨rfl, rfl, rfl, rfl, rfl, rfl⟩, modelTurn_of_quiet rfl rfl (fun _ ↦ rfl) rfl⟩

variable {path : List SessionEntry} {state : Replay}

section

variable (h : run path = .ok state)

include h

theorem run_compaction : state.compaction = lastWrite asCompaction? path := by
  apply run_induction (motive := fun path state ↦
    state.compaction = lastWrite asCompaction? path) rfl _ h
  intro path state entry next ih hstep
  rw [(turns_of_step hstep).1.compaction, lastWrite_concat, ih]

theorem run_thinkingLevel :
    state.thinkingLevel = (lastWrite thinkingWrite path).getD (utf16 "off") :=
  run_register thinkingLevel _ (fun _ _ _ hstep ↦ (turns_of_step hstep).1.thinking) h

theorem run_mode : (state.mode, state.modeData) =
      (lastWrite modeWrite path).getD (utf16 "none", none) :=
  run_register (fun state ↦ (state.mode, state.modeData)) _
    (fun _ _ _ hstep ↦ (turns_of_step hstep).1.mode) h

theorem run_ttsrMessageCount : state.ttsrMessageCount = (lastWrite countWrite path).getD .zero :=
  run_register ttsrMessageCount _ (fun _ _ _ hstep ↦ (turns_of_step hstep).1.count) h

theorem run_models {role : JsString} (hrole : role ≠ defaultRole) :
    state.models role = (lastWrite (modelWrite role) path).getD none :=
  run_register (fun state ↦ state.models role) _
    (fun _ _ _ hstep ↦ (turns_of_step hstep).2.models role hrole) h

/-- The default model is the last one chosen, or else that of the last assistant message. -/
theorem run_defaultModel :
    state.hasExplicitDefaultModel = (lastWrite (modelWrite defaultRole) path).isSome ∧
      state.models defaultRole = (lastWrite (modelWrite defaultRole) path).getD
          (lastWrite assistantWrite path) := by
  apply run_induction (motive := fun path state ↦ state.hasExplicitDefaultModel =
      (lastWrite (modelWrite defaultRole) path).isSome ∧ state.models defaultRole =
    (lastWrite (modelWrite defaultRole) path).getD (lastWrite assistantWrite path)) ⟨rfl, rfl⟩ _ h
  intro path state entry next ih hstep
  have hturn := (turns_of_step hstep).2
  constructor
  · rw [hturn.explicit, lastWrite_concat, ih.1, Option.isSome_or, Bool.or_comm]
  · rw [hturn.defaultModel, ih.1, ih.2, lastWrite_concat, lastWrite_concat]
    cases entry.modelWrite defaultRole with
    | some => rfl
    | none => cases lastWrite (modelWrite defaultRole) path <;> rfl

theorem run_injectedTtsrRuleRecords : state.injectedTtsrRuleRecords =
      table name defaultRecord (path.flatMap ttsrEvents) := by
  apply run_induction (motive := fun path state ↦ state.injectedTtsrRuleRecords =
    table name defaultRecord (path.flatMap ttsrEvents)) rfl _ h
  intro path state entry next ih hstep
  rw [(turns_of_step hstep).1.records, ih, table, table, flatMap_append, foldl_append,
    flatMap_singleton]

/-- The rule names are those of the records. -/
theorem run_injectedTtsrRules :
    state.injectedTtsrRules = state.injectedTtsrRuleRecords.map name := by
  rw [run_injectedTtsrRuleRecords h, map_name_table fun _ ↦ rfl]
  apply run_induction (motive := fun path state ↦ state.injectedTtsrRules = firstMentions
    ((path.flatMap ttsrEvents).map (RowEvent.rowName name))) rfl _ h
  intro path state entry next ih hstep
  rw [(turns_of_step hstep).1.rules, ih, firstMentions, firstMentions, flatMap_append,
    map_append, foldl_append, flatMap_singleton]

end

end Replay

/-! ## Paths that are refused -/

/-- A profile ownership entry whose data is not a marker. -/
def SessionEntry.hasInvalidMarker (entry : SessionEntry) : Bool :=
  match entry.body with
  | .custom customType data =>
    customType = modelProfileOwnershipEntry && (validateModelProfileOwnershipMarker data).isNone
  | _ => false

namespace Replay

theorem exists_step_iff (state : Replay) (entry : SessionEntry) :
    (∃ next, step state entry = .ok next) ↔ entry.hasInvalidMarker = false := by
  obtain ⟨id, parentId, timestamp, body⟩ := entry
  cases body with
  | custom customType data =>
    simp only [step, hasInvalidMarker]
    split_ifs with htype
    · cases validateModelProfileOwnershipMarker data <;> simp [htype]
    · simp [htype]
  | message =>
    simp only [step, hasInvalidMarker, iff_true]
    split
    · exact ⟨_, rfl⟩
    · exact ⟨_, rfl⟩
  | _ => exact iff_of_true ⟨_, rfl⟩ rfl

/-- A path is replayed to its end exactly when all its ownership markers are valid. -/
theorem exists_run_iff (path : List SessionEntry) :
    (∃ state, run path = .ok state) ↔ ∀ entry ∈ path, entry.hasInvalidMarker = false := by
  induction path using reverseRecOn with
  | nil => exact iff_of_true ⟨initial, rfl⟩ fun _ h ↦ absurd h not_mem_nil
  | append_singleton path entry ih =>
    rw [run_concat, forall_mem_append, ← ih, forall_mem_singleton]
    cases run path with
    | error => simp [Except.bind]
    | ok state =>
      rw [← exists_step_iff state entry]
      simp [Except.bind]

end Replay

/-! ## Chains of the linear kinds -/

/-- Messages, custom messages, compactions and the settings entries that are replayed as they
stand. -/
def SessionEntry.isLinearKind (entry : SessionEntry) : Bool :=
  match entry.body with
  | .message _ | .customMessage _ _ _ _ _ | .modelChange _ _ _ | .thinkingLevelChange _
  | .modeChange _ _ | .ttsrInjection _ _ _ | .compaction _ => true
  | _ => false

namespace Replay

/-- The fields that only entries of other kinds write. -/
structure Untouched (state : Replay) : Prop where
  serviceTier : state.serviceTier = none
  chains : state.configuredModelChains = .empty
  marker : state.modelProfileOwnershipMarker = none
  mcpTools : state.selectedMCPToolNames = []
  hasMcp : state.hasPersistedMCPToolSelection = false
  builtinTools : state.selectedDiscoveredBuiltinToolNames = none
  hasBuiltin : state.hasPersistedDiscoveredBuiltinToolSelection = false

theorem step_of_isLinearKind (hkind : entry.isLinearKind) (h : Untouched state) :
    ∃ next, step state entry = .ok next ∧ Untouched next := by
  obtain ⟨id, parentId, timestamp, body⟩ := entry
  cases body with
  | message =>
    simp only [step]
    split
    · refine ⟨_, rfl, ?_⟩
      rw [assistantModel_eq]
      exact ⟨h.1, h.2, h.3, h.4, h.5, h.6, h.7⟩
    · exact ⟨state, rfl, h⟩
  | modelChange =>
    refine ⟨_, rfl, ?_⟩
    rw [modelChange_eq]
    exact ⟨h.1, h.2, h.3, h.4, h.5, h.6, h.7⟩
  | customMessage => exact ⟨state, rfl, h⟩
  | thinkingLevelChange | modeChange | ttsrInjection | compaction =>
    exact ⟨_, rfl, h.1, h.2, h.3, h.4, h.5, h.6, h.7⟩
  | _ => cases hkind

/-- The replay of a chain of linear kinds succeeds. -/
theorem run_of_isLinearKind (hkinds : ∀ entry ∈ path, entry.isLinearKind) :
    ∃ state, run path = .ok state ∧ Untouched state := by
  induction path using reverseRecOn with
  | nil => exact ⟨initial, rfl, ⟨rfl, rfl, rfl, rfl, rfl, rfl, rfl⟩⟩
  | append_singleton path entry ih =>
    obtain ⟨state, hrun, huntouched⟩ :=
      ih fun other hother ↦ hkinds other (mem_append_left _ hother)
    have hkind : entry.isLinearKind := hkinds entry (mem_append_right _ mem_cons_self)
    obtain ⟨next, hstep, hnext⟩ := step_of_isLinearKind hkind huntouched
    refine ⟨next, ?_, hnext⟩
    rw [run_concat, hrun]
    exact hstep

/-- Two such replays with the same messages give the same context exactly when they agree on
the replayed settings. -/
theorem context_eq_iff {left right : Replay} {leftPath rightPath : List SessionEntry}
    (hleft : run leftPath = .ok left) (hright : run rightPath = .ok right)
    (huntouched : Untouched left) (huntouched' : Untouched right)
    (hmsgs : contextMessages leftPath left.compaction =
      contextMessages rightPath right.compaction) :
    left.context leftPath = right.context rightPath ↔ left.thinkingLevel = right.thinkingLevel ∧
        (left.mode, left.modeData) = (right.mode, right.modeData) ∧
        left.ttsrMessageCount = right.ttsrMessageCount ∧
        left.injectedTtsrRuleRecords = right.injectedTtsrRuleRecords ∧
        ∀ role, left.models role = right.models role := by
  constructor
  · intro h
    simp only [context, SessionContext.mk.injEq] at h
    refine ⟨h.2.1, ?_, h.2.2.2.2.2.2.2.2.1, h.2.2.2.2.2.2.2.1, congrFun h.2.2.2.1⟩
    rw [Prod.mk.injEq]
    exact h.2.2.2.2.2.2.2.2.2.2.2.2.2
  · rintro ⟨hthinking, hmode, hcount, hrecords, hmodels⟩
    have hfilled : left.filledChains = right.filledChains := by
      funext role
      rw [filledChains, filledChains, huntouched.chains, huntouched'.chains, hmodels]
    have hrules : left.injectedTtsrRules = right.injectedTtsrRules := by
      rw [run_injectedTtsrRules hleft, run_injectedTtsrRules hright, hrecords]
    rw [Prod.mk.injEq] at hmode
    simp only [context, SessionContext.mk.injEq]
    exact ⟨hmsgs, hthinking, huntouched.serviceTier.trans huntouched'.serviceTier.symm,
      funext hmodels, hfilled, huntouched.marker.trans huntouched'.marker.symm, hrules, hrecords,
      hcount, huntouched.mcpTools.trans huntouched'.mcpTools.symm,
      huntouched.builtinTools.trans huntouched'.builtinTools.symm,
      huntouched.hasMcp.trans huntouched'.hasMcp.symm,
      huntouched.hasBuiltin.trans huntouched'.hasBuiltin.symm, hmode⟩

end Replay

/-- Two contexts pass every budget alike only if they are equal. -/
theorem forall_assertSessionContextWithinBudget_eq_iff (measure : SessionContext → ℕ)
    (left right : SessionContext) :
    (∀ budgetBytes, assertSessionContextWithinBudget measure budgetBytes left =
      assertSessionContextWithinBudget measure budgetBytes right) ↔ left = right := by
  constructor
  · intro h
    have hmax := h (max (measure left) (measure right))
    rw [assertSessionContextWithinBudget, if_neg (by simp), assertSessionContextWithinBudget,
      if_neg (by simp), Except.ok.injEq] at hmax
    exact hmax
  · rintro rfl budgetBytes
    rfl

end GajaeCode.Session
