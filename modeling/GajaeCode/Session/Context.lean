import GajaeCode.Chain.LastWrite
import GajaeCode.Session.Entry

/-!
# Building the session context

`buildSessionContext` walks from the leaf to the root, replays the settings entries of that path
from the root on, and emits the messages of the path: all of them, or the summary of the last
compaction with the messages it kept and those after it.

Objects used as maps are functions from keys; the order of their keys is not modelled. The size
of a context is an arbitrary measure, compared with an arbitrary budget.
-/

namespace GajaeCode.Session

open Text Json Chain List

variable {leaf : SessionEntry} {compaction : CompactionEntry} {front hot : List SessionEntry}

/-! ## Objects used as maps -/

abbrev Record (α : Type) := JsString → Option α

namespace Record

variable {α : Type}

def empty : Record α := fun _ ↦ none

/-- Assigning a text to `__proto__` creates no own property. -/
def assign (record : Record α) (key : JsString) (value : α) : Record α :=
  if key = utf16 "__proto__" then record else Function.update record key (some value)

def delete (record : Record α) (key : JsString) : Record α := Function.update record key none

end Record

/-- The names that `in` finds on every plain object. -/
def objectPrototypeKeys : List JsString :=
  ["constructor", "__defineGetter__", "__defineSetter__", "hasOwnProperty", "__lookupGetter__",
    "__lookupSetter__", "isPrototypeOf", "propertyIsEnumerable", "toString", "valueOf",
    "__proto__", "toLocaleString"].map utf16

structure ConfiguredModelChain where
  role : JsString
  entries : List JsString
  origin : JsString
  identity : Option JsString
  explicitHead : Bool
  cleared : Bool
  deriving DecidableEq

/-- Only chains with a role, and either cleared or with a nonempty model, count. -/
def normalizeConfiguredModelChainEntry (role : JsString) (entries : List JsString)
    (origin : JsString) (identity : Option JsString) (explicitHead cleared : Bool) :
    Option ConfiguredModelChain :=
  if role = [] then none
  else if cleared then some ⟨role, [], origin, none, explicitHead, true⟩
  else
    let models := entries.filter (· ≠ [])
    if models = [] then none else some ⟨role, models, origin, identity, explicitHead, false⟩

def legacyChain (role model : JsString) : ConfiguredModelChain where
  role := role
  entries := [model]
  origin := utf16 "legacy_session"
  identity := none
  explicitHead := true
  cleared := false

/-! ## Model profile ownership -/

inductive ModelProfileOwnershipMarker
  | inherit
  | cleared
  | profile (name : JsString)
  deriving DecidableEq

def modelProfileOwnershipEntry : JsString := utf16 "model_profile_ownership"

def validateModelProfileOwnershipMarker (value : JsValue) : Option ModelProfileOwnershipMarker :=
  match value with
  | .obj fields =>
    match JsValue.get value (utf16 "kind"), JsValue.get value (utf16 "profile") with
    | .str kind, profile =>
      if kind = utf16 "inherit" then if fields.length = 1 then some .inherit else none
      else if kind = utf16 "cleared" then if fields.length = 1 then some .cleared else none
      else if kind = utf16 "profile" then
        match profile with
        | .str name =>
          if name.all isTrimmed = false ∧ fields.length = 2 then some (.profile name) else none
        | _ => none
      else none
    | _, _ => none
  | _ => none

/-! ## Replaying the settings of a path -/

inductive ContextError
  | invalidModelProfileOwnership
  | contextTooLarge (measuredBytes budgetBytes : ℕ)
  deriving DecidableEq

/-- The compaction entry a path ends up with. -/
structure CompactionEntry where
  id : JsString
  timestamp : JsString
  data : CompactionData
  deriving DecidableEq

def defaultRole : JsString := utf16 "default"

/-- The local variables of the loop over the path. -/
structure Replay where
  thinkingLevel : JsString
  serviceTier : Option JsString
  models : Record JsString
  configuredModelChains : Record ConfiguredModelChain
  modelProfileOwnershipMarker : Option ModelProfileOwnershipMarker
  compaction : Option CompactionEntry
  injectedTtsrRules : List JsString
  injectedTtsrRuleRecords : List TtsrInjectionRecord
  ttsrMessageCount : Decimal
  selectedMCPToolNames : List JsString
  hasPersistedMCPToolSelection : Bool
  selectedDiscoveredBuiltinToolNames : Option (List JsString)
  hasPersistedDiscoveredBuiltinToolSelection : Bool
  mode : JsString
  modeData : Option Fields
  hasExplicitDefaultModel : Bool

def Replay.initial : Replay where
  thinkingLevel := utf16 "off"
  serviceTier := none
  models := .empty
  configuredModelChains := .empty
  modelProfileOwnershipMarker := none
  compaction := none
  injectedTtsrRules := []
  injectedTtsrRuleRecords := []
  ttsrMessageCount := .zero
  selectedMCPToolNames := []
  hasPersistedMCPToolSelection := false
  selectedDiscoveredBuiltinToolNames := none
  hasPersistedDiscoveredBuiltinToolSelection := false
  mode := utf16 "none"
  modeData := none
  hasExplicitDefaultModel := false

/-- Adding to a `Set`. -/
def addRule (rules : List JsString) (name : JsString) : List JsString := pushNew rules name

def defaultRecord (name : JsString) : TtsrInjectionRecord := ⟨name, .zero, none, none⟩

/-- A rule without a record gets the default one. -/
def addDefaultRecord (records : List TtsrInjectionRecord) (name : JsString) :
    List TtsrInjectionRecord :=
  ensureRow TtsrInjectionRecord.name defaultRecord records name

/-- Setting in a `Map`: a present key keeps its place. -/
def setRecord (records : List TtsrInjectionRecord) (record : TtsrInjectionRecord) :
    List TtsrInjectionRecord :=
  putRow TtsrInjectionRecord.name records record

namespace Replay

variable (state : Replay)

def modelChange (model role : JsString) (cleared : Bool) : Replay :=
  if cleared then
    { state with
      models := state.models.delete role
      hasExplicitDefaultModel := state.hasExplicitDefaultModel || role = defaultRole }
  else if model ≠ [] then
    { state with
      models := state.models.assign role model
      hasExplicitDefaultModel := state.hasExplicitDefaultModel || role = defaultRole }
  else state

def configuredChain : Option ConfiguredModelChain → Replay
  | some chain =>
    if chain.cleared then
      { state with configuredModelChains := state.configuredModelChains.delete chain.role }
    else
      { state with configuredModelChains := state.configuredModelChains.assign chain.role chain }
  | none => state

/-- An assistant message names the default model while no explicit choice was recorded. -/
def assistantModel (provider model : JsString) : Replay :=
  if state.hasExplicitDefaultModel then state
  else { state with models := state.models.assign defaultRole (provider ++ utf16 "/" ++ model) }

def ttsrInjection (rules : List JsString) (records : List TtsrInjectionRecord)
    (count : Option Decimal) : Replay :=
  { state with
    injectedTtsrRules :=
      (records.map TtsrInjectionRecord.name).foldl addRule
        (rules.foldl addRule state.injectedTtsrRules)
    injectedTtsrRuleRecords :=
      records.foldl setRecord (rules.foldl addDefaultRecord state.injectedTtsrRuleRecords)
    ttsrMessageCount := count.getD state.ttsrMessageCount }

def mcpToolSelection (names : List JsString) (discovered : Option (List JsString)) : Replay :=
  { state with
    selectedMCPToolNames := names
    hasPersistedMCPToolSelection := true
    selectedDiscoveredBuiltinToolNames :=
      discovered.orElse fun _ ↦ state.selectedDiscoveredBuiltinToolNames
    hasPersistedDiscoveredBuiltinToolSelection :=
      discovered.isSome || state.hasPersistedDiscoveredBuiltinToolSelection }

/-- One turn of the loop over the path. -/
def step (entry : SessionEntry) : Except ContextError Replay :=
  match entry.body with
  | .thinkingLevelChange level =>
    .ok { state with thinkingLevel := level.getD (utf16 "off") }
  | .modelChange model role cleared => .ok (state.modelChange model (role.getD defaultRole) cleared)
  | .configuredModelChain role entries origin identity explicitHead cleared =>
    .ok (state.configuredChain
      (normalizeConfiguredModelChainEntry role entries origin identity explicitHead cleared))
  | .custom customType data =>
    if customType = modelProfileOwnershipEntry then
      match validateModelProfileOwnershipMarker data with
      | some marker => .ok { state with modelProfileOwnershipMarker := some marker }
      | none => .error .invalidModelProfileOwnership
    else .ok state
  | .serviceTierChange tier => .ok { state with serviceTier := tier }
  | .message message =>
    match message.role with
    | .assistant provider model => .ok (state.assistantModel provider model)
    | _ => .ok state
  | .compaction data => .ok { state with compaction := some ⟨entry.id, entry.timestamp, data⟩ }
  | .ttsrInjection rules records count => .ok (state.ttsrInjection rules records count)
  | .mcpToolSelection names discovered => .ok (state.mcpToolSelection names discovered)
  | .discoveredBuiltinToolSelection names =>
    .ok { state with
      selectedDiscoveredBuiltinToolNames := some names
      hasPersistedDiscoveredBuiltinToolSelection := true }
  | .modeChange mode data => .ok { state with mode := mode, modeData := data }
  | _ => .ok state

def run (path : List SessionEntry) : Except ContextError Replay := path.foldlM step initial

end Replay

open Replay

/-! ## Emitting the messages -/

/-- A message and the entry it was made from. -/
structure SessionMessage where
  entryId : JsString
  message : AgentMessage
  deriving DecidableEq

/-- The message an entry contributes to the context. -/
def appendMessage (entry : SessionEntry) : Option SessionMessage :=
  match entry.body with
  | .message message => some ⟨entry.id, message⟩
  | .customMessage customType content details display attribution =>
    some ⟨entry.id,
      createCustomMessage customType content display details entry.timestamp attribution⟩
  | .branchSummary fromId summary =>
    if summary = [] then none
    else some ⟨entry.id, createBranchSummaryMessage summary fromId entry.timestamp⟩
  | _ => none

/-- The replacement history a remote compaction left in the entry. -/
def remotePayload (data : CompactionData) : Option JsValue :=
  let remote := JsValue.get data.preserveData (utf16 "openaiRemoteCompaction")
  match JsValue.get remote (utf16 "provider"), JsValue.get remote (utf16 "replacementHistory") with
  | .str provider, .arr items =>
    if provider = [] then none
    else some (.obj
      [(utf16 "type", .str (utf16 "openaiResponsesHistory")),
        (utf16 "provider", .str provider), (utf16 "items", .arr items)])
  | _, _ => none

def compactionSummary (entry : CompactionEntry) : SessionMessage where
  entryId := entry.id
  message :=
    createCompactionSummaryMessage entry.data.summary entry.data.tokensBefore entry.timestamp
      entry.data.shortSummary ((remotePayload entry.data).getD .undefined)

def compactionIndex (path : List SessionEntry) (entry : CompactionEntry) : ℕ :=
  path.findIdx fun candidate ↦ candidate.isCompaction && candidate.id = entry.id

/-- The entries before a compaction from its first kept entry on. -/
def keptEntries (path : List SessionEntry) (entry : CompactionEntry) : List SessionEntry :=
  (path.take (compactionIndex path entry)).dropWhile fun candidate ↦
    candidate.id ≠ entry.data.firstKeptEntryId

def contextMessages (path : List SessionEntry) : Option CompactionEntry → List SessionMessage
  | none => path.filterMap appendMessage
  | some entry =>
    let kept := if (remotePayload entry.data).isNone then keptEntries path entry else []
    let after := path.drop (compactionIndex path entry + 1)
    compactionSummary entry :: (kept.filterMap appendMessage ++ after.filterMap appendMessage)

/-! ## The context -/

structure SessionContext where
  messages : List SessionMessage
  thinkingLevel : JsString
  serviceTier : Option JsString
  models : Record JsString
  configuredModelChains : Record ConfiguredModelChain
  modelProfileOwnershipMarker : Option ModelProfileOwnershipMarker
  injectedTtsrRules : List JsString
  injectedTtsrRuleRecords : List TtsrInjectionRecord
  ttsrMessageCount : Decimal
  selectedMCPToolNames : List JsString
  selectedDiscoveredBuiltinToolNames : Option (List JsString)
  hasPersistedMCPToolSelection : Bool
  hasPersistedDiscoveredBuiltinToolSelection : Bool
  mode : JsString
  modeData : Option Fields

namespace Replay

/-- Roles with a model but no chain get a chain of that model. -/
def filledChains (state : Replay) : Record ConfiguredModelChain := fun role ↦
  (state.configuredModelChains role).orElse fun _ ↦
    if role ∈ objectPrototypeKeys then none else (state.models role).map (legacyChain role)

def context (state : Replay) (path : List SessionEntry) : SessionContext where
  messages := contextMessages path state.compaction
  thinkingLevel := state.thinkingLevel
  serviceTier := state.serviceTier
  models := state.models
  configuredModelChains := state.filledChains
  modelProfileOwnershipMarker := state.modelProfileOwnershipMarker
  injectedTtsrRules := state.injectedTtsrRules
  injectedTtsrRuleRecords := state.injectedTtsrRuleRecords
  ttsrMessageCount := state.ttsrMessageCount
  selectedMCPToolNames := state.selectedMCPToolNames
  selectedDiscoveredBuiltinToolNames := state.selectedDiscoveredBuiltinToolNames
  hasPersistedMCPToolSelection := state.hasPersistedMCPToolSelection
  hasPersistedDiscoveredBuiltinToolSelection := state.hasPersistedDiscoveredBuiltinToolSelection
  mode := state.mode
  modeData := state.modeData

end Replay

/-- The context of a session without a leaf. -/
def emptyContext : SessionContext := Replay.initial.context []

variable (measure : SessionContext → ℕ) (budgetBytes : ℕ)

def assertSessionContextWithinBudget (context : SessionContext) : Except ContextError SessionContext :=
  if measure context > budgetBytes then .error (.contextTooLarge (measure context) budgetBytes)
  else .ok context

/-- The leaf a caller asks for. -/
inductive LeafId
  | unspecified
  | beforeFirst
  | entry (id : JsString)
  deriving DecidableEq

/-- An unknown or empty leaf id falls back to the last entry. -/
def findLeaf (entries : List SessionEntry) : LeafId → Option SessionEntry
  | .entry id =>
    if id = [] then entries.getLast?
    else (lookup SessionEntry.id entries id).orElse fun _ ↦ entries.getLast?
  | _ => entries.getLast?

/-- The context of the entries of a path. -/
def contextOfPath (path : List SessionEntry) : Except ContextError SessionContext :=
  (Replay.run path).bind fun state ↦
    assertSessionContextWithinBudget measure budgetBytes (state.context path)

def buildSessionContext
    (entries : List SessionEntry) (leafId : LeafId) : Except ContextError SessionContext :=
  if leafId = .beforeFirst then .ok emptyContext
  else
    match findLeaf entries leafId with
    | none => .ok emptyContext
    | some leaf => contextOfPath measure budgetBytes (walkPath entries (some leaf))

theorem contextOfPath_eq_ok_iff {measure : SessionContext → ℕ} {budgetBytes : ℕ}
    {path : List SessionEntry} {context : SessionContext} :
    contextOfPath measure budgetBytes path = .ok context ↔
      ∃ state, run path = .ok state ∧ state.context path = context ∧
        measure context ≤ budgetBytes := by
  rw [contextOfPath]
  cases run path with
  | error => simp [Except.bind]
  | ok =>
    simp only [Except.bind, assertSessionContextWithinBudget, Except.ok.injEq, exists_eq_left']
    split_ifs with hlarge
    · simp only [false_iff, not_and]
      rintro rfl
      exact Nat.not_le_of_gt hlarge
    · rw [Except.ok.injEq, iff_self_and]
      rintro rfl
      exact Nat.le_of_not_gt hlarge

section

variable {measure : SessionContext → ℕ} {budgetBytes : ℕ} {entries : List SessionEntry}

theorem buildSessionContext_of_findLeaf {leafId : LeafId}
    (hleafId : leafId ≠ .beforeFirst) (hleaf : findLeaf entries leafId = some leaf) :
    buildSessionContext measure budgetBytes entries leafId =
      contextOfPath measure budgetBytes (walkPath entries (some leaf)) := by
  rw [buildSessionContext, if_neg hleafId, hleaf]

theorem findLeaf_of_lookup {id : JsString} (hid : id ≠ [])
    (hlookup : lookup SessionEntry.id entries id = some leaf) :
    findLeaf entries (.entry id) = some leaf := by
  rw [findLeaf, if_neg hid, hlookup]
  rfl

/-- On a branch the context of its last entry is that of the whole branch. -/
theorem IsPath.buildSessionContext_unspecified (h : IsPath entries) (hne : entries ≠ []) :
    buildSessionContext measure budgetBytes entries .unspecified =
      contextOfPath measure budgetBytes entries := by
  have hlast : entries.getLast? = some (entries.getLast hne) := getLast?_eq_getLast_of_ne_nil hne
  have hfind : findLeaf entries .unspecified = some (entries.getLast hne) := hlast
  rw [buildSessionContext_of_findLeaf (by decide) hfind, ← hlast, h.walkPath_getLast?]

theorem IsPath.buildSessionContext_entry (h : IsPath entries)
    (hleaf : entries.getLast? = some leaf) :
    buildSessionContext measure budgetBytes entries (.entry leaf.id) =
      contextOfPath measure budgetBytes entries := by
  have hmem : leaf ∈ entries := mem_of_getLast? hleaf
  have hfind := findLeaf_of_lookup (h.named leaf hmem) (lookup_of_nodup h.nodup hmem)
  rw [buildSessionContext_of_findLeaf (by simp) hfind, ← hleaf, h.walkPath_getLast?]

end

/-! ## What precedes the kept entries -/

theorem compactionIndex_append (hfront : ∀ entry ∈ front, entry.id ≠ compaction.id) :
    compactionIndex (front ++ hot) compaction = front.length + compactionIndex hot compaction := by
  rw [compactionIndex, findIdx_append, compactionIndex]
  have hnone : ¬ front.findIdx (fun candidate ↦
      candidate.isCompaction && candidate.id = compaction.id) < front.length := by
    rw [findIdx_lt_length]
    rintro ⟨entry, hentry, hfound⟩
    simp only [Bool.and_eq_true, decide_eq_true_eq] at hfound
    exact hfront entry hentry hfound.2
  rw [if_neg hnone, Nat.add_comm]

/-- What precedes the first kept entry does not reach the messages. -/
theorem contextMessages_append (hid : ∀ entry ∈ front, entry.id ≠ compaction.id)
    (hkept : ∀ entry ∈ front, entry.id ≠ compaction.data.firstKeptEntryId) :
    contextMessages (front ++ hot) (some compaction) = contextMessages hot (some compaction) := by
  have hkeptEntries : keptEntries (front ++ hot) compaction = keptEntries hot compaction := by
    rw [keptEntries, compactionIndex_append hid, take_length_add_append,
      dropWhile_append_of_pos, keptEntries]
    intro entry hentry
    simpa only [ne_eq, decide_not, Bool.not_eq_eq_eq_not, Bool.not_true, decide_eq_false_iff_not]
      using hkept entry hentry
  simp [contextMessages, hkeptEntries, compactionIndex_append hid, Nat.add_assoc]

/-! ## Entries apart from their parents -/

def SessionEntry.unlinked (entry : SessionEntry) : SessionEntry := { entry with parentId := none }

section

variable (path : List SessionEntry)

theorem Replay.run_map_unlinked : run (path.map SessionEntry.unlinked) = run path := by
  rw [run, foldlM_map]
  rfl

theorem compactionIndex_map_unlinked (entry : CompactionEntry) :
    compactionIndex (path.map SessionEntry.unlinked) entry = compactionIndex path entry := by
  rw [compactionIndex, findIdx_map]
  rfl

theorem filterMap_map_unlinked :
    (path.map SessionEntry.unlinked).filterMap appendMessage = path.filterMap appendMessage := by
  rw [filterMap_map]
  rfl

theorem keptEntries_map_unlinked (entry : CompactionEntry) :
    keptEntries (path.map SessionEntry.unlinked) entry =
      (keptEntries path entry).map SessionEntry.unlinked := by
  rw [keptEntries, compactionIndex_map_unlinked, ← map_take, dropWhile_map]
  rfl

theorem contextMessages_map_unlinked (compaction : Option CompactionEntry) :
    contextMessages (path.map SessionEntry.unlinked) compaction =
      contextMessages path compaction := by
  cases compaction with
  | none => exact filterMap_map_unlinked path
  | some =>
    simp only [contextMessages]
    rw [compactionIndex_map_unlinked, ← map_drop, filterMap_map_unlinked, keptEntries_map_unlinked]
    split_ifs
    · rw [filterMap_map_unlinked]
    · rfl

theorem contextOfPath_map_unlinked (measure : SessionContext → ℕ) (budgetBytes : ℕ) :
    contextOfPath measure budgetBytes (path.map SessionEntry.unlinked) =
      contextOfPath measure budgetBytes path := by
  simp [contextOfPath, run_map_unlinked, context, contextMessages_map_unlinked]

end

/-- The context of a path does not depend on the parent links of its entries. -/
theorem contextOfPath_congr {left right : List SessionEntry}
    (h : left.map SessionEntry.unlinked = right.map SessionEntry.unlinked) :
    contextOfPath measure budgetBytes left = contextOfPath measure budgetBytes right := by
  rw [← contextOfPath_map_unlinked, h, contextOfPath_map_unlinked]

end GajaeCode.Session
