import GajaeCode.Broker.ManagedRevision
import GajaeCode.Machine.Trace

/-!
# Runs of a managed task domain

An attempt records the accepted attempts of its predecessors. Cancellation and revision fence the
attempts of everything downstream, so a current attempt keeps current ones below it. What they
may lose is the hash of their node, when a revision only swaps predecessors.
-/

namespace GajaeCode.Broker

open Text Json Machine Chain List Bool

variable {attempt old new : ManagedTaskAttempt} {graphId attemptId nativeIdentity : JsString}
  {node : ManagedDefinitionRecord} {change : ManagedTaskAttempt → ManagedTaskAttempt}
  {defs nodes : List ManagedTaskDefinition} {record : ManagedPredecessor}
  {graph : ManagedTaskGraph}

/-! ## The machine -/

inductive ManagedStep
  | define (id owner : JsString) (nodes : List ManagedTaskDefinition)
  | revise (graphId : JsString) (nodes : List ManagedTaskDefinition)
  | cancel (graphId : JsString) (ids : List JsString)
  | admitTask (request : AdmissionRequest)
  | observe (nativeIdentity : JsString) (worker : WorkerState)
  | launch (nativeIdentity : JsString)
  | start (graphId nodeId owner executionId : JsString)
  | validated (graphId attemptId : JsString) (observation : ManagedVerificationObservation)
  | accept (graphId attemptId : JsString) (receipts : List ManagedVerificationReceipt)
  | fail (graphId attemptId : JsString)
  | lose (graphId attemptId : JsString)
  | retire (graphId attemptId : JsString)

variable (context : ManagedContext)

/-- One step on the domain in memory. -/
def applyStep (host : ManagedHost) (state : ManagedTaskDomain) :
    ManagedStep → Except ManagedTaskError ManagedTaskDomain
  | .define id owner nodes => defineManagedTaskGraph context host state id owner nodes
  | .revise graphId nodes => do
      let graph ← orPolicy (state.findGraph graphId) "graph owner mismatch"
      let revised ← reviseManagedTaskGraph context host state graph nodes
      return revised.1
  | .cancel graphId ids => do
      let graph ← orPolicy (state.findGraph graphId) "graph owner mismatch"
      let canceled ← cancelManagedTasks graph ids
      return state.setGraph canceled.1
  | .admitTask request => admitManagedTask context host state request
  | .observe nativeIdentity worker => recordManagedNativeObservation state nativeIdentity worker
  | .launch nativeIdentity => launchManagedNative state nativeIdentity
  | .start graphId nodeId owner executionId =>
      startOrObserve context host state graphId nodeId owner executionId
  | .validated graphId attemptId observation => appendObservation state graphId attemptId observation
  | .accept graphId attemptId receipts => acceptExecution context host state graphId attemptId receipts
  | .fail graphId attemptId => failExecution state graphId attemptId
  | .lose graphId attemptId => markManagedVerificationUnknown state graphId attemptId
  | .retire graphId attemptId => do
      let graph ← orPolicy (state.findGraph graphId) "attempt missing"
      let attempt ← orPolicy (graph.findAttempt attemptId) "attempt missing"
      let retired ← retireManagedAttempt attempt
      return state.setGraph (graph.setAttempt retired)

/-- A step that is refused leaves the domain as it is. -/
def stepDomain (state : ManagedTaskDomain) (op : ManagedHost × ManagedStep) :
    Option (ManagedTaskDomain × Option ManagedTaskError) :=
  match applyStep context op.1 state op.2 with
  | .ok after => some (after, none)
  | .error failure => some (state, some failure)

/-- The domain of a fresh enrollment. -/
def emptyDomain (binding : ManagedDomainBinding) : ManagedTaskDomain where
  stateRevision := 0
  binding := binding
  graphs := []

/-! ## What current attempts rest on -/

/-- The accepted attempt that a record names, still current. -/
structure IsBase (record : ManagedPredecessor) (base : ManagedTaskAttempt) : Prop where
  id_eq : base.id = record.attemptId
  nodeId_eq : base.nodeId = record.nodeId
  accepted : base.accepted = some { id := record.verificationId, hash := record.verificationHash }
  current : base.fence = .current

instance (record : ManagedPredecessor) (base : ManagedTaskAttempt) : Decidable (IsBase record base) :=
  decidable_of_iff (base.id = record.attemptId ∧ base.nodeId = record.nodeId ∧
    base.accepted = some { id := record.verificationId, hash := record.verificationHash } ∧
    base.fence = .current)
    ⟨fun h ↦ ⟨h.1, h.2.1, h.2.2.1, h.2.2.2⟩, fun h ↦ ⟨h.id_eq, h.nodeId_eq, h.accepted, h.current⟩⟩

/-- Each current attempt whose node still has its revision records, for every predecessor of the
node and of its own definition, an accepted attempt that is current at the revision and hash that
the predecessor has now. -/
def RestsOnCurrent (graph : ManagedTaskGraph) : Prop :=
  ∀ attempt ∈ graph.attempts, attempt.fence = .current → ∀ node ∈ graph.nodes,
    node.definition.id = attempt.nodeId → node.revision = attempt.taskRevision →
    ∀ predecessor ∈ node.definition.predecessors ++ attempt.definition.predecessors,
      ∃ record ∈ attempt.predecessors, record.nodeId = predecessor ∧
        ∃ base ∈ graph.attempts, IsBase record base ∧ ∃ below ∈ graph.nodes, base.matchesNode below = true

instance (graph : ManagedTaskGraph) : Decidable (RestsOnCurrent graph) := by
  unfold RestsOnCurrent
  infer_instance

/-- What a current attempt has below it, without the hashes. -/
structure Supported (graph : ManagedTaskGraph) (attempt : ManagedTaskAttempt) : Prop where
  node : ∃ node ∈ graph.nodes, node.definition.id = attempt.nodeId ∧
    node.revision = attempt.taskRevision ∧
    ∀ id, id ∈ node.definition.predecessors ↔ id ∈ attempt.definition.predecessors
  records : ∀ predecessor ∈ attempt.definition.predecessors, ∃ record ∈ attempt.predecessors,
    record.nodeId = predecessor ∧ ∃ base ∈ graph.attempts, IsBase record base

/-- The invariant of a graph. -/
structure SoundGraph (graph : ManagedTaskGraph) : Prop where
  names : (graph.nodes.map fun node ↦ node.definition.id).Nodup
  ids : (graph.attempts.map ManagedTaskAttempt.id).Nodup
  finished : ∀ attempt ∈ graph.attempts, attempt.accepted.isSome = true →
    attempt.validation = .finished
  supported : ∀ attempt ∈ graph.attempts, attempt.fence = .current → Supported graph attempt

/-- Current attempts match a node, and every node has the hash of its definition. -/
structure HashedGraph (context : ManagedContext) (graph : ManagedTaskGraph) : Prop where
  hashes : ∀ node ∈ graph.nodes, node.hash = context.managedIdentity node.definition.value
  matched : ∀ attempt ∈ graph.attempts, attempt.fence = .current →
    ∃ node ∈ graph.nodes, attempt.matchesNode node = true

/-- A sound graph in which the current attempts match their nodes. -/
theorem SoundGraph.restsOnCurrent (h : SoundGraph graph)
    (hmatched : ∀ attempt ∈ graph.attempts, attempt.fence = .current →
      ∃ node ∈ graph.nodes, attempt.matchesNode node) :
    RestsOnCurrent graph := by
  intro attempt hatt hcur node hnode hid hrev pred hpred
  have hsupported := h.supported attempt hatt hcur
  have hown : pred ∈ attempt.definition.predecessors := by
    obtain ⟨found, hfound, hfoundId, -, hsame⟩ := hsupported.node
    have heq : found = node := inj_on_of_nodup_map h.names hfound hnode (hfoundId.trans hid.symm)
    rw [heq] at hsame
    rcases mem_append.mp hpred with hofNode | hofAttempt
    · exact (hsame pred).mp hofNode
    · exact hofAttempt
  obtain ⟨record, hrecord, hname, base, hbase, hisBase⟩ := hsupported.records pred hown
  exact ⟨record, hrecord, hname, base, hbase, hisBase, hmatched base hbase hisBase.current⟩

/-! ## Steps of one graph -/

/-- What a step on an attempt leaves alone. An accepted attempt keeps its acceptance and its fence. -/
structure Progress (old new : ManagedTaskAttempt) : Prop where
  id_eq : new.id = old.id
  nodeId_eq : new.nodeId = old.nodeId
  taskRevision_eq : new.taskRevision = old.taskRevision
  definitionHash_eq : new.definitionHash = old.definitionHash
  definition_eq : new.definition = old.definition
  predecessors_eq : new.predecessors = old.predecessors
  current : new.fence = .current → old.fence = .current
  kept : old.accepted.isSome = true → new.accepted = old.accepted ∧ new.fence = old.fence
  finished : new.accepted.isSome = true → new.validation = .finished

/-- The nodes that a revision keeps and does not reach have the same predecessors, in any order. -/
def KeepsPredecessors (graph : ManagedTaskGraph) (definitions : List ManagedTaskDefinition) : Prop :=
  ∀ node ∈ graph.nodes, ∀ next ∈ definitions, next.id = node.definition.id →
    ¬ Affected context graph definitions next.id →
      ∀ id, id ∈ next.predecessors ↔ id ∈ node.definition.predecessors

/-- The nodes that a revision keeps and does not reach have the same definition. -/
def KeepsDefinitions (graph : ManagedTaskGraph) (definitions : List ManagedTaskDefinition) : Prop :=
  ∀ node ∈ graph.nodes, ∀ next ∈ definitions, next.id = node.definition.id →
    ¬ Affected context graph definitions next.id → next = node.definition

/-- A new attempt of a node, with a record for each of its predecessors. -/
structure IsAdmission (graph : ManagedTaskGraph) (node : ManagedDefinitionRecord)
    (attempt : ManagedTaskAttempt) : Prop where
  fresh : attempt.id ∉ graph.attempts.map ManagedTaskAttempt.id
  nodeId_eq : attempt.nodeId = node.definition.id
  taskRevision_eq : attempt.taskRevision = node.revision
  definitionHash_eq : attempt.definitionHash = node.hash
  definition_eq : attempt.definition = node.definition
  predecessors_eq : predecessorVector graph node.definition = some attempt.predecessors
  accepted_eq : attempt.accepted = none

def canceledNodes (graph : ManagedTaskGraph) (ids : List JsString) : List JsString :=
  downstreamClosure ManagedTaskDefinition.id ManagedTaskDefinition.predecessors ids
    (graph.nodes.map ManagedDefinitionRecord.definition)

/-- What a step can do to a graph, where revisions are restricted. -/
inductive GraphStep (context : ManagedContext)
    (allowed : ManagedTaskGraph → List ManagedTaskDefinition → Prop) (graph : ManagedTaskGraph) :
    ManagedTaskGraph → Prop
  | progress (change : ManagedTaskAttempt → ManagedTaskAttempt)
      (h : ∀ attempt ∈ graph.attempts, Progress attempt (change attempt)) :
      GraphStep context allowed graph { graph with attempts := graph.attempts.map change }
  | cancel (ids canceled : List JsString) :
      GraphStep context allowed graph { graph with
        canceled
        attempts := graph.attempts.map (ManagedTaskAttempt.fenceOff (canceledNodes graph ids) .canceled) }
  | revise (definitions : List ManagedTaskDefinition)
      (hnames : (definitions.map ManagedTaskDefinition.id).Nodup) (h : allowed graph definitions) :
      GraphStep context allowed graph (revisedGraph context graph definitions)
  | admission {node : ManagedDefinitionRecord} {attempt : ManagedTaskAttempt} (hnode : node ∈ graph.nodes)
      (h : IsAdmission graph node attempt) :
      GraphStep context allowed graph { graph with attempts := graph.attempts ++ [attempt] }

section

variable {affected : List JsString} {fence : Fence}

theorem fence_fenceOff_eq_current_iff (hlost : fence ≠ .current) :
    (attempt.fenceOff affected fence).fence = .current ↔
      attempt.fence = .current ∧ attempt.nodeId ∉ affected := by
  unfold ManagedTaskAttempt.fenceOff
  split_ifs with hoff
  · simp [hlost, hoff.1]
  · exact ⟨fun hcur ↦ ⟨hcur, fun hmem ↦ hoff ⟨hmem, hcur⟩⟩, fun h ↦ h.1⟩

/-- Outside of what is fenced off, a base stays a base. -/
theorem IsBase.fenceOff {base : ManagedTaskAttempt}
    (h : IsBase record base) (hlost : fence ≠ .current) (hfree : record.nodeId ∉ affected) :
    IsBase record (base.fenceOff affected fence) := by
  have hcurrent := (fence_fenceOff_eq_current_iff hlost).mpr ⟨h.current, h.nodeId_eq ▸ hfree⟩
  rw [fenceOff_eq]
  exact ⟨h.id_eq, h.nodeId_eq, h.accepted, hcurrent⟩

end

section

variable {graph after : ManagedTaskGraph}

/-- Fencing off a set of nodes with everything that follows them keeps a graph sound, when the
other nodes stay. -/
theorem SoundGraph.fenceOff (h : SoundGraph graph) (affected : List JsString) (fence : Fence)
    (hlost : fence ≠ .current)
    (hatts : after.attempts = graph.attempts.map (ManagedTaskAttempt.fenceOff affected fence))
    (hnames : (after.nodes.map fun node ↦ node.definition.id).Nodup)
    (hclosed : ∀ node ∈ graph.nodes, ∀ pred ∈ node.definition.predecessors,
      pred ∈ affected → node.definition.id ∈ affected)
    (hstays : ∀ node ∈ graph.nodes, node.definition.id ∉ affected → ∃ next ∈ after.nodes,
      next.definition.id = node.definition.id ∧ next.revision = node.revision ∧
        ∀ id, id ∈ next.definition.predecessors ↔ id ∈ node.definition.predecessors) :
    SoundGraph after where
  names := hnames
  ids := by
    rw [hatts, map_map]
    simpa only [Function.comp_def, id_fenceOff] using h.ids
  finished := by
    rw [hatts, forall_mem_map]
    intro attempt hatt
    rw [fenceOff_eq]
    exact h.finished attempt hatt
  supported := by
    rw [hatts, forall_mem_map]
    intro attempt hatt hcur
    obtain ⟨hcur, hfree⟩ := (fence_fenceOff_eq_current_iff hlost).mp hcur
    have hsupported := h.supported attempt hatt hcur
    obtain ⟨node, hnode, hid, hrev, hsame⟩ := hsupported.node
    obtain ⟨next, hnext, hnextId, hnextRevision, hnextSame⟩ := hstays node hnode (hid ▸ hfree)
    rw [fenceOff_eq]
    constructor
    · exact ⟨next, hnext, hnextId.trans hid, hnextRevision.trans hrev,
        fun id ↦ (hnextSame id).trans (hsame id)⟩
    · intro pred hpred
      obtain ⟨record, hrecord, rfl, base, hbase, hisBase⟩ :=
        hsupported.records pred hpred
      -- a fenced predecessor would have the node of the attempt among what follows it
      have hpredecessorFree : record.nodeId ∉ affected := fun hmem ↦
        hfree (hid ▸ hclosed node hnode _ ((hsame _).mpr hpred) hmem)
      refine ⟨record, hrecord, rfl, base.fenceOff affected fence, ?_,
        hisBase.fenceOff hlost hpredecessorFree⟩
      rw [hatts]
      exact mem_map_of_mem hbase

theorem SoundGraph.progress (h : SoundGraph graph)
    (hchange : ∀ attempt ∈ graph.attempts, Progress attempt (change attempt)) :
    SoundGraph { graph with attempts := graph.attempts.map change } where
  names := h.names
  ids := by
    have hids : (graph.attempts.map change).map ManagedTaskAttempt.id =
        graph.attempts.map ManagedTaskAttempt.id := by
      rw [map_map]
      exact map_congr_left fun attempt hatt ↦ (hchange attempt hatt).id_eq
    rw [hids]
    exact h.ids
  finished := by
    rw [forall_mem_map]
    exact fun attempt hatt ↦ (hchange attempt hatt).finished
  supported := by
    rw [forall_mem_map]
    intro attempt hatt hcur
    have hprogress := hchange attempt hatt
    have hsupported := h.supported attempt hatt (hprogress.current hcur)
    constructor
    · rw [hprogress.nodeId_eq, hprogress.taskRevision_eq, hprogress.definition_eq]
      exact hsupported.node
    · rw [hprogress.definition_eq, hprogress.predecessors_eq]
      intro pred hpred
      obtain ⟨record, hrecord, hname, base, hbase, hisBase⟩ :=
        hsupported.records pred hpred
      have hbaseProgress := hchange base hbase
      obtain ⟨hacc, hfence⟩ := hbaseProgress.kept (by rw [hisBase.accepted]; rfl)
      exact ⟨record, hrecord, hname, change base, mem_map_of_mem hbase,
        hbaseProgress.id_eq.trans hisBase.id_eq, hbaseProgress.nodeId_eq.trans hisBase.nodeId_eq,
        hacc.trans hisBase.accepted, hfence.trans hisBase.current⟩

/-- The attempt of a record was found current and accepted. -/
theorem isBase_of_predecessorRecord {id : JsString} (h : predecessorRecord graph id = some record) :
    record.nodeId = id ∧ ∃ base ∈ graph.attempts, IsBase record base := by
  simp only [predecessorRecord, Option.bind_eq_bind, Option.bind_eq_some_iff, Option.pure_def,
    Option.some.injEq] at h
  obtain ⟨node, -, base, hbase, accepted, hacc, produced, -, rfl⟩ := h
  have hfound := find?_some hbase
  simp only [and_eq_true, decide_eq_true_eq] at hfound
  obtain ⟨⟨⟨⟨hnodeId, -⟩, -⟩, hcur⟩, -⟩ := hfound
  exact ⟨rfl, base, mem_of_find?_eq_some hbase, rfl, hnodeId, hacc, hcur⟩

theorem SoundGraph.admission (h : SoundGraph graph)
    (hnode : node ∈ graph.nodes) (hadmission : IsAdmission graph node attempt) :
    SoundGraph { graph with attempts := graph.attempts ++ [attempt] } where
  names := h.names
  ids := by
    rw [map_append, nodup_append]
    refine ⟨h.ids, nodup_singleton _, fun id hid other hother hsame ↦ hadmission.fresh ?_⟩
    rw [← mem_singleton.mp hother, ← hsame]
    exact hid
  finished := by
    rw [forall_mem_append, forall_mem_singleton]
    refine ⟨h.finished, fun hacc ↦ ?_⟩
    rw [hadmission.accepted_eq] at hacc
    cases hacc
  supported := by
    have hmore {older} (hsupported : Supported graph older) :
        Supported { graph with attempts := graph.attempts ++ [attempt] } older := by
      refine ⟨hsupported.node, fun pred hpred ↦ ?_⟩
      obtain ⟨record, hrecord, hname, base, hbase, hisBase⟩ := hsupported.records pred hpred
      exact ⟨record, hrecord, hname, base, mem_append_left _ hbase, hisBase⟩
    rw [forall_mem_append, forall_mem_singleton]
    refine ⟨fun older holder hcur ↦ hmore (h.supported older holder hcur), fun _ ↦ hmore ⟨?_, ?_⟩⟩
    · refine ⟨node, hnode, hadmission.nodeId_eq.symm, hadmission.taskRevision_eq.symm, fun id ↦ ?_⟩
      rw [hadmission.definition_eq]
    · rw [hadmission.definition_eq]
      intro pred hpred
      have hsorted : pred ∈ sortStrings node.definition.predecessors :=
        (perm_insertionSort _ _).mem_iff.mpr hpred
      obtain ⟨record, hrecord, hfound⟩ := exists_of_mapM_eq_some hadmission.predecessors_eq hsorted
      exact ⟨record, hrecord, isBase_of_predecessorRecord hfound⟩

variable {context : ManagedContext}

/-- A step of a graph keeps it sound when its revisions keep the definitions of what they do not
reach. -/
theorem GraphStep.sound (h : GraphStep context (KeepsDefinitions context) graph after)
    (hsound : SoundGraph graph) : SoundGraph after := by
  cases h with
  | progress change hchange => exact hsound.progress hchange
  | admission hnode hadmission => exact hsound.admission hnode hadmission
  | cancel ids canceled =>
    refine hsound.fenceOff (canceledNodes graph ids) .canceled (by decide) rfl ?_ ?_ ?_
    · exact hsound.names
    · intro node hnode pred hpred hmem
      apply mem_downstreamClosure_iff.mpr
      exact Downstream.step (mem_map_of_mem hnode) hpred (mem_downstreamClosure_iff.mp hmem)
    · exact fun node hnode _ ↦ ⟨node, hnode, rfl, rfl, fun _ ↦ Iff.rfl⟩
  | revise defs hdefs hrevise =>
    have hnames : DistinctNames graph defs := ⟨hsound.names, hdefs⟩
    refine hsound.fenceOff (affectedNodes context graph defs) .superseded (by decide) rfl ?_ ?_ ?_
    · have hmap : (revisedGraph context graph defs).nodes.map (fun node ↦ node.definition.id) =
          defs.map ManagedTaskDefinition.id := by
        rw [revisedGraph, map_map]
        rfl
      rw [hmap]
      exact hdefs
    · intro node hnode pred hpred hmem
      apply mem_downstreamClosure_iff.mpr
      exact Downstream.step (mem_append_left _ (mem_map_of_mem hnode)) hpred
        (mem_downstreamClosure_iff.mp hmem)
    · intro node hnode hfree
      obtain ⟨next, hnext, hid, hunreached, hrev⟩ :=
        exists_revisedNode_of_not_mem hnames hnode hfree
      refine ⟨_, mem_map_of_mem hnext, hid, hrev, fun id ↦ ?_⟩
      rw [hrevise node hnode next hnext hid hunreached]
      rfl

/-- Such a step keeps the hashes of current attempts as well. -/
theorem GraphStep.hashed (h : GraphStep context (KeepsDefinitions context) graph after)
    (hsound : SoundGraph graph) (hhashed : HashedGraph context graph) :
    HashedGraph context after := by
  cases h with
  | progress change hchange =>
    refine ⟨hhashed.hashes, forall_mem_map.mpr fun attempt hatt hcur ↦ ?_⟩
    have hprogress := hchange attempt hatt
    obtain ⟨node, hnode, hmatches⟩ := hhashed.matched attempt hatt (hprogress.current hcur)
    refine ⟨node, hnode, ?_⟩
    rw [matchesNode_iff, hprogress.nodeId_eq, hprogress.taskRevision_eq, hprogress.definitionHash_eq]
    exact matchesNode_iff.mp hmatches
  | admission hnode hadmission =>
    refine ⟨hhashed.hashes, forall_mem_append.mpr ⟨hhashed.matched, ?_⟩⟩
    rw [forall_mem_singleton]
    exact fun _ ↦ ⟨_, hnode, matchesNode_iff.mpr
      ⟨hadmission.nodeId_eq.symm, hadmission.taskRevision_eq.symm, hadmission.definitionHash_eq.symm⟩⟩
  | cancel =>
    refine ⟨hhashed.hashes, forall_mem_map.mpr fun attempt hatt hcur ↦ ?_⟩
    obtain ⟨hcur, -⟩ := (fence_fenceOff_eq_current_iff (by decide)).mp hcur
    obtain ⟨node, hnode, hmatches⟩ := hhashed.matched attempt hatt hcur
    rw [fenceOff_eq]
    exact ⟨node, hnode, hmatches⟩
  | revise defs hdefs hrevise =>
    have hnames : DistinctNames graph defs := ⟨hsound.names, hdefs⟩
    constructor
    · exact forall_mem_map.mpr fun next _ ↦ rfl
    · refine forall_mem_map.mpr fun attempt hatt hcur ↦ ?_
      obtain ⟨hcur, hfree⟩ := (fence_fenceOff_eq_current_iff (by decide)).mp hcur
      obtain ⟨node, hnode, hmatches⟩ := hhashed.matched attempt hatt hcur
      rw [fenceOff_eq]
      apply exists_revised_matchesNode hnames hnode hmatches hfree (hhashed.hashes node hnode)
      intro next hnext hid hunreached
      rw [hrevise node hnode next hnext hid hunreached]

end

/-! ## What a step does to the domain -/

/-- Every graph afterwards was there before, comes from one that was there by a step, or is new. -/
def StepEffect (allowed : ManagedTaskGraph → List ManagedTaskDefinition → Prop)
    (state after : ManagedTaskDomain) : Prop :=
  ∀ graph ∈ after.graphs, graph ∈ state.graphs ∨
    (∃ previous ∈ state.graphs, GraphStep context allowed previous graph) ∨
    (SoundGraph graph ∧ HashedGraph context graph)

/-- What a revision step has to meet. -/
def StepAllowed (allowed : ManagedTaskGraph → List ManagedTaskDefinition → Prop)
    (state : ManagedTaskDomain) : ManagedStep → Prop
  | .revise graphId nodes => ∀ graph, state.findGraph graphId = some graph → allowed graph nodes
  | _ => True

section

variable {context : ManagedContext} {allowed : ManagedTaskGraph → List ManagedTaskDefinition → Prop}
  {host : ManagedHost} {state after : ManagedTaskDomain} {graph : ManagedTaskGraph}

theorem StepEffect.refl : StepEffect context allowed state state := fun _ hgraph ↦ .inl hgraph

theorem StepEffect.setGraph {next : ManagedTaskGraph} (hgraph : graph ∈ state.graphs)
    (h : GraphStep context allowed graph next) :
    StepEffect context allowed state (state.setGraph next) := by
  refine forall_mem_map.mpr fun prev hprev ↦ ?_
  split_ifs
  · exact .inr (.inl ⟨graph, hgraph, h⟩)
  · exact .inl hprev

theorem StepEffect.mapAttempts
    (h : ∀ graph ∈ state.graphs, ∀ attempt ∈ graph.attempts, Progress attempt (change attempt)) :
    StepEffect context allowed state (state.mapAttempts change) := by
  refine forall_mem_map.mpr fun prev hprev ↦ ?_
  exact .inr (.inl ⟨prev, hprev, GraphStep.progress change (h prev hprev)⟩)

theorem mem_of_findGraph (h : state.findGraph graphId = some graph) :
    graph ∈ state.graphs ∧ graph.id = graphId :=
  ⟨mem_of_find?_eq_some h, by simpa using find?_some h⟩

/-- An operation on an attempt starts by finding its graph and the attempt. -/
theorem exists_attempt_of_eq_ok {reason missing : String}
    {next : ManagedTaskGraph → ManagedTaskAttempt → Except ManagedTaskError ManagedTaskDomain}
    (h : (do
      let graph ← orPolicy (state.findGraph graphId) reason
      let attempt ← orPolicy (graph.findAttempt attemptId) missing
      next graph attempt) = .ok after) :
    ∃ graph ∈ state.graphs, ∃ attempt ∈ graph.attempts, next graph attempt = .ok after := by
  obtain ⟨graph, hgraph, h⟩ := bind_eq_ok_iff.mp h
  obtain ⟨attempt, hatt, h⟩ := bind_eq_ok_iff.mp h
  rw [orPolicy_eq_ok_iff] at hgraph hatt
  exact ⟨graph, (mem_of_findGraph hgraph).1, attempt, mem_of_find?_eq_some hatt, h⟩

theorem Progress.refl (hfin : attempt.accepted.isSome → attempt.validation = .finished) :
    Progress attempt attempt where
  id_eq := rfl
  nodeId_eq := rfl
  taskRevision_eq := rfl
  definitionHash_eq := rfl
  definition_eq := rfl
  predecessors_eq := rfl
  current := id
  kept := fun _ ↦ ⟨rfl, rfl⟩
  finished := hfin

/-- A verification that is running has no acceptance. -/
theorem SoundGraph.not_accepted (hsound : SoundGraph graph)
    (hatt : attempt ∈ graph.attempts) (hrunning : attempt.validation = .running) :
    ¬ attempt.accepted.isSome := by
  intro hsome
  rw [hsound.finished attempt hatt hsome] at hrunning
  cases hrunning

theorem effect_define {id owner : JsString}
    (h : defineManagedTaskGraph context host state id owner nodes = .ok after) :
    StepEffect context allowed state after := by
  rw [defineManagedTaskGraph, check_bind_eq_ok_iff, check_bind_eq_ok_iff, check_bind_eq_ok_iff,
    bind_eq_ok_iff] at h
  obtain ⟨-, -, -, defs, hparse, h⟩ := h
  obtain ⟨-, hafter⟩ := check_bind_eq_ok_iff.mp h
  obtain ⟨rfl, -, -, ⟨hnames, -⟩⟩ := parseManagedTaskDefinitions_eq_ok_iff.mp hparse
  cases hafter
  intro graph hgraph
  rcases mem_append.mp hgraph with hold | hnew
  · exact .inl hold
  · rw [mem_singleton.mp hnew]
    refine .inr (.inr ⟨⟨?_, nodup_nil, ?_, ?_⟩, ?_, ?_⟩)
    · rw [map_map]
      exact hnames
    · exact forall_mem_nil _
    · exact forall_mem_nil _
    · exact forall_mem_map.mpr fun definition _ ↦ rfl
    · exact forall_mem_nil _

theorem effect_admission {request : AdmissionRequest}
    (h : admitManagedTask context host state request = .ok after) :
    StepEffect context allowed state after := by
  unfold admitManagedTask at h
  obtain ⟨graph, hgraph, h⟩ := bind_eq_ok_iff.mp h
  obtain ⟨-, -, -, -, hreserved, h⟩ : _ ∧ _ ∧ _ ∧ _ ∧ _ ∧ _ := by
    simpa only [check_bind_eq_ok_iff] using h
  obtain ⟨node, hnode, h⟩ := bind_eq_ok_iff.mp h
  obtain ⟨-, h⟩ := check_bind_eq_ok_iff.mp h
  obtain ⟨preds, hpreds, h⟩ := bind_eq_ok_iff.mp h
  obtain ⟨-, h⟩ := check_bind_eq_ok_iff.mp h
  obtain ⟨resources, -, h⟩ := bind_eq_ok_iff.mp h
  obtain ⟨-, h⟩ := check_bind_eq_ok_iff.mp h
  obtain ⟨-, h⟩ := check_bind_eq_ok_iff.mp h
  obtain ⟨inputs, -, h⟩ := bind_eq_ok_iff.mp h
  obtain ⟨-, hafter⟩ := check_bind_eq_ok_iff.mp h
  rw [orPolicy_eq_ok_iff] at hgraph hnode hpreds
  obtain ⟨hmem, hgraphId⟩ := mem_of_findGraph hgraph
  have hnodeId : node.definition.id = request.nodeId := by simpa using find?_some hnode
  cases hafter
  apply StepEffect.setGraph hmem
  apply GraphStep.admission (mem_of_find?_eq_some hnode)
  exact {
    fresh := by
      intro hused
      obtain ⟨attempt, hatt, hid⟩ := mem_map.mp hused
      have htaken : isReserved state request :=
        any_eq_true.mpr ⟨graph, hmem, any_eq_true.mpr ⟨attempt, hatt, by
          simp only [or_eq_true, and_eq_true, decide_eq_true_eq]
          exact .inr ⟨hgraphId, hid⟩⟩⟩
      rw [htaken] at hreserved
      simp at hreserved
    nodeId_eq := hnodeId.symm
    taskRevision_eq := rfl
    definitionHash_eq := rfl
    definition_eq := rfl
    predecessors_eq := hpreds
    accepted_eq := rfl }

theorem Progress.setWorker (nativeIdentity : JsString) (worker : WorkerState)
    (hfin : attempt.accepted.isSome → attempt.validation = .finished) :
    Progress attempt (setWorker nativeIdentity worker attempt) := by
  unfold Broker.setWorker
  split_ifs
  · exact { Progress.refl hfin with }
  · exact Progress.refl hfin

variable (hstate : ∀ graph ∈ state.graphs, SoundGraph graph)

include hstate

theorem effect_setWorker (nativeIdentity : JsString) (worker : WorkerState) :
    StepEffect context allowed state (state.mapAttempts (setWorker nativeIdentity worker)) := by
  apply StepEffect.mapAttempts
  intro graph hgraph attempt hatt
  exact Progress.setWorker nativeIdentity worker ((hstate graph hgraph).finished attempt hatt)

/-- A step on one attempt of a graph of the domain. -/
theorem effect_setAttempt (hgraph : graph ∈ state.graphs)
    (hold : old ∈ graph.attempts) (h : Progress old old → Progress old new) :
    StepEffect context allowed state (state.setGraph (graph.setAttempt new)) := by
  have hsame {attempt} (hatt : attempt ∈ graph.attempts) : Progress attempt attempt :=
    Progress.refl ((hstate graph hgraph).finished attempt hatt)
  refine StepEffect.setGraph hgraph (GraphStep.progress _ fun attempt hatt ↦ ?_)
  split_ifs with hid
  · have hnew := h (hsame hold)
    rwa [inj_on_of_nodup_map (hstate graph hgraph).ids hatt hold (hid.trans hnew.id_eq)]
  · exact hsame hatt

theorem effect_start {nodeId owner executionId : JsString}
    (h : startOrObserve context host state graphId nodeId owner executionId = .ok after) :
    StepEffect context allowed state after := by
  unfold startOrObserve at h
  obtain ⟨graph, hgraph, h⟩ := bind_eq_ok_iff.mp h
  obtain ⟨attempt, hatt, h⟩ := bind_eq_ok_iff.mp h
  obtain ⟨-, h⟩ := check_bind_eq_ok_iff.mp h
  obtain ⟨-, h⟩ := check_bind_eq_ok_iff.mp h
  rw [orPolicy_eq_ok_iff] at hgraph
  obtain ⟨hmem, -⟩ := mem_of_findGraph hgraph
  have hattemptMem : attempt ∈ graph.attempts := by
    unfold currentAttempt at hatt
    obtain ⟨-, hatt⟩ := check_bind_eq_ok_iff.mp hatt
    obtain ⟨node, -, hfound⟩ := bind_eq_ok_iff.mp hatt
    exact mem_reverse.mp (mem_of_find?_eq_some (orPolicy_eq_ok_iff.mp hfound))
  split_ifs at h with hacc hstarted
  · simp only [check_bind_eq_ok_iff] at h
    rw [← Except.ok.inj h.2.2.2]
    exact StepEffect.refl
  · cases h
    exact StepEffect.refl
  · simp only [check_bind_eq_ok_iff] at h
    obtain ⟨-, -, -, -, h⟩ := h
    obtain ⟨paths, -, h⟩ := bind_eq_ok_iff.mp h
    obtain ⟨produced, -, h⟩ := bind_eq_ok_iff.mp h
    obtain ⟨-, h⟩ := check_bind_eq_ok_iff.mp h
    obtain ⟨roots, -, h⟩ := bind_eq_ok_iff.mp h
    obtain ⟨outputs, -, hafter⟩ := bind_eq_ok_iff.mp h
    cases hafter
    apply effect_setAttempt hstate hmem hattemptMem
    intro hsame
    exact { hsame with
      kept := fun hsome ↦ absurd hsome hacc
      finished := fun hsome ↦ absurd hsome hacc }

theorem effect_accept {receipts : List ManagedVerificationReceipt}
    (h : acceptExecution context host state graphId attemptId receipts = .ok after) :
    StepEffect context allowed state after := by
  obtain ⟨graph, hgraph, attempt, hatt, h⟩ := exists_attempt_of_eq_ok h
  obtain ⟨execution, -, h⟩ := bind_eq_ok_iff.mp h
  simp only [check_bind_eq_ok_iff] at h
  obtain ⟨-, -, -, hrunning, h⟩ := h
  obtain ⟨produced, -, h⟩ := bind_eq_ok_iff.mp h
  obtain ⟨immutable, -, h⟩ := bind_eq_ok_iff.mp h
  simp only [check_bind_eq_ok_iff] at h
  obtain ⟨-, -, -, -, -, h⟩ := h
  obtain ⟨roots, -, h⟩ := bind_eq_ok_iff.mp h
  obtain ⟨outputs, -, h⟩ := bind_eq_ok_iff.mp h
  simp only [check_bind_eq_ok_iff] at h
  obtain ⟨-, -, -, -, h⟩ := h
  obtain ⟨first, -, hafter⟩ := bind_eq_ok_iff.mp h
  rw [requirePolicy_eq_ok_iff, decide_eq_true_eq] at hrunning
  have hnone := (hstate graph hgraph).not_accepted hatt hrunning
  cases hafter
  apply effect_setAttempt hstate hgraph hatt
  intro hsame
  exact { hsame with
    kept := fun hsome ↦ absurd hsome hnone
    finished := fun _ ↦ rfl }

/-- A verification that ends without an acceptance, and may lose the fence. -/
theorem effect_ended (hgraph : graph ∈ state.graphs)
    (hatt : attempt ∈ graph.attempts) (hrunning : attempt.validation = .running)
    {validation : ValidationState} {fence : Fence} (hfence : fence = .current → attempt.fence = .current) :
    StepEffect context allowed state
      (state.setGraph (graph.setAttempt { attempt with validation, fence })) := by
  have hnone := (hstate graph hgraph).not_accepted hatt hrunning
  apply effect_setAttempt hstate hgraph hatt
  intro hsame
  exact { hsame with
    current := hfence
    kept := fun hsome ↦ absurd hsome hnone
    finished := fun hsome ↦ absurd hsome hnone }

theorem effect_fail
    (h : failExecution state graphId attemptId = .ok after) : StepEffect context allowed state after := by
  obtain ⟨graph, hgraph, attempt, hatt, h⟩ := exists_attempt_of_eq_ok h
  split_ifs at h with hrunning hcur
  · cases h
    exact effect_ended hstate hgraph hatt hrunning fun hfailed ↦ hcur
  · cases h
    exact effect_ended hstate hgraph hatt hrunning id
  · cases h
    exact StepEffect.refl

/-- What every step does. -/
theorem applyStep_effect {step : ManagedStep} (hallowed : StepAllowed allowed state step)
    (h : applyStep context host state step = .ok after) : StepEffect context allowed state after := by
  cases step with
  | define => exact effect_define h
  | revise =>
    obtain ⟨graph, hgraph, h⟩ := bind_eq_ok_iff.mp h
    obtain ⟨revised, hrevised, hafter⟩ := bind_eq_ok_iff.mp h
    rw [orPolicy_eq_ok_iff] at hgraph
    cases hafter
    rw [reviseManagedTaskGraph, bind_eq_ok_iff] at hrevised
    obtain ⟨defs, hparse, hchecked⟩ := hrevised
    obtain ⟨rfl, -, -, ⟨hnames, -⟩⟩ := parseManagedTaskDefinitions_eq_ok_iff.mp hparse
    obtain ⟨-, hafter⟩ := check_bind_eq_ok_iff.mp hchecked
    cases hafter
    exact .setGraph (mem_of_findGraph hgraph).1 (GraphStep.revise defs hnames (hallowed graph hgraph))
  | cancel =>
    obtain ⟨graph, hgraph, h⟩ := bind_eq_ok_iff.mp h
    obtain ⟨canceled, hcanceled, hafter⟩ := bind_eq_ok_iff.mp h
    rw [orPolicy_eq_ok_iff] at hgraph
    cases hafter
    rw [cancelManagedTasks, check_bind_eq_ok_iff] at hcanceled
    obtain ⟨-, hcanceled⟩ := hcanceled
    cases hcanceled
    exact .setGraph (mem_of_findGraph hgraph).1 (GraphStep.cancel (firstMentions _) _)
  | admitTask => exact effect_admission h
  | observe nativeIdentity worker =>
    obtain ⟨attempt, -, h⟩ := bind_eq_ok_iff.mp h
    simp only [check_bind_eq_ok_iff] at h
    obtain ⟨-, -, -, -, hafter⟩ := h
    cases hafter
    exact effect_setWorker hstate nativeIdentity worker
  | launch nativeIdentity =>
    obtain ⟨attempt, -, h⟩ := bind_eq_ok_iff.mp h
    simp only [check_bind_eq_ok_iff] at h
    obtain ⟨-, -, hafter⟩ := h
    cases hafter
    exact effect_setWorker hstate nativeIdentity .authorized
  | start => exact effect_start hstate h
  | validated =>
    obtain ⟨graph, hgraph, attempt, hatt, h⟩ := exists_attempt_of_eq_ok h
    obtain ⟨execution, -, h⟩ := bind_eq_ok_iff.mp h
    obtain ⟨-, h⟩ := check_bind_eq_ok_iff.mp h
    obtain ⟨expected, -, h⟩ := bind_eq_ok_iff.mp h
    obtain ⟨-, hafter⟩ := check_bind_eq_ok_iff.mp h
    cases hafter
    exact effect_setAttempt hstate hgraph hatt fun hsame ↦ { hsame with }
  | accept => exact effect_accept hstate h
  | fail => exact effect_fail hstate h
  | lose =>
    obtain ⟨graph, hgraph, attempt, hatt, h⟩ := exists_attempt_of_eq_ok h
    split_ifs at h with hrunning
    · cases h
      exact effect_ended hstate hgraph hatt hrunning id
    · cases h
      exact StepEffect.refl
  | retire =>
    obtain ⟨graph, hgraph, attempt, hatt, h⟩ := exists_attempt_of_eq_ok h
    obtain ⟨retired, hretired, hafter⟩ := bind_eq_ok_iff.mp h
    cases hafter
    obtain ⟨-, hretired⟩ := check_bind_eq_ok_iff.mp hretired
    cases hretired
    exact effect_setAttempt hstate hgraph hatt fun hsame ↦ { hsame with }

end

/-! ## Runs -/

section

variable {context : ManagedContext} {state after : ManagedTaskDomain}

/-- What every state of a run satisfies. -/
structure SoundDomain (context : ManagedContext) (state : ManagedTaskDomain) : Prop where
  sound : ∀ graph ∈ state.graphs, SoundGraph graph
  hashed : ∀ graph ∈ state.graphs, HashedGraph context graph

theorem StepEffect.soundDomain (h : StepEffect context (KeepsDefinitions context) state after)
    (hstate : SoundDomain context state) : SoundDomain context after := by
  have hgraphs : ∀ graph ∈ after.graphs, SoundGraph graph ∧ HashedGraph context graph := by
    intro graph hgraph
    rcases h graph hgraph with hold | ⟨prev, hprev, hstep⟩ | hnew
    · exact ⟨hstate.sound graph hold, hstate.hashed graph hold⟩
    · have hsound := hstate.sound prev hprev
      exact ⟨hstep.sound hsound, hstep.hashed hsound (hstate.hashed prev hprev)⟩
    · exact hnew
  exact ⟨fun graph hgraph ↦ (hgraphs graph hgraph).1, fun graph hgraph ↦ (hgraphs graph hgraph).2⟩

end

def sampleNative (id : String) : ManagedNativeIdentity where
  key := utf16 id
  identity := checksumDigest (encodeUtf8 (utf16 id))
  requestHash := List.replicate 64 0x30

def sampleAdmission (id : String) : ManagedStep :=
  .admitTask { graphId := utf16 "g", owner := utf16 "owner", nodeId := utf16 id, attemptId := utf16 id
               native := sampleNative id }

/-- A task that is admitted, done, verified and accepted. -/
def acceptedTask (id : String) : List ManagedStep :=
  [sampleAdmission id, .observe (sampleNative id).identity .closed,
    .start (utf16 "g") (utf16 id) (utf16 "owner") (utf16 "execution"),
    .validated (utf16 "g") (utf16 id) { name := utf16 "check", command := utf16 "true"
                                        cwd := utf16 "/w", exitStatus := 0, pass := true },
    .accept (utf16 "g") (utf16 id) [{ id := utf16 id, hash := List.replicate 64 0x30, envelope := .obj [] }]]

/-- Two tasks, one after both, and one after that. -/
def joinedTasks (order : List String) : List ManagedTaskDefinition :=
  [sampleDefinition "x" [], sampleDefinition "y" [], sampleDefinition "p" order,
    sampleDefinition "s" ["p"]]

/-- The last task is admitted after the first three were accepted. -/
def joinedRun : List ManagedStep :=
  [.define (utf16 "g") (utf16 "owner") (joinedTasks ["x", "y"])] ++ acceptedTask "x" ++
    acceptedTask "y" ++ acceptedTask "p" ++ [sampleAdmission "s"]

def sampleTrace (steps : List ManagedStep) :
    List (Transition ManagedTaskDomain (ManagedHost × ManagedStep) (Option ManagedTaskError)) :=
  trace (stepDomain checksumContext) (emptyDomain sampleBinding) (steps.map fun step ↦ (sampleHost, step))

end GajaeCode.Broker
