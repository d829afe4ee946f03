import GajaeCode.Broker.ManagedSteps
import GajaeCode.Broker.TaskGraph

/-!
# What a revision does to a valid domain

A node counts as changed when its vector, in which the predecessors are sorted, has another
identity, while its stored hash is the identity of the definition as it is written. A revision
keeps a valid domain valid exactly when the nodes it does not reach keep the order of their
predecessors and no revision number is at its limit.
-/

namespace GajaeCode.Broker

open Text Json Machine Chain List Function JsValue ManagedTaskDefinition ManagedTaskGraph ManagedTaskAttempt ManagedTaskDomain

variable {node : ManagedDefinitionRecord} {next right left : ManagedTaskDefinition}
  {attempt : ManagedTaskAttempt} {fence : Fence} {revised : ManagedTaskGraph}

variable {context : ManagedContext} {graph : ManagedTaskGraph}
  {definitions : List ManagedTaskDefinition}

/-! ## What a revision reaches -/

/-- The revision removes the node, adds it or gives it another vector. -/
def ChangesVector (context : ManagedContext) (graph : ManagedTaskGraph)
    (definitions : List ManagedTaskDefinition) (id : JsString) : Prop :=
  ((graph.findNode id).map fun node ↦ context.managedIdentity node.definition.vector) ≠
    (definitions.find? fun definition ↦ definition.id = id).map fun definition ↦
      context.managedIdentity definition.vector

/-- The node is downstream of a changed one, along old or new edges. -/
def Affected (context : ManagedContext) (graph : ManagedTaskGraph)
    (definitions : List ManagedTaskDefinition) : JsString → Prop :=
  Downstream ManagedTaskDefinition.id ManagedTaskDefinition.predecessors
    (graph.nodes.map ManagedDefinitionRecord.definition ++ definitions)
    (ChangesVector context graph definitions)

/-- Names of nodes and of definitions are distinct. -/
structure DistinctNames (graph : ManagedTaskGraph) (definitions : List ManagedTaskDefinition) : Prop where
  nodes : (graph.nodes.map fun node ↦ node.definition.id).Nodup
  definitions : (definitions.map ManagedTaskDefinition.id).Nodup

theorem findNode_eq_some_iff (hnodup : (graph.nodes.map fun node ↦ node.definition.id).Nodup)
    {id : JsString} :
    graph.findNode id = some node ↔ node ∈ graph.nodes ∧ node.definition.id = id :=
  find?_name_eq_some_iff hnodup

section

variable (hnames : DistinctNames graph definitions)

include hnames

theorem mem_revisionSeeds_iff {id : JsString} :
    id ∈ revisionSeeds context graph definitions ↔ ChangesVector context graph definitions id := by
  have hremoved := exists_named_iff hnames.nodes (k := id) (p := fun id prev ↦
    (!(definitions.find? fun definition ↦ definition.id = id).any fun next ↦
      sameVector context next prev.definition))
  have hadded := exists_named_iff hnames.definitions (k := id) (p := fun id next ↦
    (!(graph.findNode id).any fun prev ↦ sameVector context next prev.definition))
  simp only [revisionSeeds, mem_firstMentions, mem_append, mem_map, mem_filter, and_assoc]
  rw [hremoved, hadded, ChangesVector, ← findNode]
  cases graph.findNode id with
  | none =>
    cases definitions.find? fun definition ↦ definition.id = id with
    | none => simp
    | some => simp
  | some prev =>
    cases definitions.find? fun definition ↦ definition.id = id with
    | none => simp
    | some next =>
      have hcomm : context.managedIdentity next.vector =
          context.managedIdentity prev.definition.vector ↔
          context.managedIdentity prev.definition.vector = context.managedIdentity next.vector :=
        eq_comm
      simp [sameVector, hcomm]

theorem mem_affectedNodes_iff {id : JsString} :
    id ∈ affectedNodes context graph definitions ↔ Affected context graph definitions id := by
  have hseeds : (· ∈ revisionSeeds context graph definitions) =
      ChangesVector context graph definitions := by
    funext id
    exact propext (mem_revisionSeeds_iff hnames)
  rw [affectedNodes, mem_downstreamClosure_iff, hseeds, Affected]

/-- A node that is not reached stays, with the same vector. -/
theorem exists_next_of_not_affected
    (hnode : node ∈ graph.nodes) (hfree : ¬ Affected context graph definitions node.definition.id) :
    ∃ next ∈ definitions, next.id = node.definition.id ∧
      context.managedIdentity next.vector = context.managedIdentity node.definition.vector := by
  have hsame : ¬ ChangesVector context graph definitions node.definition.id :=
    fun hchanges ↦ hfree (Downstream.seed hchanges)
  rw [ChangesVector, not_not, (findNode_eq_some_iff hnames.nodes).mpr ⟨hnode, rfl⟩] at hsame
  obtain ⟨next, hfound, hvector⟩ := Option.map_eq_some_iff.mp hsame.symm
  obtain ⟨hnext, hid⟩ := (find?_name_eq_some_iff hnames.definitions).mp hfound
  exact ⟨next, hnext, hid, hvector⟩

end

/-! ## Domains with one graph replaced -/

/-- The attempt up to its fence. -/
def ManagedTaskAttempt.unfenced (attempt : ManagedTaskAttempt) : ManagedTaskAttempt :=
  { attempt with fence := .current }

variable (affected : List JsString)

theorem unfenced_fenceOff (fence : Fence) (attempt : ManagedTaskAttempt) :
    (attempt.fenceOff affected fence).unfenced = attempt.unfenced := by
  rw [fenceOff_eq]
  rfl

/-- A graph of the domain that gets other nodes and fences, and nothing else. -/
structure IsRefenced (graph revised : ManagedTaskGraph) : Prop where
  id_eq : revised.id = graph.id
  attempts : revised.attempts.map ManagedTaskAttempt.unfenced =
    graph.attempts.map ManagedTaskAttempt.unfenced

section

variable {state : ManagedTaskDomain} {revised : ManagedTaskGraph}
  (hgraph : graph ∈ state.graphs) (hnodup : (state.graphs.map ManagedTaskGraph.id).Nodup)

include hgraph hnodup

theorem eq_of_id_eq {other : ManagedTaskGraph} (hother : other ∈ state.graphs)
    (hid : other.id = graph.id) : other = graph :=
  inj_on_of_nodup_map hnodup hother hgraph hid

theorem forall_mem_setGraph_iff (hid : revised.id = graph.id) {P : ManagedTaskGraph → Prop} :
    (∀ other ∈ (state.setGraph revised).graphs, P other) ↔
      P revised ∧ ∀ other ∈ state.graphs, other ≠ graph → P other := by
  simp only [setGraph, forall_mem_map, hid]
  constructor
  · intro hall
    refine ⟨by simpa using hall graph hgraph, fun other hother hne ↦ ?_⟩
    have hdifferent : other.id ≠ graph.id := fun h ↦ hne (eq_of_id_eq hgraph hnodup hother h)
    simpa [hdifferent] using hall other hother
  · rintro ⟨hrevised, hothers⟩ other hother
    split_ifs with hsame
    · exact hrevised
    · exact hothers other hother fun h ↦ hsame (by rw [h])

omit hgraph hnodup in
theorem map_id_setGraph : (state.setGraph revised).graphs.map ManagedTaskGraph.id =
    state.graphs.map ManagedTaskGraph.id := by
  rw [setGraph, map_map]
  apply map_congr_left
  intro other _
  simp only [comp_apply]
  split_ifs with hsame
  · exact hsame.symm
  · rfl

theorem map_unfenced_setGraph (hrevised : IsRefenced graph revised) :
    ((state.setGraph revised).graphs.flatMap attempts).map unfenced =
      (state.graphs.flatMap attempts).map unfenced := by
  rw [setGraph, map_flatMap, map_flatMap, flatMap_map]
  apply flatMap_congr
  intro other hother
  split_ifs with hsame
  · rw [hrevised.attempts, eq_of_id_eq hgraph hnodup hother (hsame.trans hrevised.id_eq)]
  · rfl

/-- What is left to check when one graph of a valid domain is replaced. -/
theorem validate_setGraph_iff (hstate : validateManagedTaskDomain context state = .ok state)
    (hrevised : IsRefenced graph revised) :
    validateManagedTaskDomain context (state.setGraph revised) = .ok (state.setGraph revised) ↔
      revised.conforms ∧ validateNodes context revised = .ok () ∧
        ∀ attempt ∈ revised.attempts, ValidAttempt context revised attempt := by
  rw [validateManagedTaskDomain_eq_ok_iff] at hstate
  obtain ⟨⟨hconforms, hbinding, -, hgraphs, hpairs⟩, -⟩ := hstate
  simp only [ManagedTaskDomain.conforms, Bool.and_eq_true, all_eq_true] at hconforms
  obtain ⟨⟨hcounter, hbindingConforms⟩, hgraphsConform⟩ := hconforms
  have hpairs' : ((state.setGraph revised).graphs.flatMap attempts).Pairwise
      (CompatibleAttempts context) := by
    have hiff : CompatibleAttempts context =
        fun earlier later ↦ CompatibleAttempts context earlier.unfenced later.unfenced := by
      funext earlier later
      exact propext ⟨fun h ↦ ⟨h.key, h.identity, h.reservations⟩,
        fun h ↦ ⟨h.key, h.identity, h.reservations⟩⟩
    rw [hiff, ← pairwise_map] at hpairs ⊢
    rwa [map_unfenced_setGraph hgraph hnodup hrevised]
  have hall := forall_mem_setGraph_iff hgraph hnodup hrevised.id_eq
    (P := fun other ↦ other.conforms)
  have hvalid := forall_mem_setGraph_iff hgraph hnodup hrevised.id_eq
    (P := fun other ↦ validateNodes context other = .ok () ∧
      ∀ attempt ∈ other.attempts, ValidAttempt context other attempt)
  rw [validateManagedTaskDomain_eq_ok_iff, map_id_setGraph, hvalid, ManagedTaskDomain.conforms,
    Bool.and_eq_true, Bool.and_eq_true, all_eq_true, hall]
  constructor
  · rintro ⟨⟨⟨-, hrevisedConforms, -⟩, -, -, ⟨hrevisedValid, -⟩, -⟩, -⟩
    exact ⟨hrevisedConforms, hrevisedValid⟩
  · rintro ⟨hrevisedConforms, hrevisedValid⟩
    exact ⟨⟨⟨⟨hcounter, hbindingConforms⟩, hrevisedConforms,
      fun other hother _ ↦ hgraphsConform other hother⟩, hbinding, hnodup,
      ⟨hrevisedValid, fun other hother _ ↦ hgraphs other hother⟩, hpairs'⟩, rfl⟩

end

/-! ## Fenced attempts stay valid -/

/-- An attempt that loses its fence is still valid, in whatever graph. -/
theorem ValidAttempt.fenced
    (h : ValidAttempt context graph attempt) (hcur : attempt.fence = .current)
    (hlost : fence ≠ .current) (hfence : fence ≠ .failed) :
    ValidAttempt context revised { attempt with fence } where
  record := h.record
  current := fun hfenced ↦ absurd hfenced hlost
  progress := by simpa [validateProgress, hcur, hfence] using h.progress
  retirement := by
    intro hretired
    have hretire := h.retirement hretired
    simp only [canRetireManagedAttempt, Bool.and_eq_true] at hretire ⊢
    exact ⟨hretire.1, by simp [hlost]⟩

/-- A fenced-off graph is valid when the attempts that stay current find their nodes. -/
theorem ValidAttempt.fenceOff (h : ValidAttempt context graph attempt) {affected : List JsString}
    (hlost : fence ≠ .current) (hfence : fence ≠ .failed)
    (hstays : attempt.fence = .current → attempt.nodeId ∉ affected →
      ∃ node ∈ revised.nodes, attempt.matchesNode node) :
    ValidAttempt context revised (attempt.fenceOff affected fence) := by
  unfold ManagedTaskAttempt.fenceOff
  split_ifs with hoff
  · exact h.fenced hoff.2 hlost hfence
  · exact ⟨h.record, fun hcur ↦ hstays hcur fun hmem ↦ hoff ⟨hmem, hcur⟩, h.progress, h.retirement⟩

theorem conforms_fenceOff (fence : Fence) (attempt : ManagedTaskAttempt) :
    (attempt.fenceOff affected fence).conforms = attempt.conforms := by
  rw [fenceOff_eq]
  rfl

theorem id_fenceOff (fence : Fence) (attempt : ManagedTaskAttempt) :
    (attempt.fenceOff affected fence).id = attempt.id := by
  rw [fenceOff_eq]

/-! ## The checks of a revised graph -/

theorem validateNodes_eq_ok_iff : validateNodes context graph = .ok () ↔
      (∃ result, parseManagedTaskDefinitions (graph.nodes.map ManagedDefinitionRecord.definition) =
        .ok result) ∧ graph.canceled.Nodup ∧
      (∀ id ∈ graph.canceled, ∃ node ∈ graph.nodes, node.definition.id = id) ∧
      (graph.attempts.map ManagedTaskAttempt.id).Nodup ∧
      ∀ node ∈ graph.nodes, node.hash = context.managedIdentity node.definition.value := by
  rw [validateNodes, bind_eq_ok_iff]
  simp only [check_bind_eq_ok_iff, requireDistinct_eq_ok_iff, requirePolicy_eq_ok_iff,
    all_eq_true, any_eq_true, decide_eq_true_eq, forM_eq_ok_iff, ← exists_and_right]

theorem distinctNames_of_valid (hnodes : validateNodes context graph = .ok ())
    (hparse : parseManagedTaskDefinitions definitions = .ok definitions) :
    DistinctNames graph definitions := by
  obtain ⟨⟨result, hres⟩, -⟩ := validateNodes_eq_ok_iff.mp hnodes
  have hnodup := (parseManagedTaskDefinitions_eq_ok_iff.mp hres).2.2.2.ids
  rw [map_map] at hnodup
  exact ⟨hnodup, (parseManagedTaskDefinitions_eq_ok_iff.mp hparse).2.2.2.ids⟩

theorem isRefenced_revisedGraph : IsRefenced graph (revisedGraph context graph definitions) where
  id_eq := rfl
  attempts := by
    rw [revisedGraph, map_map]
    apply map_congr_left
    exact fun attempt _ ↦ unfenced_fenceOff _ _ attempt

@[simp] theorem map_definition_revisedGraph :
    (revisedGraph context graph definitions).nodes.map ManagedDefinitionRecord.definition =
      definitions := by
  rw [revisedGraph, map_map]
  exact map_id _

/-- The nodes, hashes and cancellations of a revised graph are always in order. -/
theorem validateNodes_revisedGraph (hnodes : validateNodes context graph = .ok ())
    (hparse : parseManagedTaskDefinitions definitions = .ok definitions) :
    validateNodes context (revisedGraph context graph definitions) = .ok () := by
  obtain ⟨-, hcanceled, -, hatts, -⟩ := validateNodes_eq_ok_iff.mp hnodes
  rw [validateNodes_eq_ok_iff, map_definition_revisedGraph]
  refine ⟨⟨definitions, hparse⟩, hcanceled.filter _, ?_, ?_, ?_⟩
  · intro id hid
    obtain ⟨-, hkept⟩ := mem_filter.mp hid
    rw [Bool.and_eq_true, any_eq_true] at hkept
    obtain ⟨⟨next, hnext, hsame⟩, -⟩ := hkept
    exact ⟨_, mem_map_of_mem hnext, of_decide_eq_true hsame⟩
  · rw [revisedGraph, map_map]
    simpa only [comp_def, id_fenceOff] using hatts
  · exact forall_mem_map.mpr fun _ _ ↦ rfl

theorem foldl_max_lt_iff {bound : ℕ} (numbers : List ℕ) (start : ℕ) :
    numbers.foldl max start < bound ↔ start < bound ∧ ∀ number ∈ numbers, number < bound := by
  induction numbers generalizing start with
  | nil => simp
  | cons number rest ih =>
    rw [foldl_cons, ih, max_lt_iff, forall_mem_cons, and_assoc]

/-! ## The condition -/

/-- The definitions that a revision compares. -/
def comparedDefinitions (graph : ManagedTaskGraph) (definitions : List ManagedTaskDefinition) :
    List ManagedTaskDefinition :=
  graph.nodes.map ManagedDefinitionRecord.definition ++ definitions

/-- `managedIdentity` tells the compared definitions and their vectors apart. -/
def CollisionFree (context : ManagedContext) (graph : ManagedTaskGraph)
    (definitions : List ManagedTaskDefinition) : Prop :=
  ∀ left ∈ comparedDefinitions graph definitions, ∀ right ∈ comparedDefinitions graph definitions,
    (context.managedIdentity left.vector = context.managedIdentity right.vector →
      left.vector = right.vector) ∧
    (context.managedIdentity left.value = context.managedIdentity right.value →
      left.value = right.value)

/-- A node that the revision keeps and does not reach has its predecessors in the same order, and
the revisions that go up are below the largest number of the schema. -/
structure RevisionSafe (context : ManagedContext) (graph : ManagedTaskGraph)
    (definitions : List ManagedTaskDefinition) : Prop where
  order : ∀ node ∈ graph.nodes, ∀ next ∈ definitions, next.id = node.definition.id →
    ¬ Affected context graph definitions next.id → next.predecessors = node.definition.predecessors
  graphRevision : graph.revision < maxSafeInteger
  nodeRevision : ∀ node ∈ graph.nodes, ∀ next ∈ definitions, next.id = node.definition.id →
    Affected context graph definitions next.id → node.revision < maxSafeInteger
  historicRevision : ∀ next ∈ definitions, (∀ node ∈ graph.nodes, node.definition.id ≠ next.id) →
    ∀ attempt ∈ graph.attempts, attempt.nodeId = next.id → attempt.taskRevision < maxSafeInteger

/-- The revision number that a definition gets is within the schema. -/
def RevisionFits (context : ManagedContext) (graph : ManagedTaskGraph)
    (definitions : List ManagedTaskDefinition) (next : ManagedTaskDefinition) : Prop :=
  (∀ node ∈ graph.nodes, next.id = node.definition.id →
    Affected context graph definitions next.id → node.revision < maxSafeInteger) ∧
  ((∀ node ∈ graph.nodes, node.definition.id ≠ next.id) →
    ∀ attempt ∈ graph.attempts, attempt.nodeId = next.id → attempt.taskRevision < maxSafeInteger)

/-- The stored hash of a node changes only together with its revision. -/
def HashFollowsRevision (graph revised : ManagedTaskGraph) : Prop :=
  ∀ node ∈ graph.nodes, ∀ next ∈ revised.nodes, next.definition.id = node.definition.id →
    next.hash ≠ node.hash → next.revision ≠ node.revision

theorem predecessors_eq_of_value_eq
    (h : left.value = right.value) : left.predecessors = right.predecessors := by
  simp only [value, obj.injEq, cons.injEq, Prod.mk.injEq, arr.injEq, true_and] at h
  exact map_injective_iff.mpr (fun _ _ h ↦ str.inj h) h.2.2.2.1

/-- Only the id and the order of the predecessors are not in the vector. -/
theorem value_eq_of_vector_eq (hvector : left.vector = right.vector)
    (hid : left.id = right.id) (horder : left.predecessors = right.predecessors) :
    left.value = right.value := by
  simp only [vector, obj.injEq, cons.injEq, Prod.mk.injEq,
    arr.injEq, str.injEq, true_and] at hvector
  obtain ⟨hartifacts, hcriteria, -, hresources, htask, hvalidations, hworkspace, -⟩ := hvector
  rw [value, hartifacts, hcriteria, hid, horder, hresources, htask, hvalidations, hworkspace, value]

section

variable (hnames : DistinctNames graph definitions)

include hnames

theorem revision_of_kept (hnode : node ∈ graph.nodes)
    (hid : next.id = node.definition.id) (affected : List JsString) :
    (revisedNode context graph affected next).revision =
      node.revision + if next.id ∈ affected then 1 else 0 := by
  rw [revisedNode, (findNode_eq_some_iff hnames.nodes).mpr ⟨hnode, hid.symm⟩]

/-- A revision keeps the hashes of the nodes it does not reach when they keep their order. -/
theorem hash_of_kept (hhash : CollisionFree context graph definitions) (hnode : node ∈ graph.nodes)
    (hnext : next ∈ definitions) (hid : next.id = node.definition.id)
    (hfree : ¬ Affected context graph definitions next.id)
    (horder : next.predecessors = node.definition.predecessors) :
    context.managedIdentity next.value = context.managedIdentity node.definition.value := by
  obtain ⟨other, hother, hotherId, hvector⟩ :=
    exists_next_of_not_affected hnames hnode (hid ▸ hfree)
  have hsame : other = next :=
    inj_on_of_nodup_map hnames.definitions hother hnext (hotherId.trans hid.symm)
  rw [hsame] at hvector
  have hcompared : node.definition ∈ comparedDefinitions graph definitions :=
    mem_append_left _ (mem_map_of_mem hnode)
  have hvectors := (hhash next (mem_append_right _ hnext) _ hcompared).1 hvector
  rw [value_eq_of_vector_eq hvectors hid horder]

/-- A node that a revision does not reach is still there, at the same revision. -/
theorem exists_revisedNode_of_not_mem (hnode : node ∈ graph.nodes)
    (hfree : node.definition.id ∉ affectedNodes context graph definitions) :
    ∃ next ∈ definitions, next.id = node.definition.id ∧
      ¬ Affected context graph definitions next.id ∧
      (revisedNode context graph (affectedNodes context graph definitions) next).revision =
        node.revision := by
  have hunreached : ¬ Affected context graph definitions node.definition.id :=
    mt (mem_affectedNodes_iff hnames).mpr hfree
  obtain ⟨next, hnext, hid, -⟩ := exists_next_of_not_affected hnames hnode hunreached
  refine ⟨next, hnext, hid, hid ▸ hunreached, ?_⟩
  rw [revision_of_kept hnames hnode hid, if_neg (by rwa [hid]), Nat.add_zero]

/-- An attempt that a revision does not reach matches a revised node when its node keeps its hash. -/
theorem exists_revised_matchesNode {attempt : ManagedTaskAttempt} (hnode : node ∈ graph.nodes)
    (hmatches : attempt.matchesNode node)
    (hfree : attempt.nodeId ∉ affectedNodes context graph definitions)
    (hhash : node.hash = context.managedIdentity node.definition.value)
    (hkept : ∀ next ∈ definitions, next.id = node.definition.id →
      ¬ Affected context graph definitions next.id →
        context.managedIdentity next.value = context.managedIdentity node.definition.value) :
    ∃ next ∈ (revisedGraph context graph definitions).nodes, attempt.matchesNode next := by
  obtain ⟨hid, hrev, hsame⟩ := matchesNode_iff.mp hmatches
  obtain ⟨next, hnext, hnextId, hunreached, hnextRevision⟩ :=
    exists_revisedNode_of_not_mem hnames hnode (hid ▸ hfree)
  refine ⟨_, mem_map_of_mem hnext, matchesNode_iff.mpr
    ⟨hnextId.trans hid, hnextRevision.trans hrev, ?_⟩⟩
  calc
    context.managedIdentity next.value = context.managedIdentity node.definition.value :=
      hkept next hnext hnextId hunreached
    _ = node.hash := hhash.symm
    _ = attempt.definitionHash := hsame

/-- The hashes follow the revisions exactly when the unreached nodes keep their order. -/
theorem hashFollowsRevision_iff (hnodes : validateNodes context graph = .ok ())
    (hhash : CollisionFree context graph definitions) :
    HashFollowsRevision graph (revisedGraph context graph definitions) ↔
      ∀ node ∈ graph.nodes, ∀ next ∈ definitions, next.id = node.definition.id →
        ¬ Affected context graph definitions next.id →
          next.predecessors = node.definition.predecessors := by
  obtain ⟨-, -, -, -, hhashes⟩ := validateNodes_eq_ok_iff.mp hnodes
  constructor
  · intro hfollows node hnode next hnext hid hfree
    have hrev : (revisedNode context graph (affectedNodes context graph definitions) next).revision =
        node.revision := by
      rw [revision_of_kept hnames hnode hid, if_neg (mt (mem_affectedNodes_iff hnames).mp hfree),
        Nat.add_zero]
    have hsame : context.managedIdentity next.value = node.hash := by
      by_contra hne
      exact hfollows node hnode _ (mem_map_of_mem hnext) hid hne hrev
    rw [hhashes node hnode] at hsame
    have hcompared : node.definition ∈ comparedDefinitions graph definitions :=
      mem_append_left _ (mem_map_of_mem hnode)
    exact predecessors_eq_of_value_eq ((hhash next (mem_append_right _ hnext) _ hcompared).2 hsame)
  · intro horder node hnode revised hrevised hid hchanged hsame
    obtain ⟨next, hnext, rfl⟩ := mem_map.mp hrevised
    change next.id = node.definition.id at hid
    rw [revision_of_kept hnames hnode hid] at hsame
    have hunreached : next.id ∉ affectedNodes context graph definitions := by
      intro hmem
      rw [if_pos hmem] at hsame
      omega
    have hfree : ¬ Affected context graph definitions next.id :=
      mt (mem_affectedNodes_iff hnames).mpr hunreached
    apply hchanged
    rw [hhashes node hnode]
    exact hash_of_kept hnames hhash hnode hnext hid hfree (horder node hnode next hnext hid hfree)

/-- The revision number of a node: it goes up when the node was there and is reached, and it
continues the history of a node that was not there. -/
theorem conforms_revisedNode_iff (hnodes : ∀ node ∈ graph.nodes, node.conforms)
    (hnext : next.conforms) :
    (revisedNode context graph (affectedNodes context graph definitions) next).conforms ↔
      RevisionFits context graph definitions next := by
  have hpos : 0 < maxSafeInteger := by decide
  have hbounded (node) (hnode : node ∈ graph.nodes) :
      0 < node.revision ∧ node.revision ≤ maxSafeInteger := by
    have hconforms := hnodes node hnode
    simp only [ManagedDefinitionRecord.conforms, isPositiveCounter, Bool.and_eq_true,
      decide_eq_true_eq] at hconforms
    exact hconforms.1.1
  have hrest : isHexDigest (context.managedIdentity next.value) :=
    context.isHexDigest_sha256 _
  rw [ManagedDefinitionRecord.conforms, isPositiveCounter, Bool.and_eq_true, Bool.and_eq_true,
    Bool.and_eq_true, decide_eq_true_eq, decide_eq_true_eq]
  cases hfound : graph.findNode next.id with
  | some node =>
    obtain ⟨hmem, hsame⟩ := (findNode_eq_some_iff hnames.nodes).mp hfound
    have honly : ∀ other ∈ graph.nodes, next.id = other.definition.id → other = node :=
      fun other hother hotherId ↦
        inj_on_of_nodup_map hnames.nodes hother hmem (hotherId.symm.trans hsame.symm)
    rw [revision_of_kept hnames hmem hsame.symm]
    constructor
    · rintro ⟨⟨⟨-, hle⟩, -⟩, -⟩
      refine ⟨fun other hother hotherId haffected ↦ ?_, fun hnone ↦ absurd hsame (hnone node hmem)⟩
      rw [if_pos ((mem_affectedNodes_iff hnames).mpr haffected)] at hle
      rw [honly other hother hotherId]
      omega
    · rintro ⟨hkept, -⟩
      refine ⟨⟨⟨Nat.add_pos_left (hbounded node hmem).1 _, ?_⟩, hrest⟩, hnext⟩
      split_ifs with hreached
      · exact hkept node hmem hsame.symm ((mem_affectedNodes_iff hnames).mp hreached)
      · exact (hbounded node hmem).2
  | none =>
    have hnone : ∀ node ∈ graph.nodes, node.definition.id ≠ next.id := by
      simpa [findNode] using hfound
    have hrev : (revisedNode context graph (affectedNodes context graph definitions) next).revision =
        historicRevision graph next.id + 1 := by
      rw [revisedNode, hfound]
    have hhistoric : historicRevision graph next.id < maxSafeInteger ↔
        ∀ attempt ∈ graph.attempts, attempt.nodeId = next.id →
          attempt.taskRevision < maxSafeInteger := by
      simp only [historicRevision, foldl_max_lt_iff, mem_map, mem_filter, decide_eq_true_eq]
      constructor
      · exact fun h attempt hatt hsame ↦ h.2 _ ⟨attempt, ⟨hatt, hsame⟩, rfl⟩
      · refine fun h ↦ ⟨hpos, ?_⟩
        rintro _ ⟨attempt, ⟨hatt, hsame⟩, rfl⟩
        exact h attempt hatt hsame
    rw [hrev, Nat.succ_le_iff, hhistoric]
    constructor
    · rintro ⟨⟨⟨-, hle⟩, -⟩, -⟩
      exact ⟨fun node hmem hsame ↦ absurd hsame.symm (hnone node hmem), fun _ ↦ hle⟩
    · rintro ⟨-, hle⟩
      exact ⟨⟨⟨Nat.succ_pos _, hle hnone⟩, hrest⟩, hnext⟩

/-- The revision numbers of a revised graph are within the schema exactly when they were below its
largest number. -/
theorem conforms_revisedGraph_iff (hgraph : graph.conforms)
    (hconform : ∀ definition ∈ definitions, definition.conforms) (hne : definitions ≠ []) :
    (revisedGraph context graph definitions).conforms ↔ graph.revision < maxSafeInteger ∧
        ∀ next ∈ definitions, RevisionFits context graph definitions next := by
  simp only [ManagedTaskGraph.conforms, isPositiveCounter, Bool.and_eq_true, decide_eq_true_eq,
    all_eq_true] at hgraph
  obtain ⟨⟨⟨⟨⟨hid, howner⟩, -⟩, hnodes, -⟩, hatts⟩, hcanceled⟩ := hgraph
  have hall : (revisedGraph context graph definitions).nodes.all ManagedDefinitionRecord.conforms ↔
      ∀ next ∈ definitions, RevisionFits context graph definitions next := by
    simp only [revisedGraph, all_map, all_eq_true, comp_apply]
    exact forall₂_congr fun next hnext ↦ conforms_revisedNode_iff hnames hnodes (hconform next hnext)
  have hatts' : (revisedGraph context graph definitions).attempts.all conforms := by
    simpa only [revisedGraph, all_map, comp_def, conforms_fenceOff, all_eq_true] using hatts
  have hcanceled' : (revisedGraph context graph definitions).canceled.all isText :=
    all_eq_true.mpr fun id hmem ↦ hcanceled id (mem_of_mem_filter hmem)
  have hnodes' : (revisedGraph context graph definitions).nodes ≠ [] := by
    simpa [revisedGraph] using hne
  have hcounter : isPositiveCounter (graph.revision + 1) ↔ graph.revision < maxSafeInteger := by
    simp [isPositiveCounter]
  rw [ManagedTaskGraph.conforms]
  simp only [Bool.and_eq_true, hall, hatts', hcanceled', decide_eq_true_eq]
  constructor
  · rintro ⟨⟨⟨⟨-, hrev⟩, hnodesOk, -⟩, -⟩, -⟩
    exact ⟨hcounter.mp hrev, hnodesOk⟩
  · rintro ⟨hrev, hfits⟩
    exact ⟨⟨⟨⟨⟨hid, howner⟩, hcounter.mpr hrev⟩, hfits, hnodes'⟩, trivial⟩, trivial⟩

end

/-! ## Revisions of a valid domain -/

/-- The attempts of a revised graph are valid when the unreached nodes keep their order. -/
theorem validAttempts_revisedGraph (hnodes : validateNodes context graph = .ok ())
    (hatts : ∀ attempt ∈ graph.attempts, ValidAttempt context graph attempt)
    (hnames : DistinctNames graph definitions) (hhash : CollisionFree context graph definitions)
    (hsafe : RevisionSafe context graph definitions) :
    ∀ attempt ∈ (revisedGraph context graph definitions).attempts,
      ValidAttempt context (revisedGraph context graph definitions) attempt := by
  obtain ⟨-, -, -, -, hhashes⟩ := validateNodes_eq_ok_iff.mp hnodes
  refine forall_mem_map.mpr fun attempt hatt ↦ ?_
  apply (hatts attempt hatt).fenceOff (by decide) (by decide)
  intro hcur hunreached
  obtain ⟨node, hnode, hmatches⟩ := (hatts attempt hatt).current hcur
  apply exists_revised_matchesNode hnames hnode hmatches hunreached (hhashes node hnode)
  intro next hnext hid hfree
  exact hash_of_kept hnames hhash hnode hnext hid hfree
    (hsafe.order node hnode next hnext hid hfree)

/-- A revision of a graph of a valid domain leads to a valid domain, in which hashes have changed
only together with revisions, exactly when the condition holds. -/
theorem revision_keeps_domain_valid_iff (context : ManagedContext) (host : ManagedHost)
    (state : ManagedTaskDomain) (graph : ManagedTaskGraph) (definitions : List ManagedTaskDefinition)
    (hstate : validateManagedTaskDomain context state = .ok state) (hgraph : graph ∈ state.graphs)
    (hparse : parseManagedTaskDefinitions definitions = .ok definitions)
    (hchecks : ∀ definition ∈ definitions,
      validateDefinition context host state.binding definition = .ok ())
    (hhash : CollisionFree context graph definitions) :
    (∃ after affected, reviseManagedTaskGraph context host state graph definitions =
        .ok (after, affected) ∧
      validateManagedTaskDomain context after = .ok after ∧
      ∀ revised ∈ after.graphs, revised.id = graph.id → HashFollowsRevision graph revised) ↔
    RevisionSafe context graph definitions := by
  obtain ⟨⟨hconforms, -, hnodup, hgraphs, -⟩, -⟩ := validateManagedTaskDomain_eq_ok_iff.mp hstate
  obtain ⟨hnodes, hattempts⟩ := hgraphs graph hgraph
  have hgraphConforms : graph.conforms = true := by
    simp only [ManagedTaskDomain.conforms, Bool.and_eq_true, all_eq_true] at hconforms
    exact hconforms.2 graph hgraph
  obtain ⟨-, hdefinitions, hne, -⟩ := parseManagedTaskDefinitions_eq_ok_iff.mp hparse
  have hnames := distinctNames_of_valid hnodes hparse
  have hfollows := hashFollowsRevision_iff hnames hnodes hhash
  have hrefenced : IsRefenced graph (revisedGraph context graph definitions) := isRefenced_revisedGraph
  have hvalid := validate_setGraph_iff hgraph hnodup hstate hrefenced
  have hrevised : (∀ revised ∈ (state.setGraph (revisedGraph context graph definitions)).graphs,
      revised.id = graph.id → HashFollowsRevision graph revised) ↔
      HashFollowsRevision graph (revisedGraph context graph definitions) := by
    rw [forall_mem_setGraph_iff hgraph hnodup hrefenced.id_eq]
    exact ⟨fun h ↦ h.1 rfl, fun h ↦ ⟨fun _ ↦ h, fun other hother hdifferent hid ↦
      absurd (eq_of_id_eq hgraph hnodup hother hid) hdifferent⟩⟩
  have hforM : definitions.forM (validateDefinition context host state.binding) = .ok () :=
    forM_eq_ok_iff.mpr hchecks
  have hok : reviseManagedTaskGraph context host state graph definitions =
      .ok (state.setGraph (revisedGraph context graph definitions),
        sortStrings (affectedNodes context graph definitions)) := by
    rw [reviseManagedTaskGraph, hparse]
    exact check_bind_eq_ok_iff.mpr ⟨hforM, rfl⟩
  rw [hok]
  constructor
  · rintro ⟨after, affected, hresult, hafter, hhashes⟩
    obtain ⟨rfl, -⟩ := hresult
    obtain ⟨hconforms', -, -⟩ := hvalid.mp hafter
    obtain ⟨hrevision, hfits⟩ :=
      (conforms_revisedGraph_iff hnames hgraphConforms hdefinitions hne).mp hconforms'
    exact ⟨hfollows.mp (hrevised.mp hhashes), hrevision,
      fun node hmem next hnext ↦ (hfits next hnext).1 node hmem, fun next hnext ↦ (hfits next hnext).2⟩
  · intro hsafe
    refine ⟨_, _, rfl, hvalid.mpr ⟨?_, ?_, ?_⟩, hrevised.mpr (hfollows.mpr hsafe.order)⟩
    · exact (conforms_revisedGraph_iff hnames hgraphConforms hdefinitions hne).mpr
        ⟨hsafe.graphRevision, fun next hnext ↦
          ⟨fun node hmem ↦ hsafe.nodeRevision node hmem next hnext, hsafe.historicRevision next hnext⟩⟩
    · exact validateNodes_revisedGraph hnodes hparse
    · exact validAttempts_revisedGraph hnodes hattempts hnames hhash hsafe

/-! ## Small revisions -/

/-- A host with one directory, in which nothing else has been created. -/
def sampleHost : ManagedHost where
  validateBinding := fun _ ↦ .ok ()
  canonicalPath := fun _ path ↦ .ok {
    path, object := if path = utf16 "/w" then some (utf16 "1:1") else none
    ancestor := utf16 "1:1", suffix := path }
  isDirectory := fun _ ↦ true
  captureManagedManifest := fun _ _ ↦ .ok []
  sortByPath := id

def samplePredecessor (id : String) : ManagedPredecessor where
  nodeId := utf16 id
  taskRevision := 1
  attemptId := utf16 id
  verificationId := utf16 id
  verificationHash := List.replicate 64 0x30
  produced := []

/-- Two tasks and one after them, of which there is an attempt. -/
def joinDomain : ManagedTaskDomain :=
  sampleDomain [sampleNode "x" [], sampleNode "y" [], sampleNode "p" ["x", "y"]]
    [{ sampleAttempt "p" ["x", "y"] with
       predecessors := [samplePredecessor "x", samplePredecessor "y"] }]

/-- A definition list that swaps the predecessors of the last task. -/
def swappedDefinitions : List ManagedTaskDefinition :=
  [sampleDefinition "x" [], sampleDefinition "y" [], sampleDefinition "p" ["y", "x"]]

/-- Swapping two predecessors affects no node, and the attempt no longer finds its definition. -/
theorem swapped_predecessors_invalidate_domain :
    validateManagedTaskDomain checksumContext joinDomain = .ok joinDomain ∧
    parseManagedTaskDefinitions swappedDefinitions = .ok swappedDefinitions ∧
    (∀ definition ∈ swappedDefinitions,
      validateDefinition checksumContext sampleHost joinDomain.binding definition = .ok ()) ∧
    ∀ graph ∈ joinDomain.graphs,
      (reviseManagedTaskGraph checksumContext sampleHost joinDomain graph swappedDefinitions).map
        Prod.snd = .ok [] ∧
      (reviseManagedTaskGraph checksumContext sampleHost joinDomain graph swappedDefinitions).bind
        (fun revised ↦ validateManagedTaskDomain checksumContext revised.1) =
          .error (.policy "current attempt definition missing") := by
  decide +kernel

/-- Two tasks, one after the other. -/
def chainGraph : ManagedTaskGraph where
  id := utf16 "g"
  owner := utf16 "owner"
  revision := 1
  nodes := [sampleNode "x" [], sampleNode "p" ["x"]]
  attempts := []
  canceled := []

/-- The first task of the two gets another text. -/
def changedDefinitions : List ManagedTaskDefinition :=
  [{ sampleDefinition "x" [] with task := utf16 "changed" }, sampleDefinition "p" ["x"]]

/-- A changed task keeps the domain valid. -/
theorem changed_task_keeps_domain_valid :
    ∃ after affected, reviseManagedTaskGraph checksumContext sampleHost
        { sampleDomain [] [] with graphs := [chainGraph] } chainGraph changedDefinitions =
          .ok (after, affected) ∧
      validateManagedTaskDomain checksumContext after = .ok after := by
  have hkept : ∀ node ∈ chainGraph.nodes, ∀ next ∈ changedDefinitions,
      next.id = node.definition.id →
        next.predecessors = node.definition.predecessors ∧ node.revision < maxSafeInteger := by
    decide +kernel
  have hsafe : RevisionSafe checksumContext chainGraph changedDefinitions := {
    order := fun node hnode next hnext hid _ ↦ (hkept node hnode next hnext hid).1
    graphRevision := by decide +kernel
    nodeRevision := fun node hnode next hnext hid _ ↦ (hkept node hnode next hnext hid).2
    historicRevision := fun next hnext hnew attempt hattempt ↦ absurd hattempt not_mem_nil }
  have hhash : CollisionFree checksumContext chainGraph changedDefinitions := by
    unfold CollisionFree
    decide +kernel
  obtain ⟨after, affected, hrevise, hafter, -⟩ := (revision_keeps_domain_valid_iff checksumContext
    sampleHost { sampleDomain [] [] with graphs := [chainGraph] } chainGraph changedDefinitions
    (by decide +kernel) mem_cons_self (by decide +kernel) (by decide +kernel) hhash).mpr hsafe
  exact ⟨after, affected, hrevise, hafter⟩

end GajaeCode.Broker
