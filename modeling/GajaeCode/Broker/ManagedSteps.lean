import GajaeCode.Broker.ManagedDomain
import GajaeCode.Chain.Downstream
import GajaeCode.Chain.LastWrite

/-!
# The steps of a managed task domain

Definition, revision, cancellation and admission of tasks, the observation of their workers, and
the verification, acceptance and retirement of attempts. Everything a step asks of the file system
is an answer of the host.
-/

namespace GajaeCode.Broker

open Text Json Machine Chain

/-! ## Answers of the host -/

/-- What `canonicalPath` finds out about a path. -/
structure CanonicalPath where
  path : JsString
  object : Option JsString
  ancestor : JsString
  suffix : JsString

/-- What the host answers during one step. -/
structure ManagedHost where
  validateBinding : ManagedDomainBinding → Except ManagedTaskError Unit
  canonicalPath : ManagedDomainBinding → JsString → Except ManagedTaskError CanonicalPath
  isDirectory : JsString → Bool
  captureManagedManifest : ManagedDomainBinding → List JsString → Except ManagedTaskError ManagedManifest
  /-- The order of `localeCompare`. -/
  sortByPath : ManagedManifest → ManagedManifest

/-! ## Resources and manifests on the host -/

/-- `[a-z0-9]`. -/
def isNameUnit (unit : UInt16) : Bool := isDigit unit || (0x61 ≤ unit.toNat && unit.toNat ≤ 0x7A)

/-- `canonicalNamedIdentity(identity)`. -/
def canonicalNamedIdentity (identity : JsString) : Except ManagedTaskError Unit :=
  requirePolicy (identity.head?.any isNameUnit && identity.getLast?.any isNameUnit &&
    identity.all (fun unit ↦ isNameUnit unit || unit ∈ utf16 "._:/-") &&
    !decide (utf16 "//" <:+: identity) && !decide (utf16 ".." <:+: identity))
    "named resource must have explicit canonical identity"

def ManifestKind.text : ManifestKind → JsString
  | absent => utf16 "absent"
  | file => utf16 "file"
  | directory => utf16 "directory"

def ManagedManifestEntry.value (entry : ManagedManifestEntry) : JsValue :=
  .obj [(utf16 "hash", optionalText entry.hash), (utf16 "kind", .str entry.kind.text),
    (utf16 "mode", (entry.mode.map fun mode ↦ .num (.ofNat mode)).getD .null),
    (utf16 "object", optionalText entry.object), (utf16 "path", .str entry.path)]

def manifestValue (manifest : ManagedManifest) : JsValue := .arr (manifest.map ManagedManifestEntry.value)

variable (context : ManagedContext)

/-- `isInsideWorkspace(workspace, artifact)`. -/
def isInsideWorkspace (workspace artifact : JsString) : Bool :=
  workspace = artifact || within context.cwd workspace artifact

section

variable (host : ManagedHost) (binding : ManagedDomainBinding)

def canonicalizeManagedResource (declaration : ManagedResource) :
    Except ManagedTaskError ManagedCanonicalResource := do
  requireSchema declaration.conforms
  match declaration with
  | .path location _ _ _ => do
      let found ← host.canonicalPath binding location
      return { declaration, path := found.path, object := found.object, ancestor := found.ancestor,
               suffix := found.suffix }
  | .named _ identity _ => do
      canonicalNamedIdentity identity
      return { declaration, path := none, object := none, ancestor := none, suffix := none }
  | .port _ _ _ _ => return { declaration, path := none, object := none, ancestor := none, suffix := none }

/-- `canonicalizeManagedResources(binding, declarations)`. -/
def canonicalizeManagedResources (declarations : List ManagedResource) :
    Except ManagedTaskError (List ManagedCanonicalResource) := do
  host.validateBinding binding
  declarations.mapM (canonicalizeManagedResource host binding)

def ManagedArtifact.needed (artifact : ManagedArtifact) : AccessMode :=
  if artifact.role = .input then .read else .write

/-- A reservation of the directory a new output is created in. -/
def isParentNamespace (parent : JsString) (resource : ManagedCanonicalResource) : Bool :=
  match resource.declaration with
  | .path _ mode _ inNamespace => mode = .write && inNamespace && resource.path = some parent
  | _ => false

/-- The artifacts of a definition, each compared with the ones before it. -/
def validateArtifacts (workspace : JsString) (resources : List ManagedCanonicalResource)
    (earlier : List CanonicalPath) : List (ManagedArtifact × CanonicalPath) → Except ManagedTaskError Unit
  | [] => return ()
  | (artifact, canonical) :: rest => do
      requirePolicy (isInsideWorkspace context workspace canonical.path) "artifact is outside workspace"
      requirePolicy (resources.any fun resource ↦
        resourceCoversPath context resource canonical.path artifact.needed)
        "artifact lacks resource declaration"
      if artifact.needed = .write && (canonical.object.isNone || artifact.presence = .absent) then
        let parent ← host.canonicalPath binding (directoryName canonical.path)
        requirePolicy (resources.any (isParentNamespace parent.path))
          "output requires parent namespace write"
      earlier.forM fun other ↦
        requirePolicy (!(isTruthy canonical.object && canonical.object = other.object) &&
          !within context.cwd canonical.path other.path &&
          !within context.cwd other.path canonical.path) "overlapping artifact roles"
      validateArtifacts workspace resources (earlier ++ [canonical]) rest

/-- `validateDefinition(binding, node)`. -/
def validateDefinition (node : ManagedTaskDefinition) : Except ManagedTaskError Unit := do
  let workspace ← host.canonicalPath binding node.workspace
  requirePolicy (isTruthy workspace.object && host.isDirectory workspace.path) "workspace missing"
  let resources ← canonicalizeManagedResources host binding node.resources
  resources.forM fun resource ↦
    match resource.declaration with
    | .path _ mode _ inNamespace =>
        requirePolicy (!inNamespace || mode = .write) "namespace requires write resource"
    | _ => pure ()
  let keys ← resources.mapM (canonicalResourceKey context)
  requireDistinct keys "duplicate resource"
  let artifacts ← node.artifacts.mapM fun artifact ↦ do
    return (artifact, ← host.canonicalPath binding artifact.path)
  validateArtifacts context host binding workspace.path resources [] artifacts

/-- `assertManagedManifestCurrent(binding, manifest)`. -/
def assertManagedManifestCurrent (manifest : ManagedManifest) : Except ManagedTaskError Unit := do
  validateManifest manifest
  let roots := manifest.filter fun entry ↦ !manifest.any fun parent ↦
    parent ≠ entry && parent.kind = .directory && within context.cwd parent.path entry.path
  let captured ← host.captureManagedManifest binding (roots.map ManagedManifestEntry.path)
  requirePolicy (context.managedIdentity (manifestValue captured) =
    context.managedIdentity (manifestValue manifest)) "content drift"

end

/-! ## Graphs of a domain -/

variable (state : ManagedTaskDomain) (graph : ManagedTaskGraph)

/-- The graph of this id takes the place of the one before. -/
def ManagedTaskDomain.setGraph : ManagedTaskDomain :=
  { state with graphs := state.graphs.map fun other ↦ if other.id = graph.id then graph else other }

def ManagedTaskDomain.findGraph (graphId : JsString) : Option ManagedTaskGraph :=
  state.graphs.find? fun graph ↦ graph.id = graphId

def ManagedTaskGraph.findNode (id : JsString) : Option ManagedDefinitionRecord :=
  graph.nodes.find? fun node ↦ node.definition.id = id

def ManagedTaskGraph.findAttempt (id : JsString) : Option ManagedTaskAttempt :=
  graph.attempts.find? fun attempt ↦ attempt.id = id

variable (attempt : ManagedTaskAttempt)

def ManagedTaskGraph.setAttempt : ManagedTaskGraph :=
  { graph with attempts := graph.attempts.map fun other ↦ if other.id = attempt.id then attempt else other }

def orPolicy {α : Type} (found : Option α) (reason : String) : Except ManagedTaskError α :=
  match found with
  | some value => return value
  | none => throw (.policy reason)

@[simp] theorem orPolicy_eq_ok_iff {α : Type} {found : Option α} {reason : String} {value : α} :
    orPolicy found reason = .ok value ↔ found = some value := by
  cases found with
  | none => simp [orPolicy, throw, throwThe, MonadExceptOf.throw]
  | some => simp [orPolicy, pure, Except.pure]

/-- A current attempt of one of the nodes gets the fence. -/
def ManagedTaskAttempt.fenceOff (affected : List JsString) (fence : Fence)
    (attempt : ManagedTaskAttempt) : ManagedTaskAttempt :=
  if attempt.nodeId ∈ affected ∧ attempt.fence = .current then { attempt with fence } else attempt

/-- Only the fence changes. -/
theorem fenceOff_eq (affected : List JsString) (fence : Fence) (attempt : ManagedTaskAttempt) :
    attempt.fenceOff affected fence =
      { attempt with fence := (attempt.fenceOff affected fence).fence } := by
  unfold ManagedTaskAttempt.fenceOff
  split_ifs <;> rfl

/-! ## Definition, cancellation and revision -/

/-- `defineManagedTaskGraph(state, input)`. -/
def defineManagedTaskGraph (host : ManagedHost)
    (state : ManagedTaskDomain) (id owner : JsString) (value : List ManagedTaskDefinition) :
    Except ManagedTaskError ManagedTaskDomain := do
  requireSchema (isText id)
  requireSchema (isText owner)
  requirePolicy (!state.graphs.any fun graph ↦ graph.id = id) "graph already exists"
  let nodes ← parseManagedTaskDefinitions value
  nodes.forM (validateDefinition context host state.binding)
  let graph : ManagedTaskGraph := {
    id, owner, revision := 1, attempts := [], canceled := []
    nodes := nodes.map fun definition ↦
      { revision := 1, hash := context.managedIdentity definition.value, definition } }
  return { state with graphs := state.graphs ++ [graph] }

/-- `cancelManagedTasks(graph, ids)`, with the affected nodes. -/
def cancelManagedTasks (ids : List JsString) :
    Except ManagedTaskError (ManagedTaskGraph × List JsString) := do
  requirePolicy (ids.all fun id ↦ graph.nodes.any fun node ↦ node.definition.id = id)
    "unknown cancellation node"
  let affected := downstreamClosure ManagedTaskDefinition.id ManagedTaskDefinition.predecessors
    (firstMentions ids) (graph.nodes.map ManagedDefinitionRecord.definition)
  return ({ graph with
    canceled := sortStrings (firstMentions (graph.canceled ++ affected))
    attempts := graph.attempts.map (ManagedTaskAttempt.fenceOff affected .canceled) },
    sortStrings affected)

section

/-- The two definitions have the same `managedIdentity(definitionVector(_))`. -/
def sameVector (left right : ManagedTaskDefinition) : Bool :=
  context.managedIdentity left.vector = context.managedIdentity right.vector

variable (graph : ManagedTaskGraph) (definitions : List ManagedTaskDefinition)

/-- The ids that a revision removes, adds or gives another vector. -/
def revisionSeeds : List JsString :=
  let removed := graph.nodes.filter fun previous ↦
    !(definitions.find? fun definition ↦ definition.id = previous.definition.id).any fun next ↦
      sameVector context next previous.definition
  let added := definitions.filter fun definition ↦
    !(graph.findNode definition.id).any fun previous ↦
      sameVector context definition previous.definition
  firstMentions (removed.map (fun previous ↦ previous.definition.id) ++
    added.map ManagedTaskDefinition.id)

/-- `Math.max(0, ...)` of the revisions that the node's attempts were made at. -/
def historicRevision (id : JsString) : ℕ :=
  ((graph.attempts.filter fun attempt ↦ attempt.nodeId = id).map
    ManagedTaskAttempt.taskRevision).foldl max 0

def revisedNode (affected : List JsString)
    (definition : ManagedTaskDefinition) : ManagedDefinitionRecord where
  definition
  hash := context.managedIdentity definition.value
  revision :=
    match graph.findNode definition.id with
    | some previous => previous.revision + if definition.id ∈ affected then 1 else 0
    | none => historicRevision graph definition.id + 1

/-- `downstreamClosure` over the old and the new edges. -/
def affectedNodes : List JsString :=
  downstreamClosure ManagedTaskDefinition.id ManagedTaskDefinition.predecessors
    (revisionSeeds context graph definitions)
    (graph.nodes.map ManagedDefinitionRecord.definition ++ definitions)

def revisedGraph : ManagedTaskGraph :=
  let affected := affectedNodes context graph definitions
  { graph with
    nodes := definitions.map (revisedNode context graph affected)
    canceled := graph.canceled.filter fun id ↦
      (definitions.any fun definition ↦ definition.id = id) && id ∉ affected
    revision := graph.revision + 1
    attempts := graph.attempts.map (ManagedTaskAttempt.fenceOff affected .superseded) }

/-- `reviseManagedTaskGraph(state, graph, value)`, with the affected nodes. -/
def reviseManagedTaskGraph (host : ManagedHost) (state : ManagedTaskDomain) (graph : ManagedTaskGraph)
    (value : List ManagedTaskDefinition) :
    Except ManagedTaskError (ManagedTaskDomain × List JsString) := do
  let definitions ← parseManagedTaskDefinitions value
  definitions.forM (validateDefinition context host state.binding)
  return (state.setGraph (revisedGraph context graph definitions),
    sortStrings (affectedNodes context graph definitions))

end

/-! ## Admission -/

/-- What an attempt records of one predecessor: its first accepted attempt at the present revision
and hash. -/
def predecessorRecord (id : JsString) : Option ManagedPredecessor := do
  let node ← graph.findNode id
  let attempt ← graph.attempts.find? fun attempt ↦
    attempt.nodeId = id && attempt.taskRevision = node.revision &&
      attempt.definitionHash = node.hash && attempt.fence = .current && attempt.accepted.isSome
  let accepted ← attempt.accepted
  let produced ← attempt.produced
  return { nodeId := id, taskRevision := attempt.taskRevision, attemptId := attempt.id
           verificationId := accepted.id, verificationHash := accepted.hash, produced }

/-- `predecessorVector(graph, node)`. -/
def predecessorVector (node : ManagedTaskDefinition) : Option (List ManagedPredecessor) :=
  (sortStrings node.predecessors).mapM (predecessorRecord graph)

/-- The attempt holds its reservations, or it is the accepted one of this revision. -/
def ManagedTaskAttempt.occupies (node : ManagedDefinitionRecord) : Bool :=
  attempt.nodeId = node.definition.id && (!attempt.retired ||
    (attempt.taskRevision = node.revision && attempt.fence = .current && attempt.accepted.isSome))

/-- `readyManagedTasks(graph)`. -/
def readyManagedTasks : List JsString :=
  sortStrings ((graph.nodes.filter fun node ↦ node.definition.id ∉ graph.canceled &&
    (predecessorVector graph node.definition).isSome &&
    !graph.attempts.any fun attempt ↦ attempt.occupies node).map fun node ↦ node.definition.id)

/-- The place that a reservation gives the path of an artifact. -/
def canonicalArtifactPath (resources : List ManagedCanonicalResource) (artifact : ManagedArtifact) :
    JsString :=
  let declared := resources.find? fun resource ↦
    match resource.declaration with
    | .path location _ _ _ => location = artifact.path
    | _ => false
  (declared.bind ManagedCanonicalResource.path).getD artifact.path

/-- A reading reservation of the path. -/
def readsPath (path : JsString) (resource : ManagedCanonicalResource) : Bool :=
  match resource.declaration with
  | .path _ mode recursive _ => mode = .read && (resource.path = some path ||
      (recursive && resource.path.any fun parent ↦ within context.cwd parent path))
  | _ => false

structure AdmissionRequest where
  graphId : JsString
  owner : JsString
  nodeId : JsString
  attemptId : JsString
  native : ManagedNativeIdentity

section

variable (host : ManagedHost) (state : ManagedTaskDomain)

/-- No reservation of an attempt that is not retired conflicts, neither as recorded nor as the
file system has it now. -/
def checkReservations (resources : List ManagedCanonicalResource) : Except ManagedTaskError Unit :=
  state.graphs.forM fun graph ↦
    (graph.attempts.filter fun attempt ↦ !attempt.retired).forM fun attempt ↦ do
      let present ← canonicalizeManagedResources host state.binding
        (attempt.resources.map ManagedCanonicalResource.declaration)
      let conflict ← resources.anyM fun resource ↦ (attempt.resources ++ present).anyM fun other ↦
        managedResourcesConflict context resource other
      requirePolicy (!conflict) "resource conflict"

/-- The outputs of the predecessors are read and not overwritten. -/
def checkConsumed (binding : ManagedDomainBinding) (resources : List ManagedCanonicalResource)
    (predecessors : List ManagedPredecessor) : Except ManagedTaskError Unit :=
  predecessors.forM fun predecessor ↦ predecessor.produced.forM fun entry ↦ do
    host.validateBinding binding
    let consumed ← canonicalizeManagedResource host binding
      (.path entry.path .read (decide (entry.kind = .directory)) false)
    let conflict ← resources.anyM fun resource ↦ managedResourcesConflict context resource consumed
    requirePolicy (!conflict) "successor overwrites predecessor output"
    requirePolicy (resources.any (readsPath context entry.path))
      "consumed predecessor lacks read reservation"

def checkInputs (definition : ManagedTaskDefinition) (resources : List ManagedCanonicalResource)
    (inputs : ManagedManifest) : Except ManagedTaskError Unit :=
  definition.artifacts.forM fun artifact ↦
    let entry := inputs.find? fun entry ↦ entry.path = canonicalArtifactPath resources artifact
    requirePolicy (artifact.role ≠ .input || entry.any fun entry ↦
      (artifact.presence ≠ .required || entry.kind ≠ .absent) &&
        (artifact.presence ≠ .absent || entry.kind = .absent)) "input presence contract failed"

def inputPaths (definition : ManagedTaskDefinition) (predecessors : List ManagedPredecessor) :
    List JsString :=
  firstMentions ((definition.artifacts.filter fun artifact ↦ artifact.role ≠ .validationOutput).map
    ManagedArtifact.path ++ predecessors.flatMap fun predecessor ↦
      predecessor.produced.map ManagedManifestEntry.path)

/-- The key, the identity and the id of a new attempt are not in use. -/
def isReserved (request : AdmissionRequest) : Bool :=
  state.graphs.any fun graph ↦ graph.attempts.any fun attempt ↦
    attempt.native.key = request.native.key || attempt.native.identity = request.native.identity ||
      (graph.id = request.graphId && attempt.id = request.attemptId)

/-- The attempt that an admission adds. -/
def admittedAttempt (graph : ManagedTaskGraph) (node : ManagedDefinitionRecord)
    (request : AdmissionRequest) (predecessors : List ManagedPredecessor)
    (resources : List ManagedCanonicalResource) (inputs : ManagedManifest) : ManagedTaskAttempt where
  id := request.attemptId
  nodeId := request.nodeId
  taskRevision := node.revision
  graphRevision := graph.revision
  definitionHash := node.hash
  definition := node.definition
  native := request.native
  inputs := inputs
  predecessors := predecessors
  resources := resources
  produced := none
  validationImmutable := none
  validationOutputs := none
  worker := .reserved
  validation := .notStarted
  fence := .current
  retired := false
  accepted := none
  verificationExecution := none

/-- `admitManagedTask(state, input)`. A node that is ready is found and has its vector. -/
def admitManagedTask (request : AdmissionRequest) : Except ManagedTaskError ManagedTaskDomain := do
  let graph ← orPolicy (state.findGraph request.graphId) "graph owner mismatch"
  requirePolicy (graph.owner = request.owner) "graph owner mismatch"
  requirePolicy (request.nodeId ∈ readyManagedTasks graph) "node not ready"
  requireSchema (isText request.attemptId)
  requireSchema request.native.conforms
  requirePolicy (!isReserved state request) "attempt/native identity already reserved"
  let node ← orPolicy (graph.findNode request.nodeId) "node not ready"
  validateDefinition context host state.binding node.definition
  let predecessors ← orPolicy (predecessorVector graph node.definition) "node not ready"
  predecessors.forM fun predecessor ↦
    assertManagedManifestCurrent context host state.binding predecessor.produced
  let resources ← canonicalizeManagedResources host state.binding node.definition.resources
  checkReservations context host state resources
  checkConsumed context host state.binding resources predecessors
  let paths := inputPaths node.definition predecessors
  let inputs ← host.captureManagedManifest state.binding (paths.filter fun path ↦
    !paths.any fun other ↦ other ≠ path && within context.cwd other path)
  checkInputs node.definition resources inputs
  return state.setGraph { graph with
    attempts := graph.attempts ++ [admittedAttempt graph node request predecessors resources inputs] }

end

/-! ## Workers -/

def ManagedTaskDomain.mapAttempts
    (change : ManagedTaskAttempt → ManagedTaskAttempt) : ManagedTaskDomain :=
  { state with graphs := state.graphs.map fun graph ↦
      { graph with attempts := graph.attempts.map change } }

/-- `lookupManagedAttemptByNativeIdentity(state, nativeIdentity)`. -/
def lookupManagedAttemptByNativeIdentity (nativeIdentity : JsString) : Option ManagedTaskAttempt :=
  match (state.graphs.flatMap ManagedTaskGraph.attempts).filter fun attempt ↦
      attempt.native.identity = nativeIdentity with
  | [attempt] => some attempt
  | _ => none

def setWorker (nativeIdentity : JsString) (worker : WorkerState) (attempt : ManagedTaskAttempt) :
    ManagedTaskAttempt :=
  if attempt.native.identity = nativeIdentity then { attempt with worker } else attempt

/-- `recordManagedNativeObservation(binding, nativeIdentity, worker)`. -/
def recordManagedNativeObservation (nativeIdentity : JsString)
    (worker : WorkerState) : Except ManagedTaskError ManagedTaskDomain := do
  let attempt ← orPolicy (lookupManagedAttemptByNativeIdentity state nativeIdentity)
    "managed native identity is not reserved"
  requirePolicy (worker ≠ .authorized || attempt.worker = .reserved || attempt.worker = .authorized)
    "illegal worker observation"
  requirePolicy (worker ≠ .noEffect || attempt.worker = .reserved || attempt.worker = .noEffect)
    "illegal no-effect observation"
  requirePolicy (worker ≠ .unknown || attempt.worker ≠ .closed) "illegal unknown observation"
  requirePolicy (worker ≠ .closed || attempt.worker ≠ .noEffect) "illegal close observation"
  return state.mapAttempts (setWorker nativeIdentity worker)

/-- The launch of `withManagedNativeEffectAuthorized`. -/
def launchManagedNative (nativeIdentity : JsString) : Except ManagedTaskError ManagedTaskDomain := do
  let attempt ← orPolicy (lookupManagedAttemptByNativeIdentity state nativeIdentity)
    "managed native identity is not reserved"
  requirePolicy (attempt.fence = .current && !attempt.retired) "managed attempt is fenced"
  requirePolicy (attempt.worker = .reserved || attempt.worker = .authorized ||
    (attempt.worker = .noEffect && attempt.validation = .notStarted && attempt.accepted.isNone))
    "illegal worker observation"
  return state.mapAttempts (setWorker nativeIdentity .authorized)

/-! ## Verification -/

def declaredRoleRoots (roles : List ArtifactRole) : List JsString :=
  sortStrings (firstMentions ((attempt.definition.artifacts.filter fun artifact ↦
    artifact.role ∈ roles).map (canonicalArtifactPath attempt.resources)))

/-- `readOnlyInputManifest(attempt)`. -/
def readOnlyInputManifest : ManagedManifest :=
  let inputRoots := declaredRoleRoots attempt [.input]
  let consumed := attempt.predecessors.flatMap fun item ↦ item.produced.map ManagedManifestEntry.path
  attempt.inputs.filter fun entry ↦
    inputRoots.any (fun root ↦ entry.path = root || within context.cwd root entry.path) ||
      entry.path ∈ consumed || consumed.any fun parent ↦ within context.cwd parent entry.path

/-- The roots of some roles, all of which have to be reserved for writing. -/
def reservedRoots
    (roles : List ArtifactRole) (reason : String) : Except ManagedTaskError (List JsString) := do
  let roots := declaredRoleRoots attempt roles
  roots.forM fun root ↦ requirePolicy (attempt.covers context root .write) reason
  return roots

def producedPaths : Except ManagedTaskError (List JsString) :=
  reservedRoots context attempt [.output, .readWrite] "produced artifact is not reserved"

def validationOutputRoots : Except ManagedTaskError (List JsString) :=
  reservedRoots context attempt [.validationOutput] "validation output is not reserved"

def capturePaths (host : ManagedHost) (binding : ManagedDomainBinding) (paths : List JsString) :
    Except ManagedTaskError ManagedManifest :=
  if paths = [] then return [] else host.captureManagedManifest binding paths

/-- `assertPresence(definition, produced, attempt)`. -/
def assertPresence (produced : ManagedManifest) : Except ManagedTaskError Unit :=
  (attempt.definition.artifacts.filter fun artifact ↦
    artifact.role = .output || artifact.role = .readWrite).forM fun artifact ↦ do
    let entry := produced.find? fun entry ↦ entry.path = canonicalArtifactPath attempt.resources artifact
    requirePolicy (artifact.presence ≠ .required || entry.any fun entry ↦ entry.kind ≠ .absent)
      "absent required output"
    requirePolicy (artifact.presence ≠ .absent || entry.all fun entry ↦ entry.kind = .absent)
      "output presence contract failed"

/-- The attempt of `findAttempt`: the last current one at the present revision and hash. -/
def currentAttempt (nodeId owner : JsString) : Except ManagedTaskError ManagedTaskAttempt := do
  requirePolicy (graph.owner = owner) "graph owner mismatch"
  let node ← orPolicy (graph.findNode nodeId) "node missing"
  orPolicy (graph.attempts.reverse.find? fun attempt ↦ attempt.nodeId = nodeId &&
    attempt.taskRevision = node.revision && attempt.definitionHash = node.hash &&
    attempt.fence = .current) "attempt missing"

section

variable (host : ManagedHost)

/-- A verification that starts. -/
def startedAttempt (attempt : ManagedTaskAttempt) (executionId : JsString)
    (produced validationOutputs : ManagedManifest) : ManagedTaskAttempt :=
  { attempt with
    produced := some produced
    validationImmutable := some (host.sortByPath (readOnlyInputManifest context attempt ++ produced))
    validationOutputs := some validationOutputs
    verificationExecution := some {
      executionId, workspace := attempt.definition.workspace, commands := attempt.definition.validations
      observations := [], receipts := [] }
    validation := .running }

variable (state : ManagedTaskDomain)

/-- `startOrObserve(binding, input)` with the new execution id. -/
def startOrObserve (graphId nodeId owner executionId : JsString) :
    Except ManagedTaskError ManagedTaskDomain := do
  let graph ← orPolicy (state.findGraph graphId) "graph owner mismatch"
  let attempt ← currentAttempt graph nodeId owner
  requirePolicy (attempt.worker = .closed) "verification requires closed worker"
  requirePolicy (attempt.accepted.isNone || attempt.validation = .finished) "attempt already accepted"
  let current := assertManagedManifestCurrent context host state.binding
  if attempt.accepted.isSome then do
    current (readOnlyInputManifest context attempt)
    (attempt.produced.toList).forM current
    (attempt.validationImmutable.toList).forM current
    return state
  else if attempt.validation ≠ .notStarted then return state
  else do
    requirePolicy attempt.verificationExecution.isNone "verification already started"
    requirePolicy (attempt.definition.validations ≠ []) "empty validation list"
    current (readOnlyInputManifest context attempt)
    attempt.predecessors.forM fun predecessor ↦ current predecessor.produced
    let produced ← capturePaths host state.binding (← producedPaths context attempt)
    assertPresence attempt produced
    let outputs ← capturePaths host state.binding (← validationOutputRoots context attempt)
    return state.setGraph (graph.setAttempt (startedAttempt context host attempt executionId produced outputs))

/-- `appendObservation(binding, input)`. -/
def appendObservation (graphId attemptId : JsString)
    (observation : ManagedVerificationObservation) : Except ManagedTaskError ManagedTaskDomain := do
  let graph ← orPolicy (state.findGraph graphId) "verification execution missing"
  let attempt ← orPolicy (graph.findAttempt attemptId) "verification execution missing"
  let execution ← orPolicy attempt.verificationExecution "verification execution missing"
  requirePolicy (attempt.validation = .running) "verification is not running"
  let expected ← orPolicy (execution.commands.drop execution.observations.length).head?
    "unexpected extra observation"
  requirePolicy (observation.name = expected.name && observation.command = expected.command)
    "observation command mismatch"
  return state.setGraph (graph.setAttempt { attempt with
    verificationExecution := some { execution with
      observations := execution.observations ++ [observation] } })

/-- A verification that ends with its receipts, the first of which is the acceptance. -/
def acceptedAttempt (attempt : ManagedTaskAttempt) (execution : ManagedVerificationExecution)
    (receipts : List ManagedVerificationReceipt) (first : ManagedVerificationReceipt)
    (outputs : ManagedManifest) : ManagedTaskAttempt :=
  { attempt with
    verificationExecution := some { execution with receipts }
    validationOutputs := some outputs
    validation := .finished
    accepted := some { id := first.id, hash := first.hash } }

/-- `acceptExecution(binding, input)`. -/
def acceptExecution (graphId attemptId : JsString)
    (receipts : List ManagedVerificationReceipt) : Except ManagedTaskError ManagedTaskDomain := do
  let graph ← orPolicy (state.findGraph graphId) "verification execution missing"
  let attempt ← orPolicy (graph.findAttempt attemptId) "verification execution missing"
  let execution ← orPolicy attempt.verificationExecution "verification execution missing"
  requirePolicy (attempt.fence = .current) "attempt is fenced"
  requirePolicy (graph.nodes.any attempt.matchesNode) "attempt definition is not current"
  requirePolicy (attempt.worker = .closed) "verification requires closed worker"
  requirePolicy (attempt.validation = .running) "verification is not running"
  let produced ← orPolicy attempt.produced "missing frozen verification manifests"
  let immutable ← orPolicy attempt.validationImmutable "missing frozen verification manifests"
  requirePolicy attempt.validationOutputs.isSome "missing frozen verification manifests"
  let current := assertManagedManifestCurrent context host state.binding
  current immutable
  current produced
  current (readOnlyInputManifest context attempt)
  attempt.predecessors.forM fun predecessor ↦ current predecessor.produced
  let roots ← validationOutputRoots context attempt
  let outputs ← capturePaths host state.binding roots
  outputs.forM fun entry ↦ requirePolicy (roots.any fun root ↦ entry.path = root ||
    within context.cwd root entry.path) "validation output escaped declared Q"
  requirePolicy (execution.observations.length = execution.commands.length)
    "missing terminal observations"
  requirePolicy (execution.observations.all fun observation ↦
    observation.pass && observation.exitStatus = 0) "validation command failed"
  requirePolicy (receipts.length = execution.commands.length) "receipt count mismatch"
  let first ← orPolicy receipts.head? "receipt count mismatch"
  return state.setGraph (graph.setAttempt (acceptedAttempt attempt execution receipts first outputs))

end

/-- `failExecution(binding, graphId, attemptId)`. -/
def failExecution (graphId attemptId : JsString) : Except ManagedTaskError ManagedTaskDomain := do
  let graph ← orPolicy (state.findGraph graphId) "attempt missing"
  let attempt ← orPolicy (graph.findAttempt attemptId) "attempt missing"
  if attempt.validation = .running then
    return state.setGraph (graph.setAttempt { attempt with
      validation := .finished, fence := if attempt.fence = .current then .failed else attempt.fence })
  else return state

/-- `markManagedVerificationUnknown(binding, graphId, attemptId)`. -/
def markManagedVerificationUnknown (graphId attemptId : JsString) :
    Except ManagedTaskError ManagedTaskDomain := do
  let graph ← orPolicy (state.findGraph graphId) "attempt missing"
  let attempt ← orPolicy (graph.findAttempt attemptId) "attempt missing"
  if attempt.validation = .running then
    return state.setGraph (graph.setAttempt { attempt with validation := .unknown })
  else return state

/-- `retireManagedAttempt(attempt)`. -/
def retireManagedAttempt : Except ManagedTaskError ManagedTaskAttempt := do
  requirePolicy (canRetireManagedAttempt attempt) "effect lifetime still held"
  return { attempt with retired := true }

end GajaeCode.Broker
