import GajaeCode.Json.Stringify
import GajaeCode.Machine.Checks
import GajaeCode.Text.Digest
import GajaeCode.Text.PosixPath

/-!
# Managed task records

The records of a managed task domain and the schema each of them has to meet. Numbers are whole
and not negative here, except for an exit status: the schema rejects every other number before
anything reads it.
-/

namespace GajaeCode.Broker

open Text Json Machine

/-! ## Scalars -/

def maxSafeInteger : ℕ := 2 ^ 53 - 1

/-- `text`: not blank. -/
def isText (value : JsString) : Bool := value.any fun unit ↦ !isTrimmed unit

def isCounter (value : ℕ) : Bool := value ≤ maxSafeInteger

def isPositiveCounter (value : ℕ) : Bool := 0 < value && value ≤ maxSafeInteger

def colon : UInt16 := 0x3A

/-- `/^\d+:\d+$/`. -/
def isFilesystemIdentity (value : JsString) : Bool :=
  match value.splitOn colon with
  | [device, inode] => device ≠ [] && device.all isDigit && inode ≠ [] && inode.all isDigit
  | _ => false

/-! ## Definitions -/

inductive AccessMode
  | read
  | write
  deriving DecidableEq

inductive NamedKind
  | database
  | integration
  deriving DecidableEq

inductive Protocol
  | tcp
  | udp
  deriving DecidableEq

/-- `*`, `0.0.0.0`, `::`, `127.0.0.1` and `::1`. -/
inductive PortAddress
  | any
  | anyV4
  | anyV6
  | loopbackV4
  | loopbackV6
  deriving DecidableEq

inductive ManagedResource
  | path (path : JsString) (mode : AccessMode) (recursive : Bool) («namespace» : Bool)
  | named (kind : NamedKind) (identity : JsString) (mode : AccessMode)
  | port (protocol : Protocol) (address : PortAddress) (port : ℕ) (mode : AccessMode)
  deriving DecidableEq

namespace ManagedResource

def mode : ManagedResource → AccessMode
  | path _ mode _ _ => mode
  | named _ _ mode => mode
  | port _ _ _ mode => mode

/-- `ManagedResourceSchema`. -/
def conforms : ManagedResource → Bool
  | path location _ _ _ => isText location
  | named _ identity _ => isText identity
  | port _ _ number _ => 1 ≤ number && number ≤ 65535

end ManagedResource

inductive ArtifactRole
  | input
  | readWrite
  | output
  | validationOutput
  deriving DecidableEq

inductive ArtifactPresence
  | required
  | optional
  | absent
  deriving DecidableEq

structure ManagedArtifact where
  path : JsString
  role : ArtifactRole
  presence : ArtifactPresence
  deriving DecidableEq

structure ManagedValidation where
  name : JsString
  command : JsString
  deriving DecidableEq

def ManagedValidation.conforms (validation : ManagedValidation) : Bool :=
  isText validation.name && isText validation.command

structure ManagedTaskDefinition where
  id : JsString
  task : JsString
  workspace : JsString
  predecessors : List JsString
  criteriaIdentity : JsString
  validations : List ManagedValidation
  resources : List ManagedResource
  artifacts : List ManagedArtifact
  deriving DecidableEq

variable (definition : ManagedTaskDefinition)

/-- `ManagedTaskDefinitionSchema`. -/
def ManagedTaskDefinition.conforms : Bool :=
  isText definition.id && isText definition.task && isText definition.workspace &&
    definition.predecessors.all isText && isHexDigest definition.criteriaIdentity &&
    (definition.validations.all ManagedValidation.conforms && definition.validations ≠ []) &&
    definition.resources.all ManagedResource.conforms &&
    definition.artifacts.all fun artifact ↦ isText artifact.path

structure ManagedDefinitionRecord where
  revision : ℕ
  hash : JsString
  definition : ManagedTaskDefinition
  deriving DecidableEq

def ManagedDefinitionRecord.conforms (node : ManagedDefinitionRecord) : Bool :=
  isPositiveCounter node.revision && isHexDigest node.hash && node.definition.conforms

/-! ## Manifests and resources of an attempt -/

inductive ManifestKind
  | absent
  | file
  | directory
  deriving DecidableEq

structure ManagedManifestEntry where
  path : JsString
  object : Option JsString
  kind : ManifestKind
  hash : Option JsString
  mode : Option ℕ
  deriving DecidableEq

def ManagedManifestEntry.conforms (entry : ManagedManifestEntry) : Bool :=
  isText entry.path && entry.object.all isFilesystemIdentity && entry.hash.all isHexDigest &&
    entry.mode.all (· ≤ 0o777)

abbrev ManagedManifest := List ManagedManifestEntry

structure ManagedPredecessor where
  nodeId : JsString
  taskRevision : ℕ
  attemptId : JsString
  verificationId : JsString
  verificationHash : JsString
  produced : ManagedManifest
  deriving DecidableEq

def ManagedPredecessor.conforms (predecessor : ManagedPredecessor) : Bool :=
  isText predecessor.nodeId && isPositiveCounter predecessor.taskRevision &&
    isText predecessor.attemptId && isText predecessor.verificationId &&
    isHexDigest predecessor.verificationHash &&
    predecessor.produced.all ManagedManifestEntry.conforms

structure ManagedCanonicalResource where
  declaration : ManagedResource
  path : Option JsString
  object : Option JsString
  ancestor : Option JsString
  suffix : Option JsString
  deriving DecidableEq

/-- `ManagedCanonicalResourceSchema`. -/
def ManagedCanonicalResource.conforms (resource : ManagedCanonicalResource) : Bool :=
  resource.declaration.conforms && resource.path.all isText &&
    resource.object.all isFilesystemIdentity && resource.ancestor.all isFilesystemIdentity

structure ManagedNativeIdentity where
  key : JsString
  identity : JsString
  requestHash : JsString
  deriving DecidableEq

def ManagedNativeIdentity.conforms (native : ManagedNativeIdentity) : Bool :=
  isText native.key && isHexDigest native.identity && isHexDigest native.requestHash

/-! ## Verification -/

structure ManagedVerificationObservation where
  name : JsString
  command : JsString
  cwd : JsString
  exitStatus : ℤ
  pass : Bool
  deriving DecidableEq

def ManagedVerificationObservation.conforms (observation : ManagedVerificationObservation) : Bool :=
  isText observation.name && isText observation.command && isText observation.cwd &&
    observation.exitStatus.natAbs ≤ maxSafeInteger

structure ManagedVerificationReceipt where
  id : JsString
  hash : JsString
  envelope : JsValue
  deriving DecidableEq

def isRecord : JsValue → Bool
  | .obj _ => true
  | _ => false

def ManagedVerificationReceipt.conforms (receipt : ManagedVerificationReceipt) : Bool :=
  isText receipt.id && isHexDigest receipt.hash && isRecord receipt.envelope

structure ManagedVerificationExecution where
  executionId : JsString
  workspace : JsString
  commands : List ManagedValidation
  observations : List ManagedVerificationObservation
  receipts : List ManagedVerificationReceipt
  deriving DecidableEq

def ManagedVerificationExecution.conforms (execution : ManagedVerificationExecution) : Bool :=
  isText execution.executionId && isText execution.workspace &&
    (execution.commands.all ManagedValidation.conforms && execution.commands ≠ []) &&
    execution.observations.all ManagedVerificationObservation.conforms &&
    execution.receipts.all ManagedVerificationReceipt.conforms

/-! ## Attempts, graphs and the domain -/

inductive WorkerState
  | reserved
  | noEffect
  | authorized
  | unknown
  | closed
  deriving DecidableEq

inductive ValidationState
  | notStarted
  | running
  | unknown
  | finished
  deriving DecidableEq

inductive Fence
  | current
  | canceled
  | superseded
  | failed
  deriving DecidableEq

structure ManagedAcceptance where
  id : JsString
  hash : JsString
  deriving DecidableEq

structure ManagedTaskAttempt where
  id : JsString
  nodeId : JsString
  taskRevision : ℕ
  graphRevision : ℕ
  definitionHash : JsString
  definition : ManagedTaskDefinition
  native : ManagedNativeIdentity
  inputs : ManagedManifest
  predecessors : List ManagedPredecessor
  resources : List ManagedCanonicalResource
  produced : Option ManagedManifest
  validationImmutable : Option ManagedManifest
  validationOutputs : Option ManagedManifest
  worker : WorkerState
  validation : ValidationState
  fence : Fence
  retired : Bool
  accepted : Option ManagedAcceptance
  verificationExecution : Option ManagedVerificationExecution
  deriving DecidableEq

/-- `ManagedTaskAttemptSchema`. -/
def ManagedTaskAttempt.conforms (attempt : ManagedTaskAttempt) : Bool :=
  isText attempt.id && isText attempt.nodeId && isPositiveCounter attempt.taskRevision &&
    isPositiveCounter attempt.graphRevision && isHexDigest attempt.definitionHash &&
    attempt.definition.conforms && attempt.native.conforms &&
    attempt.inputs.all ManagedManifestEntry.conforms &&
    attempt.predecessors.all ManagedPredecessor.conforms &&
    attempt.resources.all ManagedCanonicalResource.conforms &&
    (attempt.produced.getD []).all ManagedManifestEntry.conforms &&
    (attempt.validationImmutable.getD []).all ManagedManifestEntry.conforms &&
    (attempt.validationOutputs.getD []).all ManagedManifestEntry.conforms &&
    attempt.accepted.all (fun accepted ↦ isText accepted.id && isHexDigest accepted.hash) &&
    attempt.verificationExecution.all ManagedVerificationExecution.conforms

structure ManagedTaskGraph where
  id : JsString
  owner : JsString
  revision : ℕ
  nodes : List ManagedDefinitionRecord
  attempts : List ManagedTaskAttempt
  canceled : List JsString
  deriving DecidableEq

/-- `ManagedTaskGraphSchema`. -/
def ManagedTaskGraph.conforms (graph : ManagedTaskGraph) : Bool :=
  isText graph.id && isText graph.owner && isPositiveCounter graph.revision &&
    (graph.nodes.all ManagedDefinitionRecord.conforms && graph.nodes ≠ []) &&
    graph.attempts.all ManagedTaskAttempt.conforms && graph.canceled.all isText

structure ManagedWorktree where
  path : JsString
  identity : JsString
  deriving DecidableEq

structure ManagedAlias where
  path : JsString
  target : JsString
  deriving DecidableEq

structure ManagedDomainBinding where
  controlRoot : JsString
  rootIdentity : JsString
  agentDir : JsString
  agentDirIdentity : JsString
  enrollmentId : JsString
  worktrees : List ManagedWorktree
  aliases : List ManagedAlias
  deriving DecidableEq

/-- `ManagedDomainBindingSchema`. -/
def ManagedDomainBinding.conforms (binding : ManagedDomainBinding) : Bool :=
  isText binding.controlRoot && isFilesystemIdentity binding.rootIdentity &&
    isText binding.agentDir && isFilesystemIdentity binding.agentDirIdentity &&
    isText binding.enrollmentId &&
    (binding.worktrees.all (fun worktree ↦
      isText worktree.path && isFilesystemIdentity worktree.identity) && binding.worktrees ≠ []) &&
    binding.aliases.all fun item ↦ isText item.path && isText item.target

/-- A domain of version 1. -/
structure ManagedTaskDomain where
  stateRevision : ℕ
  binding : ManagedDomainBinding
  graphs : List ManagedTaskGraph
  deriving DecidableEq

/-- `ManagedTaskDomainSchema`. -/
def ManagedTaskDomain.conforms (domain : ManagedTaskDomain) : Bool :=
  isCounter domain.stateRevision && domain.binding.conforms &&
    domain.graphs.all ManagedTaskGraph.conforms

/-! ## Failures -/

/-- A failed parse, a policy that does not hold, or the end of the recursion bound of the cycle
check, which is never reached. -/
inductive ManagedTaskError
  | schema
  | policy (reason : String)
  | bound
  deriving DecidableEq

/-- `managed-task: ` and the reason. -/
def ManagedTaskError.message : ManagedTaskError → Option String
  | policy reason => some ("managed-task: " ++ reason)
  | _ => none

def requireSchema (conforms : Bool) : Except ManagedTaskError Unit := require conforms .schema

def requirePolicy (condition : Bool) (reason : String) : Except ManagedTaskError Unit :=
  require condition (.policy reason)

def requireDistinct (values : List JsString) (reason : String) : Except ManagedTaskError Unit :=
  requirePolicy (decide values.Nodup) reason

@[simp] theorem requireSchema_eq_ok_iff {conforms : Bool} {result : Unit} :
    requireSchema conforms = .ok result ↔ conforms :=
  require_eq_ok_iff

@[simp] theorem requirePolicy_eq_ok_iff {condition : Bool} {reason : String} {result : Unit} :
    requirePolicy condition reason = .ok result ↔ condition :=
  require_eq_ok_iff

@[simp] theorem requireDistinct_eq_ok_iff {values : List JsString} {reason : String} {result : Unit} :
    requireDistinct values reason = .ok result ↔ values.Nodup := by
  rw [requireDistinct, requirePolicy_eq_ok_iff, decide_eq_true_eq]

/-! ## Identities -/

/-- What the policies take from elsewhere: SHA-256 as hexadecimal digits, the check of stored
receipts with the id and hash of an accepted one, and the working directory. -/
structure ManagedContext where
  sha256 : Bytes → JsString
  isHexDigest_sha256 : ∀ bytes, isHexDigest (sha256 bytes) = true
  parseStoredReceiptEnvelope : JsValue → Option (JsString × JsString)
  cwd : JsString

/-- `managedIdentity(value)` of a value whose keys are in order. -/
def ManagedContext.managedIdentity (context : ManagedContext) (value : JsValue) : JsString :=
  context.sha256 (encodeUtf8 (valueText value))

/-- `values.sort()`, by code units. -/
def sortStrings (values : List JsString) : List JsString := values.insertionSort fun left right ↦ ¬ right < left

def AccessMode.value : AccessMode → JsValue
  | read => .str (utf16 "read")
  | write => .str (utf16 "write")

def Protocol.text : Protocol → JsString
  | tcp => utf16 "tcp"
  | udp => utf16 "udp"

def PortAddress.text : PortAddress → JsString
  | any => utf16 "*"
  | anyV4 => utf16 "0.0.0.0"
  | anyV6 => utf16 "::"
  | loopbackV4 => utf16 "127.0.0.1"
  | loopbackV6 => utf16 "::1"

def NamedKind.text : NamedKind → JsString
  | database => utf16 "database"
  | integration => utf16 "integration"

def ManagedResource.value : ManagedResource → JsValue
  | path location mode recursive inNamespace => .obj
      [(utf16 "kind", .str (utf16 "path")), (utf16 "mode", mode.value),
        (utf16 "namespace", .bool inNamespace), (utf16 "path", .str location),
        (utf16 "recursive", .bool recursive)]
  | named kind identity mode => .obj
      [(utf16 "identity", .str identity), (utf16 "kind", .str kind.text), (utf16 "mode", mode.value)]
  | port protocol address number mode => .obj
      [(utf16 "address", .str address.text), (utf16 "kind", .str (utf16 "port")),
        (utf16 "mode", mode.value), (utf16 "port", .num (.ofNat number)),
        (utf16 "protocol", .str protocol.text)]

def ArtifactRole.text : ArtifactRole → JsString
  | input => utf16 "input"
  | readWrite => utf16 "read-write"
  | output => utf16 "output"
  | validationOutput => utf16 "validation-output"

def ArtifactPresence.text : ArtifactPresence → JsString
  | required => utf16 "required"
  | optional => utf16 "optional"
  | absent => utf16 "absent"

def ManagedArtifact.value (artifact : ManagedArtifact) : JsValue :=
  .obj [(utf16 "path", .str artifact.path), (utf16 "presence", .str artifact.presence.text),
    (utf16 "role", .str artifact.role.text)]

def ManagedValidation.value (validation : ManagedValidation) : JsValue :=
  .obj [(utf16 "command", .str validation.command), (utf16 "name", .str validation.name)]

def ManagedTaskDefinition.value : JsValue :=
  .obj [(utf16 "artifacts", .arr (definition.artifacts.map ManagedArtifact.value)),
    (utf16 "criteriaIdentity", .str definition.criteriaIdentity), (utf16 "id", .str definition.id),
    (utf16 "predecessors", .arr (definition.predecessors.map .str)),
    (utf16 "resources", .arr (definition.resources.map ManagedResource.value)),
    (utf16 "task", .str definition.task),
    (utf16 "validations", .arr (definition.validations.map ManagedValidation.value)),
    (utf16 "workspace", .str definition.workspace)]

/-- `definitionVector(definition)`: everything but the id, with the predecessors in order. -/
def ManagedTaskDefinition.vector : JsValue :=
  .obj [(utf16 "artifacts", .arr (definition.artifacts.map ManagedArtifact.value)),
    (utf16 "criteriaIdentity", .str definition.criteriaIdentity),
    (utf16 "predecessors", .arr ((sortStrings definition.predecessors).map .str)),
    (utf16 "resources", .arr (definition.resources.map ManagedResource.value)),
    (utf16 "task", .str definition.task),
    (utf16 "validations", .arr (definition.validations.map ManagedValidation.value)),
    (utf16 "workspace", .str definition.workspace)]

end GajaeCode.Broker
