import GajaeCode.Broker.ManagedResource

/-!
# Validation of a managed task domain

`validateManagedTaskDomain` reads a domain graph by graph and attempt by attempt, and compares
every attempt with the ones before it, also those of other graphs. A domain passes exactly when
its graphs and attempts are valid on their own and the attempts are pairwise compatible. In such a
domain no path is covered for writing by one attempt that holds its reservations and covered at
all by another one.
-/

namespace GajaeCode.Broker

open Text Json Machine List

variable {attempt : ManagedTaskAttempt} {done : List ManagedTaskAttempt} {graph : ManagedTaskGraph}

/-! ## Definitions -/

/-- `visit(id)`: the ids on the way down, and the ids done so far. -/
def visit (nodes : List ManagedTaskDefinition) :
    ℕ → List JsString → List JsString → JsString → Except ManagedTaskError (List JsString)
  | 0, _, _, _ => throw .bound
  | fuel + 1, visiting, visited, id => do
      requirePolicy (id ∉ visiting) "dependency cycle"
      if id ∈ visited then return visited
      match nodes.find? fun node ↦ node.id = id with
      | none => throw .bound
      | some node =>
          requireDistinct node.predecessors "duplicate predecessor"
          let visited ← node.predecessors.foldlM (fun visited predecessor ↦ do
            requirePolicy (predecessor ∈ nodes.map ManagedTaskDefinition.id) "missing predecessor"
            visit nodes fuel (id :: visiting) visited predecessor) visited
          return id :: visited

/-- `parseManagedTaskDefinitions(value)`; the definitions are returned as they are. -/
def parseManagedTaskDefinitions (nodes : List ManagedTaskDefinition) :
    Except ManagedTaskError (List ManagedTaskDefinition) := do
  requireSchema (nodes.all ManagedTaskDefinition.conforms && nodes ≠ [])
  requireDistinct (nodes.map ManagedTaskDefinition.id) "duplicate node"
  nodes.forM fun node ↦
    requireDistinct (node.validations.map ManagedValidation.name) "duplicate validation"
  let _ ← nodes.foldlM (fun visited node ↦ visit nodes (nodes.length + 1) [] visited node.id) []
  return nodes

/-! ## Attempts -/

/-- `validateManifest(manifest)`. -/
def validateManifest (manifest : ManagedManifest) : Except ManagedTaskError Unit := do
  requireSchema (manifest.all ManagedManifestEntry.conforms)
  requireDistinct (manifest.map ManagedManifestEntry.path) "duplicate manifest entry"
  manifest.forM fun entry ↦ do
    requirePolicy (isCanonicalAbsolute entry.path) "manifest path is not canonical"
    if entry.kind = .absent then
      requirePolicy (entry.object.isNone && entry.hash.isNone && entry.mode.isNone)
        "invalid absent manifest entry"
    else
      requirePolicy (entry.object.isSome && entry.hash.isSome && entry.mode.isSome)
        "incomplete manifest entry"

/-- The value has a length, as `if (value)` asks of a string. -/
def isTruthy (value : Option JsString) : Bool := value.any fun text ↦ text ≠ []

/-- The fields of one reservation of an attempt. -/
def validateCanonicalResource (resource : ManagedCanonicalResource) : Except ManagedTaskError Unit :=
  match resource.declaration with
  | .path _ mode _ inNamespace => do
      requirePolicy (isTruthy resource.path && resource.path.all isCanonicalAbsolute &&
        isTruthy resource.ancestor && resource.suffix.isSome) "invalid canonical path identity"
      requirePolicy (!inNamespace || mode = .write) "namespace requires write resource"
  | _ => requirePolicy (resource.path.isNone && resource.object.isNone && resource.ancestor.isNone &&
      resource.suffix.isNone) "invalid named identity fields"

/-- `values.join("\0")`. -/
def joinNul (values : List JsString) : JsString := [(0 : UInt16)].intercalate values

section

variable (context : ManagedContext)

/-- `trustedStoredAcceptance(attempt)`. -/
def trustedStoredAcceptance (attempt : ManagedTaskAttempt) : Bool :=
  match attempt.accepted, attempt.verificationExecution with
  | some accepted, some execution =>
      attempt.validation = .finished &&
        match execution.receipts.find? fun receipt ↦
            receipt.id = accepted.id && receipt.hash = accepted.hash with
        | some stored =>
            context.parseStoredReceiptEnvelope stored.envelope = some (stored.id, stored.hash)
        | none => false
  | _, _ => false

/-- The checks of an attempt that do not depend on its graph or its progress. -/
def validateAttemptRecord (attempt : ManagedTaskAttempt) : Except ManagedTaskError Unit := do
  requirePolicy (attempt.definitionHash = context.managedIdentity attempt.definition.value &&
    attempt.nodeId = attempt.definition.id) "attempt definition mismatch"
  requirePolicy (attempt.accepted.isNone || trustedStoredAcceptance context attempt)
    "untrusted acceptance authority"
  requirePolicy (attempt.resources.map (fun resource ↦
      context.managedIdentity resource.declaration.value) =
    attempt.definition.resources.map fun resource ↦ context.managedIdentity resource.value)
    "reservation vector mismatch"
  let keys ← attempt.resources.mapM (canonicalResourceKey context)
  requireDistinct keys "duplicate attempt resource"
  attempt.resources.forM validateCanonicalResource
  validateManifest attempt.inputs
  requireDistinct (attempt.predecessors.map ManagedPredecessor.nodeId) "duplicate predecessor vector"
  requirePolicy (joinNul (sortStrings (attempt.predecessors.map ManagedPredecessor.nodeId)) =
    joinNul (sortStrings attempt.definition.predecessors)) "predecessor vector mismatch"
  attempt.predecessors.forM fun predecessor ↦ validateManifest predecessor.produced
  validateManifest (attempt.produced.getD [])
  validateManifest (attempt.validationImmutable.getD [])
  validateManifest (attempt.validationOutputs.getD [])

end

variable (attempt : ManagedTaskAttempt)

/-- The node an attempt was made for, at its revision and with its definition. -/
def ManagedTaskAttempt.matchesNode (node : ManagedDefinitionRecord) : Bool :=
  node.definition.id = attempt.nodeId && node.revision = attempt.taskRevision &&
    node.hash = attempt.definitionHash

theorem matchesNode_iff {attempt : ManagedTaskAttempt} {node : ManagedDefinitionRecord} :
    attempt.matchesNode node ↔ node.definition.id = attempt.nodeId ∧
      node.revision = attempt.taskRevision ∧ node.hash = attempt.definitionHash := by
  simp [ManagedTaskAttempt.matchesNode, and_assoc]

/-- A current attempt has its definition in the graph. -/
def validateCurrent (graph : ManagedTaskGraph) (attempt : ManagedTaskAttempt) :
    Except ManagedTaskError Unit :=
  requirePolicy (attempt.fence ≠ .current || graph.nodes.any attempt.matchesNode)
    "current attempt definition missing"

/-- The checks of the states an attempt has gone through. -/
def validateProgress : Except ManagedTaskError Unit := do
  requirePolicy (attempt.validation = .notStarted || attempt.worker = .closed)
    "validation requires closed worker"
  requirePolicy (attempt.validation ≠ .notStarted || attempt.verificationExecution.isNone)
    "verification execution without start"
  requirePolicy (attempt.validation = .notStarted || attempt.verificationExecution.isSome)
    "missing verification execution"
  let observations := (attempt.verificationExecution.map fun execution ↦
    execution.observations.length).getD 0
  let commands := (attempt.verificationExecution.map fun execution ↦
    execution.commands.length).getD 0
  requirePolicy (attempt.validation ≠ .finished ||
    if attempt.fence = .failed then 0 < observations && observations ≤ commands
    else observations = commands) "unfinished verification observations"

/-- `canRetireManagedAttempt(attempt)`. -/
def canRetireManagedAttempt : Bool :=
  (attempt.worker = .noEffect || attempt.worker = .closed) &&
    (attempt.validation = .notStarted || attempt.validation = .finished) &&
    (attempt.fence ≠ .current || attempt.accepted.isSome)

def validateRetirement : Except ManagedTaskError Unit :=
  requirePolicy (!attempt.retired || canRetireManagedAttempt attempt) "unproven retirement"

/-! ## The domain -/

/-- What the loop remembers of the attempts so far. -/
structure SeenAttempts where
  nativeKeys : List JsString
  nativeIds : List JsString
  held : List ManagedTaskAttempt

section

variable (context : ManagedContext)

/-- Some reservation of the attempt conflicts with one of the other. -/
def reservationsConflict (attempt previous : ManagedTaskAttempt) : Except ManagedTaskError Bool :=
  attempt.resources.anyM fun resource ↦
    previous.resources.anyM fun other ↦ managedResourcesConflict context resource other

/-- One attempt, compared with the ones before it. -/
def validateAttempt (graph : ManagedTaskGraph) (seen : SeenAttempts)
    (attempt : ManagedTaskAttempt) : Except ManagedTaskError SeenAttempts := do
  validateAttemptRecord context attempt
  validateCurrent graph attempt
  validateProgress attempt
  requirePolicy (attempt.native.key ∉ seen.nativeKeys && attempt.native.identity ∉ seen.nativeIds)
    "native identity reused"
  validateRetirement attempt
  (if attempt.retired then [] else seen.held).forM fun previous ↦ do
    let conflict ← reservationsConflict context attempt previous
    requirePolicy (!conflict) "conflicting reservations"
  return {
    nativeKeys := seen.nativeKeys ++ [attempt.native.key]
    nativeIds := seen.nativeIds ++ [attempt.native.identity]
    held := if attempt.retired then seen.held else seen.held ++ [attempt] }

/-- The checks of a graph in front of its attempts. -/
def validateNodes (graph : ManagedTaskGraph) : Except ManagedTaskError Unit := do
  let _ ← parseManagedTaskDefinitions (graph.nodes.map ManagedDefinitionRecord.definition)
  requireDistinct graph.canceled "duplicate canceled node"
  requirePolicy (graph.canceled.all fun id ↦ graph.nodes.any fun node ↦ node.definition.id = id)
    "unknown canceled node"
  requireDistinct (graph.attempts.map ManagedTaskAttempt.id) "duplicate attempt"
  graph.nodes.forM fun node ↦
    requirePolicy (node.hash = context.managedIdentity node.definition.value) "definition hash mismatch"

def validateGraph (seen : SeenAttempts) (graph : ManagedTaskGraph) :
    Except ManagedTaskError SeenAttempts := do
  validateNodes context graph
  graph.attempts.foldlM (validateAttempt context graph) seen

/-- The checks of the binding that do not look at the file system. -/
def validateBindingPaths (binding : ManagedDomainBinding) : Except ManagedTaskError Unit := do
  requirePolicy (isCanonicalAbsolute binding.controlRoot) "control root is not canonical"
  requirePolicy (isCanonicalAbsolute binding.agentDir) "agent directory is not canonical"
  requireDistinct (binding.worktrees.map ManagedWorktree.path) "duplicate worktree"
  requireDistinct (binding.aliases.map ManagedAlias.path) "duplicate alias"

/-- `validateManagedTaskDomain(value)`. -/
def validateManagedTaskDomain (state : ManagedTaskDomain) :
    Except ManagedTaskError ManagedTaskDomain := do
  requireSchema state.conforms
  validateBindingPaths state.binding
  requireDistinct (state.graphs.map ManagedTaskGraph.id) "duplicate graph"
  let _ ← state.graphs.foldlM (validateGraph context) { nativeKeys := [], nativeIds := [], held := [] }
  return state

end

/-! ## What a valid domain is -/

section

variable {context : ManagedContext}

/-- An attempt that is valid on its own in its graph. -/
structure ValidAttempt (context : ManagedContext) (graph : ManagedTaskGraph)
    (attempt : ManagedTaskAttempt) : Prop where
  record : validateAttemptRecord context attempt = .ok ()
  current : attempt.fence = .current → ∃ node ∈ graph.nodes, attempt.matchesNode node = true
  progress : validateProgress attempt = .ok ()
  retirement : attempt.retired = true → canRetireManagedAttempt attempt = true

/-- Two attempts of one domain, in their order. -/
structure CompatibleAttempts (context : ManagedContext) (earlier later : ManagedTaskAttempt) :
    Prop where
  key : later.native.key ≠ earlier.native.key
  identity : later.native.identity ≠ earlier.native.identity
  reservations : later.retired = false → earlier.retired = false →
    reservationsConflict context later earlier = .ok false

/-- What the loop remembers is determined by the attempts it has passed. -/
def SeenAttempts.of (done : List ManagedTaskAttempt) : SeenAttempts where
  nativeKeys := done.map fun attempt ↦ attempt.native.key
  nativeIds := done.map fun attempt ↦ attempt.native.identity
  held := done.filter fun attempt ↦ !attempt.retired

theorem SeenAttempts.of_concat (done : List ManagedTaskAttempt) (attempt : ManagedTaskAttempt) :
    SeenAttempts.of (done ++ [attempt]) =
      { nativeKeys := (SeenAttempts.of done).nativeKeys ++ [attempt.native.key]
        nativeIds := (SeenAttempts.of done).nativeIds ++ [attempt.native.identity]
        held := if attempt.retired then (SeenAttempts.of done).held
          else (SeenAttempts.of done).held ++ [attempt] } := by
  cases h : attempt.retired <;> simp [SeenAttempts.of, h]

theorem validateCurrent_eq_ok_iff : validateCurrent graph attempt = .ok () ↔
      (attempt.fence = .current → ∃ node ∈ graph.nodes, attempt.matchesNode node) := by
  rw [validateCurrent, requirePolicy_eq_ok_iff, Bool.or_eq_true, decide_eq_true_eq, any_eq_true,
    ← imp_iff_not_or]

theorem validateRetirement_eq_ok_iff : validateRetirement attempt = .ok () ↔
      (attempt.retired → canRetireManagedAttempt attempt) := by
  rw [validateRetirement, requirePolicy_eq_ok_iff]
  cases attempt.retired <;> simp

theorem heldReservations_eq_ok_iff :
    (if attempt.retired then [] else (SeenAttempts.of done).held).forM (fun prev ↦ do
        let conflict ← reservationsConflict context attempt prev
        requirePolicy (!conflict) "conflicting reservations") = .ok () ↔
      ∀ earlier ∈ done, attempt.retired = false → earlier.retired = false →
        reservationsConflict context attempt earlier = .ok false := by
  have hprev (prev) : (do
        let conflict ← reservationsConflict context attempt prev
        requirePolicy (!conflict) "conflicting reservations") = .ok () ↔
      reservationsConflict context attempt prev = .ok false := by
    rw [bind_eq_ok_iff]
    simp
  rw [forM_eq_ok_iff]
  simp only [hprev]
  cases attempt.retired with
  | true => simp
  | false => simp [SeenAttempts.of]

theorem validateAttempt_eq_ok_iff {result : SeenAttempts} :
    validateAttempt context graph (.of done) attempt = .ok result ↔
      (ValidAttempt context graph attempt ∧
        ∀ earlier ∈ done, CompatibleAttempts context earlier attempt) ∧
      result = .of (done ++ [attempt]) := by
  have hnative : (attempt.native.key ∉ (SeenAttempts.of done).nativeKeys &&
      attempt.native.identity ∉ (SeenAttempts.of done).nativeIds) ↔
      (∀ earlier ∈ done, attempt.native.key ≠ earlier.native.key) ∧
        ∀ earlier ∈ done, attempt.native.identity ≠ earlier.native.identity := by
    simp only [SeenAttempts.of, Bool.and_eq_true, decide_eq_true_eq, mem_map, not_exists, not_and,
      ne_eq, @eq_comm _ attempt.native.key, @eq_comm _ attempt.native.identity]
  unfold validateAttempt
  rw [check_bind_eq_ok_iff, check_bind_eq_ok_iff, check_bind_eq_ok_iff, check_bind_eq_ok_iff,
    check_bind_eq_ok_iff, check_bind_eq_ok_iff, validateCurrent_eq_ok_iff,
    validateRetirement_eq_ok_iff, heldReservations_eq_ok_iff, requirePolicy_eq_ok_iff, hnative,
    SeenAttempts.of_concat]
  constructor
  · rintro ⟨hrecord, hcur, hprog, ⟨hkeys, hids⟩, hretired, hheld, hres⟩
    exact ⟨⟨⟨hrecord, hcur, hprog, hretired⟩, fun earlier hearlier ↦
      ⟨hkeys earlier hearlier, hids earlier hearlier, hheld earlier hearlier⟩⟩,
      (Except.ok.inj hres).symm⟩
  · rintro ⟨⟨hvalid, hcompatible⟩, rfl⟩
    exact ⟨hvalid.record, hvalid.current, hvalid.progress,
      ⟨fun earlier hearlier ↦ (hcompatible earlier hearlier).key,
        fun earlier hearlier ↦ (hcompatible earlier hearlier).identity⟩,
      hvalid.retirement, fun earlier hearlier ↦ (hcompatible earlier hearlier).reservations, rfl⟩

theorem validateGraph_eq_ok_iff {result : SeenAttempts} :
    validateGraph context (.of done) graph = .ok result ↔ ((validateNodes context graph = .ok () ∧
        ∀ attempt ∈ graph.attempts, ValidAttempt context graph attempt) ∧
        (∀ attempt ∈ graph.attempts, ∀ earlier ∈ done, CompatibleAttempts context earlier attempt) ∧
        graph.attempts.Pairwise (CompatibleAttempts context)) ∧
      result = .of (done ++ graph.attempts) := by
  have hloop : graph.attempts.foldlM (validateAttempt context graph) (SeenAttempts.of done) =
        .ok result ↔
      (∀ attempt ∈ graph.attempts, ValidAttempt context graph attempt) ∧
      (∀ attempt ∈ graph.attempts.flatMap fun attempt ↦ [attempt], ∀ earlier ∈ done,
        CompatibleAttempts context earlier attempt) ∧
      (graph.attempts.flatMap fun attempt ↦ [attempt]).Pairwise (CompatibleAttempts context) ∧
      result = .of (done ++ graph.attempts.flatMap fun attempt ↦ [attempt]) := by
    apply foldlM_eq_ok_iff
    intro done attempt result
    rw [validateAttempt_eq_ok_iff]
    simp
  rw [flatMap_singleton'] at hloop
  rw [validateGraph, check_bind_eq_ok_iff, hloop]
  tauto

/-- A domain is accepted exactly when its parts are valid and its attempts pairwise compatible. -/
theorem validateManagedTaskDomain_eq_ok_iff {state result : ManagedTaskDomain} :
    validateManagedTaskDomain context state = .ok result ↔
      (state.conforms ∧ validateBindingPaths state.binding = .ok () ∧
        (state.graphs.map ManagedTaskGraph.id).Nodup ∧
        (∀ graph ∈ state.graphs, validateNodes context graph = .ok () ∧
          ∀ attempt ∈ graph.attempts, ValidAttempt context graph attempt) ∧
        (state.graphs.flatMap ManagedTaskGraph.attempts).Pairwise (CompatibleAttempts context)) ∧
      result = state := by
  have hloop : (∃ seen, state.graphs.foldlM (validateGraph context) (SeenAttempts.of []) = .ok seen) ↔
      (∀ graph ∈ state.graphs, validateNodes context graph = .ok () ∧
        ∀ attempt ∈ graph.attempts, ValidAttempt context graph attempt) ∧
      (state.graphs.flatMap ManagedTaskGraph.attempts).Pairwise (CompatibleAttempts context) := by
    simp only [foldlM_eq_ok_iff fun _ _ _ ↦ validateGraph_eq_ok_iff]
    simp
  rw [validateManagedTaskDomain, check_bind_eq_ok_iff, check_bind_eq_ok_iff, check_bind_eq_ok_iff,
    bind_eq_ok_iff, requireSchema_eq_ok_iff, requireDistinct_eq_ok_iff]
  simp only [pure, Except.pure, Except.ok.injEq, exists_and_right, @eq_comm _ state]
  tauto

/-! ## Isolation of writers -/

/-- Some reservation of the attempt covers the path. -/
def ManagedTaskAttempt.covers (context : ManagedContext) (attempt : ManagedTaskAttempt)
    (path : JsString) (needed : AccessMode) : Bool :=
  attempt.resources.any fun resource ↦ resourceCoversPath context resource path needed

theorem not_covers_of_compatible {earlier later : ManagedTaskAttempt}
    (h : CompatibleAttempts context earlier later) (hlater : later.retired = false)
    (hearlier : earlier.retired = false) {path : JsString} {laterNeeded earlierNeeded : AccessMode}
    (hwrite : laterNeeded = .write ∨ earlierNeeded = .write) :
    ¬ (later.covers context path laterNeeded ∧ earlier.covers context path earlierNeeded) := by
  rintro ⟨hleft, hright⟩
  obtain ⟨resource, hresource, hleft⟩ := any_eq_true.mp hleft
  obtain ⟨other, hother, hright⟩ := any_eq_true.mp hright
  have hfree := eq_ok_false_of_anyM (h.reservations hlater hearlier) resource hresource
  have hconflict := eq_ok_false_of_anyM hfree other hother
  exact Bool.false_ne_true ((conflict_eq_ok_iff hleft hright hwrite).mp hconflict).1

end

/-- In an accepted domain, no path is covered for writing by one attempt that is not retired and
covered for reading or writing by another one. Reservations with known ancestors that cover one
path, one of them for writing, conflict. -/
theorem reservations_isolate_writers (context : ManagedContext) :
    (∀ state, validateManagedTaskDomain context state = .ok state →
      (state.graphs.flatMap ManagedTaskGraph.attempts).Pairwise fun left right ↦
        left.retired = false → right.retired = false → ∀ path needed,
          ¬ (left.covers context path .write = true ∧ right.covers context path needed = true) ∧
          ¬ (right.covers context path .write = true ∧ left.covers context path needed = true)) ∧
    ∀ left right : ManagedCanonicalResource, left.conforms = true → right.conforms = true →
      left.ancestor.isSome = true → right.ancestor.isSome = true → ∀ path leftNeeded rightNeeded,
        resourceCoversPath context left path leftNeeded = true →
        resourceCoversPath context right path rightNeeded = true →
        leftNeeded = .write ∨ rightNeeded = .write →
          managedResourcesConflict context left right = .ok true := by
  constructor
  · intro state hstate
    obtain ⟨⟨-, -, -, -, hpairs⟩, -⟩ := validateManagedTaskDomain_eq_ok_iff.mp hstate
    refine hpairs.imp fun {left right} hcompatible hleft hright path needed ↦ ⟨?_, ?_⟩
    · exact fun ⟨hwrite, hother⟩ ↦
        not_covers_of_compatible hcompatible hright hleft (Or.inr rfl) ⟨hother, hwrite⟩
    · exact not_covers_of_compatible hcompatible hright hleft (Or.inl rfl)
  · intro left right hleft hright hleftAncestor hrightAncestor path leftNeeded rightNeeded
      hleftCovers hrightCovers hwrite
    exact (conflict_eq_ok_iff hleftCovers hrightCovers hwrite).mpr
      ⟨rfl, hleft, hright, hleftAncestor, hrightAncestor⟩

/-! ## A small domain -/

/-- A stand-in for SHA-256: a checksum of the bytes, as 64 hexadecimal digits. -/
def checksumDigest (bytes : Bytes) : JsString :=
  let checksum := bytes.foldl (fun sum byte ↦ (sum * 257 + byte.toNat + 1) % 16 ^ 64) 0
  (List.range 64).map fun place ↦ hexUnit (checksum / 16 ^ place % 16)

theorem isHexDigest_checksumDigest (bytes : Bytes) : isHexDigest (checksumDigest bytes) := by
  have hdigit : ∀ digit < 16, (isDigit (hexUnit digit) ||
      (0x61 ≤ (hexUnit digit).toNat && (hexUnit digit).toNat ≤ 0x66)) := by decide
  simp only [isHexDigest, checksumDigest, length_map, length_range, beq_self_eq_true,
    Bool.true_and, all_eq_true, mem_map]
  rintro unit ⟨place, -, rfl⟩
  exact hdigit _ (Nat.mod_lt _ (by norm_num))

def checksumContext : ManagedContext where
  sha256 := checksumDigest
  isHexDigest_sha256 := isHexDigest_checksumDigest
  parseStoredReceiptEnvelope := fun envelope ↦
    match envelope.get (utf16 "receiptId"), envelope.get (utf16 "sha256") with
    | .str receiptId, .str sha256 => some (receiptId, sha256)
    | _, _ => none
  cwd := utf16 "/"

/-- A task that writes below a directory named after it. -/
def sampleDefinition (id : String) (predecessors : List String) : ManagedTaskDefinition where
  id := utf16 id
  task := utf16 "task"
  workspace := utf16 "/w"
  predecessors := predecessors.map utf16
  criteriaIdentity := List.replicate 64 0x30
  validations := [{ name := utf16 "check", command := utf16 "true" }]
  resources := [.path (utf16 ("/w/" ++ id)) .write true false]
  artifacts := []

def sampleNode (id : String) (predecessors : List String) : ManagedDefinitionRecord where
  revision := 1
  hash := checksumContext.managedIdentity (sampleDefinition id predecessors).value
  definition := sampleDefinition id predecessors

/-- An attempt that was admitted and not started. -/
def sampleAttempt (id : String) (predecessors : List String) : ManagedTaskAttempt where
  id := utf16 id
  nodeId := utf16 id
  taskRevision := 1
  graphRevision := 1
  definitionHash := checksumContext.managedIdentity (sampleDefinition id predecessors).value
  definition := sampleDefinition id predecessors
  native := { key := utf16 id, identity := checksumDigest (encodeUtf8 (utf16 id)),
              requestHash := List.replicate 64 0x30 }
  inputs := []
  predecessors := []
  resources := [{ declaration := .path (utf16 ("/w/" ++ id)) .write true false
                  path := some (utf16 ("/w/" ++ id)), object := none, ancestor := some (utf16 "1:1")
                  suffix := some (utf16 id) }]
  produced := none
  validationImmutable := none
  validationOutputs := none
  worker := .reserved
  validation := .notStarted
  fence := .current
  retired := false
  accepted := none
  verificationExecution := none

def sampleBinding : ManagedDomainBinding where
  controlRoot := utf16 "/w"
  rootIdentity := utf16 "1:1"
  agentDir := utf16 "/w"
  agentDirIdentity := utf16 "1:1"
  enrollmentId := utf16 "enrollment"
  worktrees := [{ path := utf16 "/w", identity := utf16 "1:1" }]
  aliases := []

/-- A domain of one graph. -/
def sampleDomain (nodes : List ManagedDefinitionRecord) (attempts : List ManagedTaskAttempt) :
    ManagedTaskDomain where
  stateRevision := 1
  binding := sampleBinding
  graphs := [{ id := utf16 "g", owner := utf16 "owner", revision := 1, nodes, attempts, canceled := [] }]

/-- Two attempts below different directories, and two reservations of one path. -/
theorem reservations_isolate_sample :
    ([sampleAttempt "a" [], sampleAttempt "b" []].Pairwise fun left right ↦
      left.retired = false → right.retired = false → ∀ path needed,
        ¬ (left.covers checksumContext path .write = true ∧
          right.covers checksumContext path needed = true) ∧
        ¬ (right.covers checksumContext path .write = true ∧
          left.covers checksumContext path needed = true)) ∧
    ∀ resource ∈ (sampleAttempt "a" []).resources,
      managedResourcesConflict checksumContext resource resource = .ok true := by
  have hall := reservations_isolate_writers checksumContext
  constructor
  · exact hall.1 (sampleDomain [sampleNode "a" [], sampleNode "b" []]
      [sampleAttempt "a" [], sampleAttempt "b" []]) (by decide +kernel)
  · intro resource hresource
    rw [mem_singleton.mp hresource]
    exact hall.2 _ _ (by decide +kernel) (by decide +kernel) rfl rfl (utf16 "/w/a/file") .write .write
      (by decide +kernel) (by decide +kernel) (Or.inl rfl)

end GajaeCode.Broker
