import Mathlib.Algebra.Group.Nat.Defs
import Mathlib.Logic.Function.Basic
import GajaeCode.Machine.Trace

/-!
# The action registry

Actions are registered under ids that are never used again, and become terminal once: a client
replies, the host settles a claimed reply, a local answer arrives, a lease retires the
presentation, or a newer registration supersedes it. A claim binds a pending action to one
receipt. The operations are those of the registry, with panics of the checked epoch counter as
the only way to stop.
-/

namespace GajaeCode.Sdk

inductive ActionKind
  | ask
  | idle
  deriving DecidableEq

inductive ResolvedBy
  | local
  | client
  | timeout
  deriving DecidableEq

inductive RejectReason
  | alreadyAnswered
  | unknownAction
  | invalidAnswer
  | resolverUnavailable
  | idempotencyConflict
  | unauthorized
  deriving DecidableEq

inductive AnswerSelector
  | index (value : UInt32)
  | label (text : String)
  deriving DecidableEq

inductive ReplyAnswer
  | index (value : UInt32)
  | control (controlId : String)
  | text (value : String)
  | structured (selected : List AnswerSelector) (custom : Option String)
  deriving DecidableEq

structure AskControl where
  id : String
  kind : String
  label : String
  enabled : Bool
  deriving DecidableEq

structure ActionNeeded where
  id : String
  kind : ActionKind
  sessionId : String
  question : Option String
  options : Option (List String)
  recommendedIndex : Option UInt32
  controls : List AskControl
  summary : Option String
  deriving DecidableEq

structure ActionResolved where
  id : String
  resolvedBy : ResolvedBy
  answer : Option ReplyAnswer
  deriving DecidableEq

structure Reply where
  id : String
  answer : ReplyAnswer
  token : String
  idempotencyKey : Option String
  deriving DecidableEq

inductive ReplyOutcome
  | resolved (resolution : ActionResolved)
  | duplicateAccepted
  | rejected (reason : RejectReason)
  deriving DecidableEq

inductive ReplyClassification
  | forward
  | duplicate
  | reject (reason : RejectReason)
  deriving DecidableEq

inductive ActionRegistrationError
  | actionIdAlreadyRegistered
  | correlatedPresentationCollision
  deriving DecidableEq

structure Claim where
  receiptId : String
  connectionId : String
  generation : String
  answer : ReplyAnswer
  idempotencyKey : Option String
  deriving DecidableEq

structure PendingAction where
  repliable : Bool
  claim : Option Claim
  deriving DecidableEq

structure ClaimedReply where
  reply : Reply
  replyReceiptId : String
  deriving DecidableEq

structure ReplyOrigin where
  connectionId : String
  generation : String
  deriving DecidableEq

inductive ClaimOutcome
  | forward (claimed : ClaimedReply)
  | duplicate
  | reject (reason : RejectReason)
  deriving DecidableEq

structure ActionIdentity where
  id : String
  epoch : ℕ
  deriving DecidableEq

inductive RetireIfUnclaimed
  | retired (resolution : ActionResolved)
  | alreadyTerminal
  | claimed
  | stale
  deriving DecidableEq

structure ResolvedRecord where
  answer : Option ReplyAnswer
  idempotencyKey : Option String
  registrationEpoch : ℕ
  deriving DecidableEq

inductive WorkflowGateWireDiscriminator
  | actionNeeded
  | actionUnavailable
  deriving DecidableEq

structure WorkflowGateRegistrationIdentity where
  wireDiscriminator : WorkflowGateWireDiscriminator
  actionKind : ActionKind
  actionId : String
  sessionId : String
  workflowGateId : String
  deriving DecidableEq

/-- The registry of one session; hash maps are partial functions. -/
structure ActionRegistry where
  pending : String → Option PendingAction
  resolved : String → Option ResolvedRecord
  receipts : String → Option String
  origins : String → Option ReplyOrigin
  nextReceipt : UInt64
  bufferedAsk : Option ActionNeeded
  epoch : ℕ
  workflowGateId : Option String
  workflowGateRegistration : Option WorkflowGateRegistrationIdentity

namespace ActionRegistry

/-- `ActionRegistry::new` -/
def new : ActionRegistry where
  pending := fun _ ↦ none
  resolved := fun _ ↦ none
  receipts := fun _ ↦ none
  origins := fun _ ↦ none
  nextReceipt := 0
  bufferedAsk := none
  epoch := 0
  workflowGateId := none
  workflowGateRegistration := none

variable (registry : ActionRegistry)

/-- Removes a pending action with the receipt and origin of its claim. -/
def removePending (id : String) (pending : PendingAction) : ActionRegistry :=
  let removed := { registry with pending := Function.update registry.pending id none }
  match pending.claim with
  | none => removed
  | some claim =>
      { removed with
        receipts := Function.update registry.receipts claim.receiptId none
        origins := Function.update registry.origins claim.receiptId none }

/-- Supersession: the old id becomes terminal without an answer. -/
def retirePending (id : String) : ActionRegistry :=
  match registry.pending id with
  | none => registry
  | some pending =>
      let removed := registry.removePending id pending
      { removed with
        resolved := Function.update registry.resolved id
          (some { answer := none, idempotencyKey := none, registrationEpoch := registry.epoch }) }

/-- The registry after the previous canonical ask was superseded. -/
def supersede : ActionRegistry :=
  match registry.bufferedAsk with
  | none => registry
  | some previous => registry.retirePending previous.id

/-- `register`; `none` is the panic of an exhausted epoch counter. -/
def register (needed : ActionNeeded)
    (workflowGate : Option (String × WorkflowGateRegistrationIdentity)) (repliable : Bool) :
    Option (ActionRegistry × Except ActionRegistrationError Unit) :=
  if (registry.pending needed.id).isSome || (registry.resolved needed.id).isSome then
    some (registry, .error .actionIdAlreadyRegistered)
  else
    let retired := registry.supersede
    if retired.epoch + 1 < 2 ^ 64 then
      some ({ retired with
        epoch := retired.epoch + 1
        bufferedAsk := some needed
        workflowGateId := workflowGate.map Prod.fst
        workflowGateRegistration := workflowGate.map Prod.snd
        pending := Function.update retired.pending needed.id
          (some { repliable, claim := none }) }, .ok ())
    else none

def tryRegisterAsk (needed : ActionNeeded) (repliable : Bool) :
    Option (ActionRegistry × Except ActionRegistrationError Unit) :=
  registry.register needed none repliable

/-- `WorkflowGateRegistrationIdentity::new` -/
def gateIdentity (wireDiscriminator : WorkflowGateWireDiscriminator) (needed : ActionNeeded)
    (workflowGateId : String) : WorkflowGateRegistrationIdentity where
  wireDiscriminator := wireDiscriminator
  actionKind := needed.kind
  actionId := needed.id
  sessionId := needed.sessionId
  workflowGateId := workflowGateId

def tryRegisterWorkflowGateAskWithDiscriminator (needed : ActionNeeded)
    (workflowGateId : String) (wireDiscriminator : WorkflowGateWireDiscriminator)
    (repliable : Bool) : Option (ActionRegistry × Except ActionRegistrationError Unit) :=
  let identity := gateIdentity wireDiscriminator needed workflowGateId
  match registry.workflowGateRegistration with
  | none => registry.register needed (some (workflowGateId, identity)) repliable
  | some current =>
      if current = identity then
        if registry.bufferedAsk = some needed ∧
            (registry.pending needed.id).any (fun pending ↦ pending.repliable == repliable) then
          some (registry, .ok ())
        else registry.register needed (some (workflowGateId, identity)) repliable
      else if current.actionId = needed.id then
        some (registry, .error .correlatedPresentationCollision)
      else registry.register needed (some (workflowGateId, identity)) repliable

def tryRegisterWorkflowGateAsk (needed : ActionNeeded)
    (workflowGateId : String) (repliable : Bool) :
    Option (ActionRegistry × Except ActionRegistrationError Unit) :=
  registry.tryRegisterWorkflowGateAskWithDiscriminator needed workflowGateId .actionNeeded repliable

/-- Makes a pending action terminal; every settling operation ends here. -/
def resolveInternal (id : String) (resolvedBy : ResolvedBy)
    (answer : Option ReplyAnswer) (idempotencyKey : Option String) :
    ActionRegistry × Except RejectReason ActionResolved :=
  match registry.pending id with
  | none => (registry, .error .alreadyAnswered)
  | some pending =>
      let removed := registry.removePending id pending
      let cleared :=
        if registry.bufferedAsk.any (fun ask ↦ ask.id == id) then
          { removed with bufferedAsk := none, workflowGateId := none,
                         workflowGateRegistration := none }
        else removed
      ({ cleared with
        resolved := Function.update registry.resolved id
          (some { answer, idempotencyKey, registrationEpoch := registry.epoch }) },
        .ok { id, resolvedBy, answer })

def currentIdentity : Option ActionIdentity :=
  registry.bufferedAsk.map fun ask ↦ { id := ask.id, epoch := registry.epoch }

def hasClaimForAction (id : String) : Bool :=
  (registry.pending id).any fun pending ↦ pending.claim.isSome

def retireIfUnclaimed (expected : ActionIdentity) : ActionRegistry × RetireIfUnclaimed :=
  match registry.currentIdentity with
  | none =>
      if (registry.resolved expected.id).any
          (fun record ↦ record.registrationEpoch == expected.epoch) then
        (registry, .alreadyTerminal)
      else (registry, .stale)
  | some current =>
      if current ≠ expected then (registry, .stale)
      else if registry.hasClaimForAction expected.id then (registry, .claimed)
      else
        match registry.resolveInternal expected.id .local none none with
        | (after, .ok resolution) => (after, .retired resolution)
        | (after, .error _) => (after, .stale)

/-- The identity that a reply to an ask with controls has to have seen. -/
def controlledIdentityFor (id : String) : Option ActionIdentity :=
  (registry.bufferedAsk.filter fun ask ↦ ask.id == id && !ask.controls.isEmpty).map fun ask ↦
    { id := ask.id, epoch := registry.epoch }

def resolveLocal (id : String) (answer : Option ReplyAnswer) :
    ActionRegistry × Option ActionResolved :=
  if registry.hasClaimForAction id then (registry, none)
  else
    let resolution := registry.resolveInternal id .local answer none
    (resolution.1, resolution.2.toOption)

def resolveClient (id : String) (answer : Option ReplyAnswer)
    (idempotencyKey : Option String) : ActionRegistry × Option ActionResolved :=
  if registry.hasClaimForAction id then (registry, none)
  else
    let resolution := registry.resolveInternal id .client answer idempotencyKey
    (resolution.1, resolution.2.toOption)

/-- A reply to a terminal action: a retry with the key and the answer that settled it, a conflict
on that key, or too late. -/
def lateReply (record : ResolvedRecord) (reply : Reply) : ReplyClassification :=
  match record.idempotencyKey, reply.idempotencyKey with
  | some existing, some incoming =>
      if existing = incoming then
        if record.answer = some reply.answer then .duplicate else .reject .idempotencyConflict
      else .reject .alreadyAnswered
  | _, _ => .reject .alreadyAnswered

def classifyReply (registry : ActionRegistry) (reply : Reply)
    (authorized resolverAvailable : Bool) : ReplyClassification :=
  if !authorized then .reject .unauthorized
  else
    match registry.resolved reply.id with
    | some record => lateReply record reply
    | none =>
        match registry.pending reply.id with
        | none => .reject .unknownAction
        | some pending =>
            if !pending.repliable || !resolverAvailable then .reject .resolverUnavailable
            else .forward

/-- Applies a reply, with the same tests in front as `classifyReply`. Whether the action is
claimed is not looked at. -/
def applyReply (reply : Reply) (authorized resolverAvailable : Bool) : ActionRegistry × ReplyOutcome :=
  match registry.classifyReply reply authorized resolverAvailable with
  | .reject reason => (registry, .rejected reason)
  | .duplicate => (registry, .duplicateAccepted)
  | .forward =>
      match registry.resolveInternal reply.id .client (some reply.answer) reply.idempotencyKey with
      | (after, .ok resolution) => (after, .resolved resolution)
      | (after, .error reason) => (after, .rejected reason)

/-- Whether a controlled ask was delivered in its present registration. -/
def deliveryRefused (delivered : Option ActionIdentity) (reply : Reply) : Bool :=
  (registry.controlledIdentityFor reply.id).any fun current ↦ decide (delivered ≠ some current)

def applyReplyIfDelivered (delivered : Option ActionIdentity)
    (reply : Reply) (authorized resolverAvailable : Bool) : ActionRegistry × ReplyOutcome :=
  if registry.deliveryRefused delivered reply then (registry, .rejected .invalidAnswer)
  else registry.applyReply reply authorized resolverAvailable

/-- The receipt that the counter names next. -/
def receiptName (counter : UInt64) : String := "reply:" ++ toString counter

/-- Binds a pending action to a claim and files its receipt and origin. -/
def bindClaim (id : String) (pending : PendingAction) (claim : Claim) : ActionRegistry :=
  { registry with
    nextReceipt := registry.nextReceipt + 1
    pending := Function.update registry.pending id (some { pending with claim := some claim })
    receipts := Function.update registry.receipts claim.receiptId (some id)
    origins := Function.update registry.origins claim.receiptId
      (some { connectionId := claim.connectionId, generation := claim.generation }) }

def claimReply (reply : Reply) (connectionId generation : String)
    (authorized resolverAvailable : Bool) : ActionRegistry × ClaimOutcome :=
  match registry.classifyReply reply authorized resolverAvailable with
  | .reject reason => (registry, .reject reason)
  | .duplicate => (registry, .duplicate)
  | .forward =>
      match registry.pending reply.id with
      | none => (registry, .reject .unknownAction)
      | some pending =>
          match pending.claim with
          | some claim =>
              if claim.connectionId = connectionId ∧ claim.generation = generation ∧
                  claim.idempotencyKey = reply.idempotencyKey ∧ claim.answer = reply.answer then
                (registry, .duplicate)
              else (registry, .reject .idempotencyConflict)
          | none =>
              let receiptId := receiptName registry.nextReceipt
              (registry.bindClaim reply.id pending
                { receiptId, connectionId, generation, answer := reply.answer
                  idempotencyKey := reply.idempotencyKey },
                .forward { reply, replyReceiptId := receiptId })

def claimReplyIfDelivered (delivered : Option ActionIdentity)
    (reply : Reply) (connectionId generation : String) (authorized resolverAvailable : Bool) :
    ActionRegistry × ClaimOutcome :=
  if registry.deliveryRefused delivered reply then (registry, .reject .invalidAnswer)
  else registry.claimReply reply connectionId generation authorized resolverAvailable

def claimOrigin (receiptId : String) : Option ReplyOrigin :=
  registry.origins receiptId

def claimActionId (receiptId : String) : Option String :=
  registry.receipts receiptId

/-- The open claim that a receipt names, with its action. -/
def claimFor (receiptId : String) : Option (String × Claim) := do
  let id ← registry.receipts receiptId
  let pending ← registry.pending id
  let claim ← pending.claim
  if claim.receiptId = receiptId then some (id, claim) else none

def resolveClaim (receiptId : String) (answer : Option ReplyAnswer)
    (idempotencyKey : Option String) : ActionRegistry × Option ActionResolved :=
  match registry.claimFor receiptId with
  | none => (registry, none)
  | some (id, claim) =>
      if answer ≠ some claim.answer ∨ idempotencyKey ≠ claim.idempotencyKey then (registry, none)
      else
        let resolution := registry.resolveInternal id .client answer idempotencyKey
        (resolution.1, resolution.2.toOption)

def closeClaimInvalid (receiptId : String) : ActionRegistry × Option ActionResolved :=
  match registry.claimFor receiptId with
  | none => (registry, none)
  | some (id, _) =>
      let resolution := registry.resolveInternal id .client none none
      (resolution.1, resolution.2.toOption)

def cancelClaim (receiptId : String) : ActionRegistry × Option ActionResolved :=
  registry.closeClaimInvalid receiptId

end ActionRegistry

/-! ## The registry as a machine -/

inductive RegistryOp
  | registerAsk (needed : ActionNeeded) (repliable : Bool)
  | registerWorkflowGateAsk (needed : ActionNeeded) (workflowGateId : String)
      (wireDiscriminator : WorkflowGateWireDiscriminator) (repliable : Bool)
  | applyReply (reply : Reply) (authorized resolverAvailable : Bool)
  | applyReplyIfDelivered (delivered : Option ActionIdentity) (reply : Reply)
      (authorized resolverAvailable : Bool)
  | classifyReply (reply : Reply) (authorized resolverAvailable : Bool)
  | claimReply (reply : Reply) (connectionId generation : String)
      (authorized resolverAvailable : Bool)
  | claimReplyIfDelivered (delivered : Option ActionIdentity) (reply : Reply)
      (connectionId generation : String) (authorized resolverAvailable : Bool)
  | resolveClaim (receiptId : String) (answer : Option ReplyAnswer)
      (idempotencyKey : Option String)
  | closeClaimInvalid (receiptId : String)
  | cancelClaim (receiptId : String)
  | resolveLocal (id : String) (answer : Option ReplyAnswer)
  | resolveClient (id : String) (answer : Option ReplyAnswer) (idempotencyKey : Option String)
  | retireIfUnclaimed (expected : ActionIdentity)

inductive RegistryOutput
  | registered (result : Except ActionRegistrationError Unit)
  | replied (outcome : ReplyOutcome)
  | classified (classification : ReplyClassification)
  | claimed (outcome : ClaimOutcome)
  | settled (resolution : Option ActionResolved)
  | retired (result : RetireIfUnclaimed)

/-- The `ActionResolved` frame that an answer carries. -/
def RegistryOutput.resolution : RegistryOutput → Option ActionResolved
  | replied (.resolved resolution) => some resolution
  | settled resolution => resolution
  | retired (.retired resolution) => some resolution
  | _ => none

/-- The claimed reply that an answer hands to the host. -/
def RegistryOutput.forwarded : RegistryOutput → Option ClaimedReply
  | claimed (.forward reply) => some reply
  | _ => none

/-- Runs one operation; `none` is a panic. -/
def registryStep (registry : ActionRegistry) :
    RegistryOp → Option (ActionRegistry × RegistryOutput)
  | .registerAsk needed repliable =>
      (registry.tryRegisterAsk needed repliable).map fun done ↦ (done.1, .registered done.2)
  | .registerWorkflowGateAsk needed workflowGateId wireDiscriminator repliable =>
      (registry.tryRegisterWorkflowGateAskWithDiscriminator needed workflowGateId wireDiscriminator
        repliable).map fun done ↦ (done.1, .registered done.2)
  | .applyReply reply authorized resolverAvailable =>
      let done := registry.applyReply reply authorized resolverAvailable
      some (done.1, .replied done.2)
  | .applyReplyIfDelivered delivered reply authorized resolverAvailable =>
      let done := registry.applyReplyIfDelivered delivered reply authorized resolverAvailable
      some (done.1, .replied done.2)
  | .classifyReply reply authorized resolverAvailable =>
      some (registry, .classified (registry.classifyReply reply authorized resolverAvailable))
  | .claimReply reply connectionId generation authorized resolverAvailable =>
      let done := registry.claimReply reply connectionId generation authorized resolverAvailable
      some (done.1, .claimed done.2)
  | .claimReplyIfDelivered delivered reply connectionId generation authorized resolverAvailable =>
      let done := registry.claimReplyIfDelivered delivered reply connectionId generation authorized
        resolverAvailable
      some (done.1, .claimed done.2)
  | .resolveClaim receiptId answer idempotencyKey =>
      let done := registry.resolveClaim receiptId answer idempotencyKey
      some (done.1, .settled done.2)
  | .closeClaimInvalid receiptId =>
      let done := registry.closeClaimInvalid receiptId
      some (done.1, .settled done.2)
  | .cancelClaim receiptId =>
      let done := registry.cancelClaim receiptId
      some (done.1, .settled done.2)
  | .resolveLocal id answer =>
      let done := registry.resolveLocal id answer
      some (done.1, .settled done.2)
  | .resolveClient id answer idempotencyKey =>
      let done := registry.resolveClient id answer idempotencyKey
      some (done.1, .settled done.2)
  | .retireIfUnclaimed expected =>
      let done := registry.retireIfUnclaimed expected
      some (done.1, .retired done.2)

end GajaeCode.Sdk
