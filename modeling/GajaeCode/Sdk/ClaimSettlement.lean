import GajaeCode.Sdk.ActionRegistry

/-!
# Settling claimed actions

Over every run of the registry an action id is resolved at most once and forwarded at most once,
and receipts and origins are those of open claims. An open claim is settled by its receipt or
superseded by a newer registration, unless a reply is applied to the claimed action directly:
`apply_reply` is the one settling operation that does not test for a claim.
-/

namespace GajaeCode.Sdk

open Machine List Option Function

variable {reg before after : ActionRegistry} {output : RegistryOutput} {id receiptId : String}
  {op : RegistryOp} {pending : PendingAction} {resolverAvailable authorized : Bool}
  {idempotencyKey : Option String} {reply : Reply} {answer : Option ReplyAnswer}

namespace ActionRegistry

/-- The claim that binds an action. -/
def openClaim (registry : ActionRegistry) (id : String) : Option Claim :=
  (registry.pending id).bind PendingAction.claim

/-- What holds between two operations. At most the canonical ask is pending, a terminal id is
never pending again, and the books of claims are exact. -/
structure Consistent (registry : ActionRegistry) : Prop where
  tombstone {id : String} {pending : PendingAction} (h : registry.pending id = some pending) :
    registry.resolved id = none
  canonical {id : String} {pending : PendingAction} (h : registry.pending id = some pending) :
    registry.bufferedAsk.map ActionNeeded.id = some id
  receipts (receipt id : String) : registry.receipts receipt = some id ↔
    ∃ claim, registry.openClaim id = some claim ∧ claim.receiptId = receipt
  origins (receipt : String) (origin : ReplyOrigin) : registry.origins receipt = some origin ↔
    ∃ id claim, registry.openClaim id = some claim ∧ claim.receiptId = receipt ∧
      origin = { connectionId := claim.connectionId, generation := claim.generation }

/-- Nothing is pending and nothing is claimed. -/
structure Idle (registry : ActionRegistry) : Prop where
  pending (id : String) : registry.pending id = none
  receipts (receipt : String) : registry.receipts receipt = none
  origins (receipt : String) : registry.origins receipt = none

theorem Idle.consistent (h : Idle reg) : Consistent reg where
  tombstone hpending := by simp [h.pending] at hpending
  canonical hpending := by simp [h.pending] at hpending
  receipts receipt id := by simp [h.receipts, openClaim, h.pending]
  origins receipt origin := by simp [h.origins, openClaim, h.pending]

theorem consistent_new : Consistent new := Idle.consistent ⟨fun _ ↦ rfl, fun _ ↦ rfl, fun _ ↦ rfl⟩

/-- At most one action is pending. -/
theorem Consistent.pending_unique (h : Consistent reg)
    {left right : String} {pending' : PendingAction} (hleft : reg.pending left = some pending)
    (hright : reg.pending right = some pending') : left = right :=
  some.inj ((h.canonical hleft).symm.trans (h.canonical hright))

theorem openClaim_eq_some_iff {claim : Claim} : reg.openClaim id = some claim ↔
      ∃ pending, reg.pending id = some pending ∧ pending.claim = some claim :=
  bind_eq_some_iff

/-- A receipt that no open claim carries is in no book. -/
theorem Consistent.books_eq_none (h : Consistent reg) {receipt : String}
    (hfree : ∀ id claim, reg.openClaim id = some claim → claim.receiptId ≠ receipt) :
    reg.receipts receipt = none ∧ reg.origins receipt = none := by
  constructor
  · refine eq_none_iff_forall_ne_some.mpr fun id hid ↦ ?_
    obtain ⟨claim, hclaim, hreceipt⟩ := (h.receipts receipt id).mp hid
    exact hfree id claim hclaim hreceipt
  · refine eq_none_iff_forall_ne_some.mpr fun origin horigin ↦ ?_
    obtain ⟨id, claim, hclaim, hreceipt, -⟩ := (h.origins receipt origin).mp horigin
    exact hfree id claim hclaim hreceipt

/-- Every open claim is that of the pending action. -/
theorem Consistent.claim_of_openClaim (h : Consistent reg)
    (hpend : reg.pending id = some pending) {other : String} {claim : Claim}
    (hclaim : reg.openClaim other = some claim) : pending.claim = some claim := by
  obtain ⟨pending', hpend', hclaim'⟩ := openClaim_eq_some_iff.mp hclaim
  rw [h.pending_unique hpend' hpend, hpend] at hpend'
  rwa [some.inj hpend']

theorem update_none_eq_none {β : Type} {book : String → Option β} {key other : String}
    (h : other ≠ key → book other = none) : update book key none other = none := by
  by_cases hother : other = key
  · rw [hother, update_self]
  · rw [update_of_ne hother, h hother]

/-- Removing the pending action leaves nothing pending and no claim. -/
theorem Consistent.idle_removePending (h : Consistent reg) (hpend : reg.pending id = some pending) :
    Idle (reg.removePending id pending) := by
  have hreceipt {receipt}
      (hnot : ∀ claim, pending.claim = some claim → claim.receiptId ≠ receipt) :
      reg.receipts receipt = none ∧ reg.origins receipt = none :=
    h.books_eq_none fun _ claim hclaim ↦ hnot claim (h.claim_of_openClaim hpend hclaim)
  have hfree (other) : update reg.pending id none other = none := by
    refine update_none_eq_none fun hother ↦ eq_none_iff_forall_ne_some.mpr fun _ hcase ↦ ?_
    exact hother (h.pending_unique hcase hpend)
  unfold removePending
  cases hclaim : pending.claim with
  | none => exact ⟨hfree, fun receipt ↦ (hreceipt (by simp [hclaim])).1,
      fun receipt ↦ (hreceipt (by simp [hclaim])).2⟩
  | some claim =>
    have hother {receipt} (hne : receipt ≠ claim.receiptId) :=
      hreceipt (by simpa [hclaim] using hne.symm)
    exact ⟨hfree, fun receipt ↦ update_none_eq_none fun hne ↦ (hother hne).1,
      fun receipt ↦ update_none_eq_none fun hne ↦ (hother hne).2⟩

/-! ## What the state changes do -/

/-- The registry after a pending action was settled. -/
theorem resolveInternal_of_pending (h : Consistent reg) (hpend : reg.pending id = some pending)
    (resolvedBy : ResolvedBy) (answer : Option ReplyAnswer) (idempotencyKey : Option String) :
    ∃ after, reg.resolveInternal id resolvedBy answer idempotencyKey =
        (after, .ok { id, resolvedBy, answer }) ∧
      Idle after ∧ after.resolved = update reg.resolved id
        (some { answer, idempotencyKey, registrationEpoch := reg.epoch }) := by
  have hidle := h.idle_removePending hpend
  unfold resolveInternal
  rw [hpend]
  split_ifs
  · exact ⟨_, rfl, ⟨hidle.pending, hidle.receipts, hidle.origins⟩, rfl⟩
  · exact ⟨_, rfl, ⟨hidle.pending, hidle.receipts, hidle.origins⟩, rfl⟩

/-- The registry after supersession: the canonical ask, if pending, is terminal. -/
theorem supersede_spec (h : Consistent reg) : Idle reg.supersede ∧
      (∀ id, (reg.resolved id).isSome → (reg.supersede.resolved id).isSome) ∧
      (∀ id, (reg.pending id).isSome → (reg.supersede.resolved id).isSome) ∧
      ∀ id, reg.pending id = none → reg.supersede.resolved id = reg.resolved id := by
  by_cases hfree : ∀ id, reg.pending id = none
  · have hbooks (receipt) : reg.receipts receipt = none ∧ reg.origins receipt = none :=
      h.books_eq_none (by simp [openClaim, hfree])
    have hsame : reg.supersede = reg := by
      unfold supersede retirePending
      cases reg.bufferedAsk <;> simp [hfree]
    rw [hsame]
    exact ⟨⟨hfree, fun receipt ↦ (hbooks receipt).1, fun receipt ↦ (hbooks receipt).2⟩,
      fun _ hid ↦ hid, by simp [hfree], fun _ _ ↦ rfl⟩
  · obtain ⟨id, hid⟩ := not_forall.mp hfree
    obtain ⟨pending, hpend⟩ := ne_none_iff_exists'.mp hid
    obtain ⟨prev, hprev, rfl⟩ := map_eq_some_iff.mp (h.canonical hpend)
    have hidle := h.idle_removePending hpend
    simp only [supersede, hprev, retirePending, hpend]
    refine ⟨⟨hidle.pending, hidle.receipts, hidle.origins⟩, fun id hid ↦ ?_, fun id hid ↦ ?_,
      fun id hid ↦ ?_⟩
    · by_cases hsame : id = prev.id
      · simp [hsame]
      · simpa [update_of_ne hsame] using hid
    · obtain ⟨pending', hpend'⟩ := isSome_iff_exists.mp hid
      simp [h.pending_unique hpend' hpend]
    · have hne : id ≠ prev.id := by
        rintro rfl
        simp [hpend] at hid
      simp [update_of_ne hne]

/-! ## What one operation can do -/

/-- A reply that passes every test of `apply_reply` while the action has an open claim. -/
def acceptsOverClaim (registry : ActionRegistry) (reply : Reply)
    (authorized resolverAvailable : Bool) : Bool :=
  authorized && resolverAvailable &&
    (registry.pending reply.id).any fun pending ↦ pending.repliable && pending.claim.isSome

end ActionRegistry

open ActionRegistry

/-- An operation that settles a claimed action without its receipt. -/
def RegistryOp.bypassesClaim (registry : ActionRegistry) : RegistryOp → Bool
  | applyReply reply authorized resolverAvailable =>
      registry.acceptsOverClaim reply authorized resolverAvailable
  | applyReplyIfDelivered delivered reply authorized resolverAvailable =>
      !registry.deliveryRefused delivered reply &&
        registry.acceptsOverClaim reply authorized resolverAvailable
  | _ => false

/-- An operation that names the receipt of a claim to settle it. -/
def RegistryOp.settlesWith (receipt : String) : RegistryOp → Bool
  | resolveClaim receiptId _ _ => receiptId == receipt
  | closeClaimInvalid receiptId => receiptId == receipt
  | cancelClaim receiptId => receiptId == receipt
  | _ => false

/-- A registration of a new action. -/
def RegistryOp.registers : RegistryOp → Bool
  | registerAsk _ _ => true
  | registerWorkflowGateAsk _ _ _ _ => true
  | _ => false

/-- The four things an operation can do to the registry. -/
inductive StepEffect (before : ActionRegistry) (op : RegistryOp) :
    ActionRegistry → RegistryOutput → Prop
  | unchanged {output : RegistryOutput} (hresolution : output.resolution = none)
      (hforwarded : output.forwarded = none) : StepEffect before op before output
  | registered {after : ActionRegistry} {needed : ActionNeeded} {repliable : Bool}
      (hregisters : op.registers = true)
      (hfresh : before.pending needed.id = none ∧ before.resolved needed.id = none)
      (hpending : ∀ id, after.pending id =
        if id = needed.id then some { repliable, claim := none } else none)
      (hask : after.bufferedAsk = some needed)
      (hresolved : after.resolved = before.supersede.resolved)
      (hbooks : ∀ receipt, after.receipts receipt = none ∧ after.origins receipt = none) :
      StepEffect before op after (.registered (.ok ()))
  | claimed {reply : Reply} {pending : PendingAction} {claim : Claim}
      (hpending : before.pending reply.id = some pending) (hfree : pending.claim = none) :
      StepEffect before op (before.bindClaim reply.id pending claim)
        (.claimed (.forward { reply, replyReceiptId := claim.receiptId }))
  | settled {after : ActionRegistry} {output : RegistryOutput} {pending : PendingAction}
      {resolution : ActionResolved} {record : ResolvedRecord}
      (hpending : before.pending resolution.id = some pending) (hidle : Idle after)
      (hresolved : after.resolved = Function.update before.resolved resolution.id (some record))
      (hresolution : output.resolution = some resolution) (hforwarded : output.forwarded = none)
      (hop : ∀ claim, pending.claim = some claim →
        op.settlesWith claim.receiptId = true ∨ op.bypassesClaim before = true) :
      StepEffect before op after output

section

variable {before : ActionRegistry} (h : Consistent before) (op : RegistryOp)

include h in
theorem register_effect {needed : ActionNeeded}
    {workflowGate : Option (String × WorkflowGateRegistrationIdentity)} {repliable : Bool}
    {result : Except ActionRegistrationError Unit} (hop : op.registers)
    (hreg : before.register needed workflowGate repliable = some (after, result)) :
    StepEffect before op after (.registered result) := by
  obtain ⟨hidle, -, -, -⟩ := supersede_spec h
  unfold register at hreg
  dsimp only at hreg
  split_ifs at hreg with hknown hepoch
  · obtain ⟨rfl, rfl⟩ := hreg
    exact .unchanged rfl rfl
  · obtain ⟨rfl, rfl⟩ := hreg
    simp only [Bool.or_eq_true, not_or, not_isSome_iff_eq_none] at hknown
    have hpend (id) : update before.supersede.pending needed.id
        (some { repliable, claim := none }) id =
        if id = needed.id then some { repliable, claim := none } else none := by
      by_cases hid : id = needed.id
      · simp [hid]
      · simp [hid, hidle.pending]
    exact .registered hop hknown hpend rfl rfl
      fun receipt ↦ ⟨hidle.receipts receipt, hidle.origins receipt⟩

include h in
theorem resolveInternal_effect {resolvedBy : ResolvedBy} (hresol : output.resolution =
      (before.resolveInternal id resolvedBy answer idempotencyKey).2.toOption)
    (hfwd : output.forwarded = none) (hop : ∀ claim, before.openClaim id = some claim →
      op.settlesWith claim.receiptId ∨ op.bypassesClaim before) :
    StepEffect before op (before.resolveInternal id resolvedBy answer idempotencyKey).1 output := by
  cases hpend : before.pending id with
  | none =>
    have hnothing : before.resolveInternal id resolvedBy answer idempotencyKey =
        (before, .error .alreadyAnswered) := by
      rw [resolveInternal, hpend]
    rw [hnothing] at hresol ⊢
    exact .unchanged hresol hfwd
  | some pending =>
    obtain ⟨after, hres, hidle, hresolved⟩ :=
      resolveInternal_of_pending h hpend resolvedBy answer idempotencyKey
    rw [hres] at hresol ⊢
    refine .settled hpend hidle hresolved hresol hfwd fun claim hclaim ↦ ?_
    exact hop claim (openClaim_eq_some_iff.mpr ⟨pending, hpend, hclaim⟩)

include h in
theorem resolveInternal_effect_of_unclaimed {resolvedBy : ResolvedBy}
    (hclaim : ¬ before.hasClaimForAction id) (hresol : output.resolution =
      (before.resolveInternal id resolvedBy answer idempotencyKey).2.toOption)
    (hfwd : output.forwarded = none) :
    StepEffect before op (before.resolveInternal id resolvedBy answer idempotencyKey).1 output := by
  refine resolveInternal_effect h op hresol hfwd fun claim hopen ↦ ?_
  obtain ⟨pending, hpend, hsome⟩ := openClaim_eq_some_iff.mp hopen
  simp [hasClaimForAction, hpend, hsome] at hclaim

/-- A reply that is classified as acceptable is for a pending, repliable action. -/
theorem classifyReply_forward
    (hfwd : before.classifyReply reply authorized resolverAvailable = .forward) :
    authorized ∧ resolverAvailable ∧
      ∃ pending, before.pending reply.id = some pending ∧ pending.repliable := by
  unfold classifyReply at hfwd
  split_ifs at hfwd with hauthorized
  cases hresolved : before.resolved reply.id with
  | some =>
    rw [hresolved] at hfwd
    dsimp only at hfwd
    unfold lateReply at hfwd
    split at hfwd
    · split_ifs at hfwd
    · cases hfwd
  | none =>
    rw [hresolved] at hfwd
    cases hpend : before.pending reply.id with
    | none => simp [hpend] at hfwd
    | some pending =>
      simp only [hpend] at hfwd
      split_ifs at hfwd with hrefused
      simp only [Bool.or_eq_true, Bool.not_eq_true', not_or, Bool.not_eq_false] at hrefused
      exact ⟨by simpa using hauthorized, hrefused.2, pending, rfl, hrefused.1⟩

include h in
theorem applyReply_effect (hop : before.acceptsOverClaim reply authorized resolverAvailable →
      op.bypassesClaim before) :
    StepEffect before op (before.applyReply reply authorized resolverAvailable).1
      (.replied (before.applyReply reply authorized resolverAvailable).2) := by
  cases hclass : before.classifyReply reply authorized resolverAvailable with
  | reject | duplicate =>
    rw [applyReply, hclass]
    exact .unchanged rfl rfl
  | forward =>
    obtain ⟨rfl, rfl, pending, hpend, hrepliable⟩ := classifyReply_forward hclass
    obtain ⟨after, hres, -, -⟩ := resolveInternal_of_pending h hpend .client
      (some reply.answer) reply.idempotencyKey
    have heffect : StepEffect before op (before.resolveInternal reply.id .client
        (some reply.answer) reply.idempotencyKey).1
        (.replied (.resolved { id := reply.id, resolvedBy := .client, answer := some reply.answer })) := by
      refine resolveInternal_effect h op (by rw [hres]; rfl) rfl fun claim hclaim ↦ Or.inr ?_
      obtain ⟨pending', hpend', hsome⟩ := openClaim_eq_some_iff.mp hclaim
      apply hop
      rw [hpend] at hpend'
      cases hpend'
      simp [acceptsOverClaim, hpend, hrepliable, hsome]
    rw [applyReply, hclass]
    rw [hres] at heffect ⊢
    exact heffect

theorem claimReply_effect (reply : Reply) (connectionId gen : String)
    (authorized resolverAvailable : Bool) :
    StepEffect before op (before.claimReply reply connectionId gen authorized resolverAvailable).1
      (.claimed (before.claimReply reply connectionId gen authorized resolverAvailable).2) := by
  cases hclass : before.classifyReply reply authorized resolverAvailable with
  | reject | duplicate =>
    rw [claimReply, hclass]
    exact .unchanged rfl rfl
  | forward =>
    obtain ⟨-, -, pending, hpend, -⟩ := classifyReply_forward hclass
    rw [claimReply, hclass]
    simp only [hpend]
    cases hclaim : pending.claim with
    | some =>
      dsimp only
      split_ifs
      · exact .unchanged rfl rfl
      · exact .unchanged rfl rfl
    | none => exact .claimed hpend hclaim

theorem receiptId_of_claimFor {claim claim' : Claim} (hfound : before.claimFor receiptId = some (id, claim))
    (hopen : before.openClaim id = some claim') : claim'.receiptId = receiptId := by
  unfold claimFor at hfound
  simp only [bind_eq_bind, bind_eq_some_iff, ite_none_right_eq_some] at hfound
  obtain ⟨_, -, pending, hpend, _, hclaim, hsame, heq⟩ := hfound
  cases heq
  rw [openClaim, hpend, bind_some, hclaim] at hopen
  rwa [← some.inj hopen]

include h in
theorem retireIfUnclaimed_effect (expected : ActionIdentity) :
    StepEffect before op (before.retireIfUnclaimed expected).1
      (.retired (before.retireIfUnclaimed expected).2) := by
  unfold retireIfUnclaimed
  cases before.currentIdentity with
  | none =>
    dsimp only
    split_ifs
    · exact .unchanged rfl rfl
    · exact .unchanged rfl rfl
  | some =>
    dsimp only
    split_ifs with hstale hclaimed
    · exact .unchanged rfl rfl
    · exact .unchanged rfl rfl
    · have heffect {output : RegistryOutput} (hresol : output.resolution =
          (before.resolveInternal expected.id .local none none).2.toOption) :=
        resolveInternal_effect_of_unclaimed h op hclaimed hresol
      cases hres : before.resolveInternal expected.id .local none none with
      | mk after result =>
        rw [hres] at heffect
        cases result with
        | ok | error => exact heffect rfl rfl

end

/-- Every operation has one of the four effects. -/
theorem registryStep_effect (h : Consistent before)
    (hstep : registryStep before op = some (after, output)) : StepEffect before op after output := by
  cases op with
  | registerAsk =>
    simp only [registryStep, tryRegisterAsk, map_eq_some_iff, Prod.mk.injEq] at hstep
    obtain ⟨⟨reg, result⟩, hreg, rfl, rfl⟩ := hstep
    exact register_effect h _ rfl hreg
  | registerWorkflowGateAsk =>
    simp only [registryStep, map_eq_some_iff, Prod.mk.injEq] at hstep
    obtain ⟨⟨reg, result⟩, hreg, rfl, rfl⟩ := hstep
    unfold tryRegisterWorkflowGateAskWithDiscriminator at hreg
    dsimp only at hreg
    split at hreg
    · exact register_effect h _ rfl hreg
    · split_ifs at hreg
      · obtain ⟨rfl, rfl⟩ := hreg
        exact .unchanged rfl rfl
      · exact register_effect h _ rfl hreg
      · obtain ⟨rfl, rfl⟩ := hreg
        exact .unchanged rfl rfl
      · exact register_effect h _ rfl hreg
  | applyReply =>
    obtain ⟨rfl, rfl⟩ := hstep
    exact applyReply_effect h _ fun haccepts ↦ haccepts
  | applyReplyIfDelivered =>
    obtain ⟨rfl, rfl⟩ := hstep
    unfold applyReplyIfDelivered
    split_ifs with hrefused
    · exact .unchanged rfl rfl
    · exact applyReply_effect h _ fun haccepts ↦ by simp [RegistryOp.bypassesClaim, hrefused, haccepts]
  | classifyReply =>
    obtain ⟨rfl, rfl⟩ := hstep
    exact .unchanged rfl rfl
  | claimReply reply connectionId gen authorized resolverAvailable =>
    obtain ⟨rfl, rfl⟩ := hstep
    exact claimReply_effect _ reply connectionId gen authorized resolverAvailable
  | claimReplyIfDelivered delivered reply connectionId gen authorized resolverAvailable =>
    obtain ⟨rfl, rfl⟩ := hstep
    unfold claimReplyIfDelivered
    split_ifs
    · exact .unchanged rfl rfl
    · exact claimReply_effect _ reply connectionId gen authorized resolverAvailable
  | resolveClaim receiptId =>
    obtain ⟨rfl, rfl⟩ := hstep
    unfold resolveClaim
    cases hfound : before.claimFor receiptId with
    | none => exact .unchanged rfl rfl
    | some found =>
      dsimp only
      split_ifs
      · exact .unchanged rfl rfl
      · exact resolveInternal_effect h _ rfl rfl fun claim hopen ↦
          .inl (by simp [RegistryOp.settlesWith, receiptId_of_claimFor hfound hopen])
  | closeClaimInvalid receiptId | cancelClaim receiptId =>
    obtain ⟨rfl, rfl⟩ := hstep
    simp only [cancelClaim, closeClaimInvalid]
    cases hfound : before.claimFor receiptId with
    | none => exact .unchanged rfl rfl
    | some found =>
      exact resolveInternal_effect h _ rfl rfl fun claim hopen ↦
        .inl (by simp [RegistryOp.settlesWith, receiptId_of_claimFor hfound hopen])
  | resolveLocal | resolveClient =>
    obtain ⟨rfl, rfl⟩ := hstep
    simp only [resolveLocal, resolveClient]
    split_ifs with hclaimed
    · exact .unchanged rfl rfl
    · exact resolveInternal_effect_of_unclaimed h _ hclaimed rfl rfl
  | retireIfUnclaimed expected =>
    obtain ⟨rfl, rfl⟩ := hstep
    exact retireIfUnclaimed_effect h _ expected

/-! ## Invariant and terminal ids -/

theorem openClaim_bindClaim (reg : ActionRegistry) (id other : String)
    (pending : PendingAction) (claim : Claim) :
    (reg.bindClaim id pending claim).openClaim other =
      if other = id then some claim else reg.openClaim other := by
  by_cases hother : other = id
  · simp [openClaim, bindClaim, hother]
  · simp [openClaim, bindClaim, hother]

/-- Binding the first claim keeps the books exact. -/
theorem ActionRegistry.Consistent.bindClaim (h : Consistent reg)
    (hpend : reg.pending id = some pending) (hfree : pending.claim = none) (claim : Claim) :
    Consistent (reg.bindClaim id pending claim) := by
  have hnone (other) : reg.openClaim other = none := by
    refine eq_none_iff_forall_ne_some.mpr fun claim' hclaim' ↦ ?_
    simpa [hfree] using h.claim_of_openClaim hpend hclaim'
  have hbooks (receipt) : reg.receipts receipt = none ∧ reg.origins receipt = none :=
    h.books_eq_none (by simp [hnone])
  have hwas {other} {pending'}
      (hcase : (reg.bindClaim id pending claim).pending other = some pending') :
      ∃ earlier, reg.pending other = some earlier := by
    by_cases hother : other = id
    · exact ⟨pending, hother ▸ hpend⟩
    · exact ⟨pending', by simpa [ActionRegistry.bindClaim, hother] using hcase⟩
  constructor
  · intro other pending' hcase
    obtain ⟨earlier, hearlier⟩ := hwas hcase
    exact h.tombstone hearlier
  · intro other pending' hcase
    obtain ⟨earlier, hearlier⟩ := hwas hcase
    exact h.canonical hearlier
  · intro receipt other
    rw [openClaim_bindClaim, hnone]
    by_cases hreceipt : receipt = claim.receiptId
    · by_cases hother : other = id
      · simp [ActionRegistry.bindClaim, hreceipt, hother]
      · simp [ActionRegistry.bindClaim, hreceipt, hother, Ne.symm hother]
    · simp [ActionRegistry.bindClaim, hreceipt, (hbooks receipt).1, Ne.symm hreceipt]
  · intro receipt origin
    simp only [openClaim_bindClaim, hnone]
    by_cases hreceipt : receipt = claim.receiptId
    · simp only [ActionRegistry.bindClaim, hreceipt, update_self, some.injEq]
      constructor
      · rintro rfl
        exact ⟨id, claim, by simp, rfl, rfl⟩
      · rintro ⟨other, claim', hclaim', -, rfl⟩
        split_ifs at hclaim'
        rw [some.inj hclaim']
    · simp [ActionRegistry.bindClaim, hreceipt, (hbooks receipt).2, Ne.symm hreceipt]

theorem StepEffect.consistent (heffect : StepEffect before op after output)
    (h : Consistent before) : Consistent after := by
  cases heffect with
  | unchanged => exact h
  | claimed hpend hfree => exact h.bindClaim hpend hfree _
  | settled hpend hidle => exact hidle.consistent
  | @registered after needed repliable hregisters hfresh hpend hask hresolved hbooks =>
    have hterm : after.resolved needed.id = none := by
      rw [hresolved, (supersede_spec h).2.2.2 needed.id hfresh.1, hfresh.2]
    have honly {id} {pending} (hcase : after.pending id = some pending) :
        id = needed.id ∧ pending.claim = none := by
      rw [hpend] at hcase
      split_ifs at hcase with hid
      exact ⟨hid, by rw [← some.inj hcase]⟩
    have hclaims (id) (claim) : after.openClaim id ≠ some claim := by
      intro hclaim
      obtain ⟨pending, hcase, hsome⟩ := openClaim_eq_some_iff.mp hclaim
      rw [(honly hcase).2] at hsome
      cases hsome
    constructor
    · intro id pending hcase
      rw [(honly hcase).1, hterm]
    · intro id pending hcase
      rw [hask, (honly hcase).1]
      rfl
    · intro receipt id
      simp [(hbooks receipt).1, hclaims]
    · intro receipt origin
      simp [(hbooks receipt).2, hclaims]

theorem keeps_consistent : Keeps registryStep Consistent :=
  fun _ _ _ _ h hstep ↦ (registryStep_effect h hstep).consistent h

/-- A terminal id stays terminal. -/
theorem StepEffect.resolved_isSome (heffect : StepEffect before op after output)
    (h : Consistent before) (hid : (before.resolved id).isSome) :
    (after.resolved id).isSome := by
  cases heffect with
  | unchanged => exact hid
  | claimed => exact hid
  | registered hregisters hfresh hpend hask hresolved =>
    rw [hresolved]
    exact (supersede_spec h).2.1 id hid
  | @settled _ _ pending resolution record hpend hidle hresolved hresol hfwd hop =>
    rw [hresolved]
    by_cases hsame : id = resolution.id
    · rw [hsame, update_self]
      rfl
    · rwa [update_of_ne hsame]

/-- A claimed id stays claimed until it is terminal. -/
theorem StepEffect.openClaim_isSome (heffect : StepEffect before op after output)
    (h : Consistent before) (hid : (before.openClaim id).isSome) :
    (after.resolved id).isSome ∨ (after.openClaim id).isSome := by
  obtain ⟨claim, hclaim⟩ := isSome_iff_exists.mp hid
  obtain ⟨pending, hpend, -⟩ := openClaim_eq_some_iff.mp hclaim
  cases heffect with
  | unchanged => exact .inr hid
  | claimed =>
    right
    rw [openClaim_bindClaim]
    split_ifs
    · rfl
    · exact hid
  | registered hregisters hfresh hpend' hask hresolved =>
    left
    rw [hresolved]
    exact (supersede_spec h).2.2.1 id (by rw [hpend]; rfl)
  | settled hpend' hidle hresolved =>
    left
    rw [hresolved, h.pending_unique hpend hpend', update_self]
    rfl

/-! ## Runs -/

/-- A step leaves every claimed action pending, settles it by its receipt, or supersedes it. -/
def SettledThroughClaim (transition : Transition ActionRegistry RegistryOp RegistryOutput) : Prop :=
  ∀ id claim, transition.before.openClaim id = some claim → transition.after.pending id = none →
    transition.op.settlesWith claim.receiptId = true ∨ transition.op.registers = true

/-- The contract of claims over a run. -/
structure RespectsClaims
    (transitions : List (Transition ActionRegistry RegistryOp RegistryOutput)) : Prop where
  resolvedOnce (id : String) : transitions.countP
    (fun transition ↦ transition.output.resolution.any fun frame ↦ frame.id == id) ≤ 1
  forwardedOnce (id : String) : transitions.countP
    (fun transition ↦ transition.output.forwarded.any fun claimed ↦ claimed.reply.id == id) ≤ 1
  settled : ∀ transition ∈ transitions, SettledThroughClaim transition
  receipts : ∀ transition ∈ transitions, ∀ receipt id,
    transition.after.claimActionId receipt = some id ↔
      ∃ claim, transition.after.openClaim id = some claim ∧ claim.receiptId = receipt
  origins : ∀ transition ∈ transitions, ∀ receipt origin,
    transition.after.claimOrigin receipt = some origin ↔
      ∃ id claim, transition.after.openClaim id = some claim ∧ claim.receiptId = receipt ∧
        origin = { connectionId := claim.connectionId, generation := claim.generation }

theorem resolved_at_most_once (ops : List RegistryOp) (id : String) :
    (trace registryStep new ops).countP
      (fun transition ↦ transition.output.resolution.any fun frame ↦ frame.id == id) ≤ 1 := by
  refine (countP_trace_le_one keeps_consistent
    (fun _ _ _ _ h hstep (hid : (ActionRegistry.resolved _ id).isSome) ↦
      (registryStep_effect h hstep).resolved_isSome h hid)
    (fun state op after output h hstep hevent ↦ ?_) consistent_new ops).1
  cases registryStep_effect h hstep with
  | unchanged hresol => simp [hresol] at hevent
  | registered =>
    simp [RegistryOutput.resolution] at hevent
  | claimed => simp [RegistryOutput.resolution] at hevent
  | settled hpend hidle hresolved hresol =>
    rw [hresol] at hevent
    obtain rfl := beq_iff_eq.mp hevent
    refine ⟨?_, ?_⟩
    · rw [h.tombstone hpend]
      exact Bool.false_ne_true
    · rw [hresolved, update_self]
      rfl

theorem forwarded_at_most_once (ops : List RegistryOp) (id : String) :
    (trace registryStep new ops).countP
      (fun transition ↦ transition.output.forwarded.any fun claimed ↦ claimed.reply.id == id) ≤ 1 := by
  have hspent (state) (op) (after)
      (output) (h : Consistent state)
      (hstep : registryStep state op = some (after, output))
      (hid : (state.resolved id).isSome ∨ (state.openClaim id).isSome) :
      (after.resolved id).isSome ∨ (after.openClaim id).isSome := by
    rcases hid with hid | hid
    · exact .inl ((registryStep_effect h hstep).resolved_isSome h hid)
    · exact (registryStep_effect h hstep).openClaim_isSome h hid
  refine (countP_trace_le_one keeps_consistent hspent (fun state op after output h hstep hevent ↦ ?_)
    consistent_new ops).1
  cases registryStep_effect h hstep with
  | unchanged hresol hfwd => simp [hfwd] at hevent
  | registered =>
    simp [RegistryOutput.forwarded] at hevent
  | settled hpend hidle hresolved hresol hfwd => simp [hfwd] at hevent
  | claimed hpend hfree =>
    obtain rfl := beq_iff_eq.mp hevent
    refine ⟨?_, .inr (by rw [openClaim_bindClaim, if_pos rfl]; rfl)⟩
    rw [h.tombstone hpend, openClaim, hpend, bind_some, hfree]
    simp

/-- In no run is a terminal action pending again. -/
theorem terminal_never_pending (ops : List RegistryOp) :
    (trace registryStep new ops).Pairwise fun earlier later ↦
      ∀ id, (earlier.after.resolved id).isSome → later.before.pending id = none := by
  have hkeeps (state op after output) (_ : True) (h : Consistent state)
      (hstep : registryStep state op = some (after, output)) :
      Consistent after ∧ ∀ id, (state.resolved id).isSome → (after.resolved id).isSome :=
    ⟨keeps_consistent _ _ _ _ h hstep, fun _ ↦ (registryStep_effect h hstep).resolved_isSome h⟩
  obtain ⟨hall, hpairs⟩ := pairwise_trace (fun _ _ h ↦ h) (fun h h' id hid ↦ h' id (h id hid))
    hkeeps consistent_new fun _ _ ↦ trivial
  refine hpairs.imp_of_mem fun _ hmem h id hid ↦ eq_none_iff_forall_ne_some.mpr fun _ hpend ↦ ?_
  simpa [(hall _ hmem).1.tombstone hpend] using h id hid

/-- A step that does not bypass a claim settles claimed actions through their claims. -/
theorem StepEffect.settledThroughClaim
    (heffect : StepEffect before op after output) (h : Consistent before)
    (hbypass : op.bypassesClaim before = false) :
    SettledThroughClaim ⟨before, op, output, after⟩ := by
  intro id claim hclaim hterm
  obtain ⟨pending, hpend, hsome⟩ := openClaim_eq_some_iff.mp hclaim
  cases heffect with
  | unchanged =>
    rw [hpend] at hterm
    cases hterm
  | claimed hpend' =>
    obtain rfl := h.pending_unique hpend hpend'
    simp [bindClaim] at hterm
  | registered hregisters => exact .inr hregisters
  | settled hpend' hidle hresolved hresol hfwd hop =>
    obtain rfl := h.pending_unique hpend hpend'
    rw [hpend] at hpend'
    cases hpend'
    rcases hop claim hsome with hreceipt | hdirect
    · exact .inl hreceipt
    · rw [hbypass] at hdirect
      cases hdirect

/-- A reply accepted over a claim makes the action terminal. -/
theorem applyReply_of_acceptsOverClaim (h : Consistent before)
    (haccepts : before.acceptsOverClaim reply authorized resolverAvailable) :
    (∃ claim, before.openClaim reply.id = some claim) ∧
      (before.applyReply reply authorized resolverAvailable).1.pending reply.id = none := by
  simp only [acceptsOverClaim, Bool.and_eq_true, Option.any_eq_true] at haccepts
  obtain ⟨⟨rfl, rfl⟩, pending, hpend, hrepliable, hclaim⟩ := haccepts
  obtain ⟨claim, hclaim⟩ := isSome_iff_exists.mp hclaim
  refine ⟨⟨claim, openClaim_eq_some_iff.mpr ⟨pending, hpend, hclaim⟩⟩, ?_⟩
  have hfwd : before.classifyReply reply true true = .forward := by
    simp [classifyReply, h.tombstone hpend, hpend, hrepliable]
  obtain ⟨after, hres, hidle, -⟩ := resolveInternal_of_pending h hpend .client
    (some reply.answer) reply.idempotencyKey
  rw [applyReply, hfwd]
  simp only [hres]
  exact hidle.pending reply.id

theorem not_settledThroughClaim_of_bypassesClaim (h : Consistent before)
    (hstep : registryStep before op = some (after, output))
    (hbypass : op.bypassesClaim before) :
    ¬ SettledThroughClaim ⟨before, op, output, after⟩ := by
  intro hsettled
  cases op with
  | applyReply reply =>
    obtain ⟨⟨claim, hclaim⟩, hterm⟩ := applyReply_of_acceptsOverClaim h hbypass
    obtain ⟨rfl, -⟩ := hstep
    simpa [RegistryOp.settlesWith, RegistryOp.registers] using hsettled reply.id claim hclaim hterm
  | applyReplyIfDelivered delivered reply =>
    simp only [RegistryOp.bypassesClaim, Bool.and_eq_true, Bool.not_eq_true'] at hbypass
    obtain ⟨⟨claim, hclaim⟩, hterm⟩ := applyReply_of_acceptsOverClaim h hbypass.2
    simp only [registryStep, applyReplyIfDelivered, hbypass.1, Bool.false_eq_true, if_false,
      some.injEq, Prod.mk.injEq] at hstep
    obtain ⟨rfl, -⟩ := hstep
    simpa [RegistryOp.settlesWith, RegistryOp.registers] using hsettled reply.id claim hclaim hterm
  | _ => simp [RegistryOp.bypassesClaim] at hbypass

/-- A run of the registry respects claims exactly when no step applies an acceptable reply to an
action whose claim is open. -/
theorem respectsClaims_iff (ops : List RegistryOp) : RespectsClaims (trace registryStep new ops) ↔
      ∀ transition ∈ trace registryStep new ops,
        transition.op.bypassesClaim transition.before = false := by
  constructor
  · intro hrun transition hmem
    obtain ⟨hstep, hbefore, -⟩ := of_mem_trace keeps_consistent consistent_new hmem
    by_contra hbypass
    rw [Bool.not_eq_false] at hbypass
    exact not_settledThroughClaim_of_bypassesClaim hbefore hstep hbypass
      (hrun.settled transition hmem)
  · intro hrun
    refine ⟨resolved_at_most_once ops, forwarded_at_most_once ops, fun transition hmem ↦ ?_,
      fun transition hmem ↦ ?_, fun transition hmem ↦ ?_⟩
    · obtain ⟨hstep, hbefore, -⟩ := of_mem_trace keeps_consistent consistent_new hmem
      exact (registryStep_effect hbefore hstep).settledThroughClaim hbefore (hrun transition hmem)
    · exact (of_mem_trace keeps_consistent consistent_new hmem).2.2.receipts
    · exact (of_mem_trace keeps_consistent consistent_new hmem).2.2.origins

/-- An ask with the given id and no controls. -/
def plainAsk (id : String) : ActionNeeded where
  id := id
  kind := .ask
  sessionId := "session"
  question := some "Proceed?"
  options := some ["Yes", "No"]
  recommendedIndex := none
  controls := []
  summary := none

def indexReply (id : String) (index : UInt32) : Reply where
  id := id
  answer := .index index
  token := "token"
  idempotencyKey := none

/-- One client's reply is claimed for the host, and another client's reply settles the action. -/
theorem applyReply_settles_claimed_action : ¬ RespectsClaims (trace registryStep new
      [.registerAsk (plainAsk "a") true, .claimReply (indexReply "a" 0) "first" "1" true true,
       .applyReply (indexReply "a" 1) true true]) := by
  intro hrun
  have hlast := hrun.settled _ (mem_cons_of_mem _ (mem_cons_of_mem _ mem_cons_self))
  exact absurd (hlast "a" _ rfl rfl) (by decide)

end GajaeCode.Sdk
