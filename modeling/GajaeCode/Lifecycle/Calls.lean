import GajaeCode.Lifecycle.Compaction
import GajaeCode.Machine.Persistent

/-!
# Calls of an open ledger

What `append` can do is said once; `begin`, `transition` and `migrateIdentity` append accepted rows
for unknown identities and later rows for known ones, so they keep the invariant of a process whose
rows can be read back.
-/

namespace GajaeCode.Lifecycle

open Text Json Chain Machine List Option

variable {threw : LifecycleLedger → Prop} {next : LifecycleLedgerEntry} {state : LifecycleState}

/-! ## Outcomes of the parts -/

section

variable {limits : LifecycleLedgerLimits} {clock : ℕ → Timestamp} {ledger after : LifecycleLedger}
  {entry : LifecycleLedgerEntry}

/-- All writes of the current operation have the property. -/
def WritesAre (property : FileWrite → Prop) (ledger : LifecycleLedger) : Prop :=
  ∀ point ∈ ledger.points, property point.2

/-- What `append` can do, and whether it returns. -/
inductive AppendOutcome (limits : LifecycleLedgerLimits) (entry : LifecycleLedgerEntry)
    (ledger : LifecycleLedger) : Bool → LifecycleLedger → Prop
  | refused : AppendOutcome limits entry ledger false ledger
  | row : AppendOutcome limits entry ledger true (ledger.appended entry)
  | replacing (plan : Compaction) (hknown : (latestOf ledger.byIdentity entry.identity).isSome)
      (hplan : IsPlan ledger (some entry) plan) :
      AppendOutcome limits entry ledger true (ledger.compactedTo plan)
  | compactedRow (plan : Compaction) (hunknown : latestOf ledger.byIdentity entry.identity = none)
      (hplan : IsPlan ledger none plan) :
      AppendOutcome limits entry ledger true ((ledger.compactedTo plan).appended entry)
  | compactedRefused (plan : Compaction) (hunknown : latestOf ledger.byIdentity entry.identity = none)
      (hplan : IsPlan ledger none plan) :
      AppendOutcome limits entry ledger false (ledger.compactedTo plan)

theorem compact_triple (limits : LifecycleLedgerLimits) (replacement : Option LifecycleLedgerEntry)
    (incoming : Option Incoming) (ledger : LifecycleLedger) :
    Triple (· = ledger) (compact limits replacement incoming)
      (fun _ after ↦ ∃ plan, IsPlan ledger replacement plan ∧ after = ledger.compactedTo plan)
      (· = ledger) := by
  apply Triple.get_bind_self
  cases hplan : planCompaction limits ledger replacement incoming with
  | error => exact Triple.throw fun _ h ↦ h
  | ok plan =>
    intro after hafter
    rw [hafter]
    exact ⟨plan, isPlan_of_planCompaction hplan, rfl⟩

theorem appendRow_triple (entry : LifecycleLedgerEntry) (ledger : LifecycleLedger) :
    Triple (· = ledger) (appendRow entry) (fun _ after ↦ after = ledger.appended entry) threw := by
  intro state hstate
  rw [hstate]
  rfl

theorem append_triple (limits : LifecycleLedgerLimits) (entry : LifecycleLedgerEntry)
    (ledger : LifecycleLedger) :
    Triple (· = ledger) (append limits entry) (fun _ ↦ AppendOutcome limits entry ledger true)
      (AppendOutcome limits entry ledger false) := by
  have hrefused : ∀ state, state = ledger → AppendOutcome limits entry ledger false state := by
    rintro _ rfl
    exact .refused
  refine Triple.ite (fun _ ↦ Triple.throw hrefused) fun _ ↦ ?_
  refine Triple.ite (fun _ ↦ Triple.throw hrefused) fun _ ↦ Triple.get_bind_self ?_
  refine Triple.ite (fun _ ↦ ?_) fun _ ↦ Triple.ite (fun hknown ↦ ?_) fun hunknown ↦ ?_
  · apply (appendRow_triple entry ledger).weaken (fun _ after hafter ↦ ?_) fun _ h ↦ h
    rw [hafter]
    exact .row
  · apply (compact_triple limits (some entry) none ledger).weaken (fun _ after hafter ↦ ?_) hrefused
    obtain ⟨plan, hplan, rfl⟩ := hafter
    exact .replacing plan hknown hplan
  · have hnone : latestOf ledger.byIdentity entry.identity = none := by simpa using hunknown
    have hcompact := (compact_triple limits none (some ⟨lineLength entry, 1⟩) ledger).weaken
      (fun _ _ h ↦ h) hrefused
    refine hcompact.bind fun _ ↦ Triple.get_bind fun state hstate ↦ ?_
    obtain ⟨plan, hplan, rfl⟩ := hstate
    refine Triple.ite (fun _ ↦ ?_) fun _ ↦ Triple.throw_self (.compactedRefused plan hnone hplan)
    apply (appendRow_triple entry _).weaken (fun _ after hafter ↦ ?_) fun _ h ↦ h
    rw [hafter]
    exact .compactedRow plan hnone hplan

/-- An appended row is the latest one of its identity; others stay or are dropped. -/
theorem AppendOutcome.latestOf_after (h : AppendOutcome limits entry ledger true after)
    (ident : JsString) :
    if entry.identity = ident then latestOf after.byIdentity ident = some entry
    else latestOf after.byIdentity ident = latestOf ledger.byIdentity ident ∨
      latestOf after.byIdentity ident = none := by
  cases h with
  | row =>
    change if _ then latestOf (setLatest ledger.byIdentity entry) ident = _ else
      latestOf (setLatest ledger.byIdentity entry) ident = _ ∨ _
    rw [latestOf_setLatest]
    split_ifs with hsame
    · rfl
    · exact Or.inl rfl
  | replacing plan _ hplan =>
    change if _ then latestOf plan.compacted ident = _ else
      latestOf plan.compacted ident = _ ∨ latestOf plan.compacted ident = _
    rw [hplan.latestOf_compacted, latestOf_replacedLatest]
    split_ifs with hsame hevicted hevicted
    · obtain ⟨latest, hlatest, heq⟩ := mem_map.mp hevicted
      exact absurd (hsame.trans heq.symm) ((hplan.evicted latest hlatest).2 entry rfl)
    · rw [filter_some, if_pos (decide_eq_true hsame), some_or]
    · exact Or.inr rfl
    · rw [filter_some, if_neg (by simpa using hsame), none_or]
      exact Or.inl rfl
  | compactedRow plan _ hplan =>
    change if _ then latestOf (setLatest plan.compacted entry) ident = _ else
      latestOf (setLatest plan.compacted entry) ident = _ ∨
        latestOf (setLatest plan.compacted entry) ident = _
    rw [latestOf_setLatest, hplan.latestOf_compacted, latestOf_replacedLatest]
    split_ifs with hsame hevicted
    · rfl
    · exact Or.inr rfl
    · exact Or.inl rfl

end

/-! ## Calls of an open ledger -/

section

variable {sha256 : JsString → JsString} {limits : LifecycleLedgerLimits} {clock : ℕ → Timestamp}
  {replaced : List JsString} {ledger after : LifecycleLedger} {entry : LifecycleLedgerEntry}

variable (sha256 replaced) in
/-- As long as the rows of the current operation can be read back, the invariant holds. -/
def Serves (ledger : LifecycleLedger) : Prop :=
  WritesAre (FileWrite.AreReadable sha256) ledger → LedgerInv sha256 replaced ledger ∧ IsMarked ledger

theorem WritesAre.of_append {property : FileWrite → Prop} {points : List (Durable × FileWrite)}
    {point : Durable × FileWrite} (h : ∀ other ∈ points ++ [point], property other.2) :
    (∀ other ∈ points, property other.2) ∧ property point.2 := by
  rw [forall_mem_append, forall_mem_singleton] at h
  exact h

theorem Serves.appended (h : Serves sha256 replaced ledger)
    (hnew : entry.state = .accepted → latestOf ledger.byIdentity entry.identity = none)
    (hknown : entry.state ≠ .accepted → (latestOf ledger.byIdentity entry.identity).isSome) :
    Serves sha256 replaced (ledger.appended entry) := by
  intro hwrites
  obtain ⟨hold, hlast⟩ := WritesAre.of_append hwrites
  obtain ⟨hinv, hmarked⟩ := h hold
  exact ⟨hinv.appended (hlast entry (mem_singleton_self entry)) hknown, hmarked.appended hnew⟩

theorem Serves.compactedTo (h : Serves sha256 replaced ledger)
    {replacement : Option LifecycleLedgerEntry} {plan : Compaction} (hplan : IsPlan ledger replacement plan)
    (hrepl : ∀ row ∈ replacement, IsBegun ledger.byIdentity row.identity → row.state ≠ .accepted) :
    Serves sha256 replaced (ledger.compactedTo plan) := by
  intro hwrites
  obtain ⟨hold, hlast⟩ := WritesAre.of_append hwrites
  obtain ⟨hinv, hmarked⟩ := h hold
  have hinv' := hinv.compactedTo hplan hmarked hrepl hlast
  exact ⟨hinv', hmarked.compactedTo hplan hrepl hinv'.nodup⟩

/-- Accepted rows are appended for unknown identities, later rows for known ones. -/
theorem AppendOutcome.serves {returned : Bool} (h : AppendOutcome limits entry ledger returned after)
    (hserves : Serves sha256 replaced ledger)
    (hnew : entry.state = .accepted → latestOf ledger.byIdentity entry.identity = none)
    (hknown : entry.state ≠ .accepted → (latestOf ledger.byIdentity entry.identity).isSome) :
    Serves sha256 replaced after := by
  cases h with
  | refused => exact hserves
  | row => exact hserves.appended hnew hknown
  | replacing plan hsome hplan =>
    refine hserves.compactedTo hplan fun row hrow _ hacc ↦ ?_
    cases hrow
    rw [hnew hacc] at hsome
    cases hsome
  | compactedRow plan hnone hplan =>
    have hcompacted := hserves.compactedTo hplan (by simp)
    refine hcompacted.appended (fun _ ↦ ?_) fun hstate ↦ ?_
    · change latestOf plan.compacted entry.identity = none
      rw [hplan.latestOf_compacted]
      split_ifs
      · rfl
      · exact hnone
    · have hsome := hknown hstate
      rw [hnone] at hsome
      cases hsome
  | compactedRefused plan _ hplan => exact hserves.compactedTo hplan (by simp)

theorem append_serves (h : Serves sha256 replaced ledger)
    (hnew : entry.state = .accepted → latestOf ledger.byIdentity entry.identity = none)
    (hknown : entry.state ≠ .accepted → (latestOf ledger.byIdentity entry.identity).isSome) :
    Triple (· = ledger) (append limits entry) (fun _ after ↦ Serves sha256 replaced after ∧
      AppendOutcome limits entry ledger true after) (Serves sha256 replaced) :=
  (append_triple limits entry ledger).weaken
    (fun _ _ hafter ↦ ⟨hafter.serves h hnew hknown, hafter⟩) fun _ hafter ↦ hafter.serves h hnew hknown

theorem Serves.tick (h : Serves sha256 replaced ledger) (ticks : ℕ) :
    Serves sha256 replaced { ledger with ticks } := by
  intro hwrites
  obtain ⟨hinv, hmarked⟩ := h hwrites
  exact ⟨⟨hinv.durable, hinv.closed, hinv.known, hinv.nodup, hinv.points⟩, hmarked⟩

theorem readClock_bind_triple {answer : Type} {post : answer → LifecycleLedger → Prop}
    {rest : Timestamp → LedgerM answer}
    (h : ∀ now, Triple (· = { ledger with ticks := ledger.ticks + 1 }) (rest now) post threw) :
    Triple (· = ledger) (readClock clock >>= rest) post threw := by
  rintro _ rfl
  exact h _ _ rfl

theorem begin_triple (h : Serves sha256 replaced ledger) (ident requestHash : JsString)
    (metadata : BeginMetadata) :
    Triple (· = ledger) («begin» limits clock ident requestHash metadata)
      (fun _ ↦ Serves sha256 replaced) (Serves sha256 replaced) := by
  apply Triple.get_bind_self
  cases hlatest : latestOf ledger.byIdentity ident with
  | some => exact Triple.pure_self h
  | none =>
    exact readClock_bind_triple fun now ↦ Triple.bind (append_serves (h.tick _) (fun _ ↦ hlatest)
      fun hstate ↦ absurd rfl hstate) fun _ ↦ Triple.pure fun _ h ↦ h.1

/-! ### Transitions -/

variable (sha256) in
theorem keepUnresolved_spec (prev next : LifecycleLedgerEntry) :
    (keepUnresolved sha256 prev next).identity = next.identity ∧
      (keepUnresolved sha256 prev next).state = next.state := by
  rw [keepUnresolved]
  split_ifs <;> exact ⟨rfl, rfl⟩

theorem sealResponse_spec {fields : Members} {sealed : LifecycleLedgerEntry}
    (h : sealResponse sha256 fields next = .ok sealed) :
    sealed.identity = next.identity ∧ sealed.state = next.state := by
  rw [sealResponse] at h
  split_ifs at h
  · split at h
    · cases h
    · split_ifs at h
      cases h
      exact ⟨rfl, rfl⟩
  · cases h
    exact ⟨rfl, rfl⟩
  · cases h
    exact ⟨rfl, rfl⟩

variable (sha256) in
theorem sealEffects_spec (next : LifecycleLedgerEntry) :
    (sealEffects sha256 next).identity = next.identity ∧ (sealEffects sha256 next).state = next.state := by
  rw [sealEffects]
  split
  · split_ifs <;> exact ⟨rfl, rfl⟩
  · exact ⟨rfl, rfl⟩

/-- The next row has the identity of the previous one and the state asked for. -/
theorem nextRow_spec {prev : LifecycleLedgerEntry} {fields : Members}
    {now : Timestamp} (h : nextRow sha256 prev state fields now = .ok next) :
    next.identity = prev.identity ∧ next.state = state := by
  rw [nextRow] at h
  have hunresolved := keepUnresolved_spec sha256 prev
    { prev with state, ts := now, members := prev.members.spread fields }
  cases hsealed : sealResponse sha256 fields (keepUnresolved sha256 prev
    { prev with state, ts := now, members := prev.members.spread fields }) with
  | error error =>
    rw [hsealed] at h
    cases h
  | ok sealed =>
    rw [hsealed] at h
    cases h
    have hresponse := sealResponse_spec hsealed
    have heffects := sealEffects_spec sha256 sealed
    exact ⟨heffects.1.trans (hresponse.1.trans hunresolved.1),
      heffects.2.trans (hresponse.2.trans hunresolved.2)⟩

section

variable (h : Serves sha256 replaced ledger)

include h

theorem transition_triple (ident : JsString) (hstate : state ≠ .accepted) (fields : Members) :
    Triple (· = ledger) (transition sha256 limits clock ident state fields)
      (fun _ ↦ Serves sha256 replaced) (Serves sha256 replaced) := by
  apply Triple.get_bind_self
  cases hlatest : latestOf ledger.byIdentity ident with
  | none => exact Triple.throw_self h
  | some prev =>
    refine Triple.ite (fun _ ↦ Triple.pure_self h) fun _ ↦ readClock_bind_triple fun now ↦ ?_
    cases hnext : nextRow sha256 prev state fields now with
    | error => exact Triple.throw_self (h.tick _)
    | ok next =>
      obtain ⟨hident, hnextState⟩ := nextRow_spec hnext
      have hknown : (latestOf ledger.byIdentity next.identity).isSome := by
        rw [hident, identity_of_latestOf hlatest, hlatest]
        rfl
      have hnot : next.state ≠ .accepted := by rwa [hnextState]
      exact Triple.bind (append_serves (h.tick _) (fun hacc ↦ absurd hacc hnot) fun _ ↦ hknown)
        fun _ ↦ Triple.pure fun _ h ↦ h.1

/-! ### Migration -/

/-- The latest row of a retired identity is the row itself, unless it was dropped meanwhile. -/
theorem retire_triple (metadata : MigrateMetadata)
    (hlatest : latestOf ledger.byIdentity entry.identity = some entry ∨
      latestOf ledger.byIdentity entry.identity = none) :
    Triple (· = ledger) (retire limits clock entry metadata) (fun _ ↦ Serves sha256 replaced)
      (Serves sha256 replaced) := by
  refine Triple.ite (fun _ ↦ readClock_bind_triple fun now ↦ ?_) fun _ ↦ Triple.pure_self h
  apply Triple.weaken (compact_triple limits _ none _)
  · intro _ after hafter
    obtain ⟨plan, hplan, rfl⟩ := hafter
    refine (h.tick _).compactedTo hplan fun row hrow hbegun ↦ ?_
    cases hrow
    obtain ⟨latest, hfound, hstate⟩ := hbegun
    rcases hlatest with hlatest | hlatest
    · obtain rfl := some.inj (hlatest.symm.trans hfound)
      exact hstate
    · exact absurd (hlatest.symm.trans hfound) (by simp)
  · rintro _ rfl
    exact h.tick _

theorem copyRow_triple {target : JsString} (metadata : MigrateMetadata)
    (anchor : LifecycleLedgerEntry) (htarget : (latestOf ledger.byIdentity target).isSome)
    (hne : target ≠ entry.identity)
    (hlatest : latestOf ledger.byIdentity entry.identity = some entry ∨
      latestOf ledger.byIdentity entry.identity = none) :
    Triple (· = ledger) (copyRow limits clock entry target metadata anchor)
      (fun _ after ↦ Serves sha256 replaced after ∧
        (latestOf after.byIdentity entry.identity = some entry ∨
          latestOf after.byIdentity entry.identity = none)) (Serves sha256 replaced) := by
  refine Triple.ite (fun _ ↦ Triple.pure_self ⟨h, hlatest⟩) fun hstate ↦ ?_
  refine readClock_bind_triple fun now ↦ Triple.bind (append_serves (h.tick _)
    (fun hacc ↦ absurd hacc hstate) fun _ ↦ htarget) fun _ ↦ Triple.pure fun after hafter ↦ ?_
  have hrow := hafter.2.latestOf_after entry.identity
  rw [if_neg hne] at hrow
  refine ⟨hafter.1, ?_⟩
  rcases hrow with hrow | hrow
  · rw [hrow]
    exact hlatest
  · exact .inr hrow

theorem migrateIdentity_triple (source target : JsString) (metadata : MigrateMetadata) :
    Triple (· = ledger) (migrateIdentity limits clock source target metadata)
      (fun _ ↦ Serves sha256 replaced) (Serves sha256 replaced) := by
  apply Triple.get_bind_self
  cases hsource : latestOf ledger.byIdentity source with
  | none => exact Triple.pure_self h
  | some row =>
    obtain rfl := identity_of_latestOf hsource
    cases htarget : latestOf ledger.byIdentity target with
    | some =>
      exact (retire_triple h metadata (.inl hsource)).bind fun _ ↦ Triple.pure fun _ h ↦ h
    | none =>
      have hne : target ≠ row.identity := by
        rintro rfl
        exact absurd (htarget.symm.trans hsource) (by simp)
      refine readClock_bind_triple fun now ↦ Triple.bind (append_serves (h.tick _)
        (fun _ ↦ htarget) fun hother ↦ absurd rfl hother) fun _ ↦ Triple.of_forall fun state hstate ↦ ?_
      have hlatest := hstate.2.latestOf_after target
      rw [if_pos rfl] at hlatest
      have hrow := hstate.2.latestOf_after row.identity
      rw [if_neg hne] at hrow
      refine Triple.bind (copyRow_triple hstate.1 metadata _ ?_ hne ?_) fun _ ↦ ?_
      · rw [hlatest]
        rfl
      · exact hrow.imp_left fun heq ↦ heq.trans hsource
      · refine Triple.of_forall fun state hstate ↦ ?_
        exact (retire_triple hstate.1 metadata hstate.2).bind fun _ ↦ Triple.pure fun _ h ↦ h

end

end

end GajaeCode.Lifecycle
