import Mathlib.Data.Nat.Notation
import Mathlib.Data.Option.Basic
import Mathlib.Tactic.SplitIfs

/-!
# Currentness of attempt scopes

Every attempt runs under a scope that its lineage has minted. The authority for a side lineage is
registered and later unregistered; a lineage that was retired stays in the maps until there are more
of them than the cap. Registering a lineage again does not take back that it was retired, and an
unregister function knows its registration only by the authority it was made for. Apart from these
two, a scope is current exactly when it is the latest one of a lineage that is still registered.
-/

namespace GajaeCode.Agent

open List Option Function

inductive AttemptLineage
  | main
  | side (name : String)
  deriving DecidableEq

structure AttemptScope where
  attemptId : String
  generation : ℕ
  lineage : AttemptLineage
  deriving DecidableEq

structure LineageCurrentness where
  lineage : AttemptLineage
  current : ℕ
  currentAttemptId : Option String

def createLineageCurrentness (lineage : AttemptLineage) : LineageCurrentness := ⟨lineage, 0, none⟩

namespace LineageCurrentness

variable (auth : LineageCurrentness)

def isCurrent (scope : AttemptScope) : Bool :=
  scope.lineage = auth.lineage && scope.generation = auth.current &&
    some scope.attemptId = auth.currentAttemptId

def advance (attemptId : String) : LineageCurrentness :=
  ⟨auth.lineage, auth.current + 1, some attemptId⟩

def latest : Option AttemptScope :=
  auth.currentAttemptId.map (⟨·, auth.current, auth.lineage⟩)

theorem isCurrent_iff {auth : LineageCurrentness} {scope : AttemptScope} :
    auth.isCurrent scope ↔ auth.latest = some scope := by
  obtain ⟨lineage, cur, id⟩ := auth
  obtain ⟨attemptId, gen, other⟩ := scope
  cases id with
  | none => simp [isCurrent, latest]
  | some id =>
    simp only [isCurrent, latest, Bool.and_eq_true, decide_eq_true_eq, some.injEq,
      map_some, AttemptScope.mk.injEq]
    exact ⟨fun h ↦ ⟨h.2.symm, h.1.2.symm, h.1.1.symm⟩, fun h ↦ ⟨⟨h.2.2.symm, h.2.1.symm⟩, h.1.symm⟩⟩

end LineageCurrentness

/-- What the authority closes over: `auths` are the objects that were created, the first of them is
`mainAuth`, and `unregisters` what the functions handed out by `registerSide` close over. -/
structure AttemptScopeAuthority where
  auths : List LineageCurrentness
  sideAuths : AttemptLineage → Option ℕ
  sideOrder : List AttemptLineage
  retiredSet : AttemptLineage → Bool
  unregisters : List (AttemptLineage × ℕ)

def sideLruCap : ℕ := 1024

def createAttemptScopeAuthority : AttemptScopeAuthority :=
  ⟨[createLineageCurrentness .main], fun _ ↦ none, [], fun _ ↦ false, []⟩

namespace AttemptScopeAuthority

variable (authority : AttemptScopeAuthority)

/-- The loop of `evictRetiredIfNeeded`; every round takes one lineage out of the order. -/
def evictRetired : ℕ → AttemptScopeAuthority → AttemptScopeAuthority
  | 0, authority => authority
  | fuel + 1, authority =>
      if authority.sideOrder.length ≤ sideLruCap then authority
      else match authority.sideOrder.find? authority.retiredSet with
        | none => authority
        | some removed => evictRetired fuel { authority with
            sideOrder := authority.sideOrder.erase removed
            sideAuths := Function.update authority.sideAuths removed none
            retiredSet := Function.update authority.retiredSet removed false }

def evictRetiredIfNeeded : AttemptScopeAuthority :=
  evictRetired authority.sideOrder.length authority

def registerSide (lineage : AttemptLineage) (auth : ℕ) : AttemptScopeAuthority :=
  evictRetiredIfNeeded { authority with
    sideAuths := Function.update authority.sideAuths lineage (some auth)
    sideOrder := (if (authority.sideAuths lineage).isSome then authority.sideOrder.erase lineage
      else authority.sideOrder) ++ [lineage]
    unregisters := authority.unregisters ++ [(lineage, auth)] }

/-- A call of the function that a `registerSide` has returned. -/
def unregister (token : ℕ) : AttemptScopeAuthority :=
  match authority.unregisters[token]? with
  | none => authority
  | some (lineage, auth) =>
      if authority.sideAuths lineage = some auth then
        evictRetiredIfNeeded { authority with
          retiredSet := Function.update authority.retiredSet lineage true }
      else authority

def isCurrent (scope : AttemptScope) : Bool :=
  if scope.lineage = .main then authority.auths[0]?.any (·.isCurrent scope)
  else if authority.retiredSet scope.lineage then false
  else match authority.sideAuths scope.lineage with
    | none => false
    | some auth => authority.auths[auth]?.any (·.isCurrent scope)

def create (lineage : AttemptLineage) : AttemptScopeAuthority :=
  { authority with auths := authority.auths ++ [createLineageCurrentness lineage] }

def advance (auth : ℕ) (attemptId : String) : AttemptScopeAuthority :=
  { authority with auths := authority.auths.modify auth (·.advance attemptId) }

/-- `mintFor(lineage, auth)` with the attempt id it draws. -/
def mintFor (auth : ℕ) (attemptId : String) : Option AttemptScope :=
  authority.auths[auth]?.bind fun object ↦ (object.advance attemptId).latest

/-- The authority whose latest scope is current in a lineage. -/
def holder (lineage : AttemptLineage) : Option ℕ :=
  if authority.retiredSet lineage then none else authority.sideAuths lineage

end AttemptScopeAuthority

/-! ## Runs -/

/-- An authority with the latest scope of each of its objects, and with the latest registration of
each lineage and its object, unless it was unregistered. -/
structure AttemptRun where
  authority : AttemptScopeAuthority
  minted : ℕ → Option AttemptScope
  registered : AttemptLineage → Option (ℕ × ℕ)

namespace AttemptRun

variable (run : AttemptRun)

def create (lineage : AttemptLineage) : AttemptRun :=
  { run with authority := run.authority.create lineage }

def advance (auth : ℕ) (attemptId : String) : AttemptRun :=
  { run with
    authority := run.authority.advance auth attemptId
    minted := Function.update run.minted auth (run.authority.mintFor auth attemptId) }

def registerSide (lineage : AttemptLineage) (auth : ℕ) : AttemptRun :=
  { run with
    authority := run.authority.registerSide lineage auth
    registered := Function.update run.registered lineage
      (some (run.authority.unregisters.length, auth)) }

def unregister (token : ℕ) : AttemptRun :=
  match run.authority.unregisters[token]? with
  | none => run
  | some (lineage, _) => { run with
      authority := run.authority.unregister token
      registered := Function.update run.registered lineage
        ((run.registered lineage).filter fun entry ↦ entry.1 ≠ token) }

/-- The scope is the latest of its lineage, and the lineage is registered unless it is the main one. -/
def IsLatest (scope : AttemptScope) : Prop :=
  ∃ auth, run.minted auth = some scope ∧
    if scope.lineage = .main then auth = 0
    else (run.registered scope.lineage).map Prod.snd = some auth

def start : AttemptRun := ⟨createAttemptScopeAuthority, fun _ ↦ none, fun _ ↦ none⟩

end AttemptRun

/-- `create` and `advance` are what a caller does with authorities of its own. -/
inductive AttemptCall
  | mintMain (attemptId : String)
  | advanceMain (attemptId : String)
  | mintSide (name attemptId : String)
  | create (lineage : AttemptLineage)
  | advance (auth : ℕ) (attemptId : String)
  | registerSide (lineage : AttemptLineage) (auth : ℕ)
  | unregister (token : ℕ)

namespace AttemptCall

def apply (run : AttemptRun) : AttemptCall → AttemptRun
  | mintMain attemptId => run.advance 0 attemptId
  -- The scope that `advanceMain` mints is handed to nobody.
  | advanceMain attemptId => run.advance 0 attemptId
  | mintSide name attemptId =>
      let auth := run.authority.auths.length
      ((run.create (.side name)).registerSide (.side name) auth).advance auth attemptId
  | create lineage => run.create lineage
  | advance auth attemptId => run.advance auth attemptId
  | registerSide lineage auth => run.registerSide lineage auth
  | unregister token => run.unregister token

def registers : AttemptCall → Option AttemptLineage
  | mintSide name _ => some (.side name)
  | registerSide lineage _ => some lineage
  | _ => none

/-- No lineage is registered while it is retired, and no unregister function of an earlier
registration is called while the lineage is registered again for the same authority. -/
def Meets (run : AttemptRun) : AttemptCall → Prop
  | unregister token => ∀ lineage auth, run.authority.unregisters[token]? = some (lineage, auth) →
      ∀ latest, run.registered lineage = some (latest, auth) → latest = token
  | call => ∀ lineage, call.registers = some lineage → run.authority.retiredSet lineage = false

end AttemptCall

/-- The runs in which every call meets the condition. -/
inductive Guarded : AttemptRun → Prop
  | start : Guarded .start
  | call {run : AttemptRun} (h : Guarded run) (call : AttemptCall) (hmeets : call.Meets run) :
      Guarded (call.apply run)

/-! ## What the authority keeps -/

open AttemptScopeAuthority

variable {authority : AttemptScopeAuthority} {run : AttemptRun} {lineage : AttemptLineage}
  {auth token : ℕ} {attemptId : String}

/-- Only retired lineages are evicted. -/
theorem evictRetired_spec (fuel : ℕ) : (evictRetired fuel authority).auths = authority.auths ∧
      (evictRetired fuel authority).unregisters = authority.unregisters ∧
      (evictRetired fuel authority).holder = authority.holder := by
  induction fuel generalizing authority with
  | zero => exact ⟨rfl, rfl, rfl⟩
  | succ fuel ih =>
    rw [evictRetired]
    split_ifs
    · exact ⟨rfl, rfl, rfl⟩
    · cases hfind : authority.sideOrder.find? authority.retiredSet with
      | none => exact ⟨rfl, rfl, rfl⟩
      | some removed =>
        obtain ⟨hauths, hunregisters, hholder⟩ := @ih { authority with
          sideOrder := authority.sideOrder.erase removed
          sideAuths := update authority.sideAuths removed none
          retiredSet := update authority.retiredSet removed false }
        refine ⟨hauths, hunregisters, hholder.trans (funext fun lineage ↦ ?_)⟩
        have hretired : authority.retiredSet removed := find?_some hfind
        by_cases h : lineage = removed
        · simp [holder, h, hretired]
        · simp [holder, h]

theorem sideAuths_of_holder (h : authority.holder lineage = some auth) :
    authority.sideAuths lineage = some auth := by
  rw [holder] at h
  split_ifs at h
  exact h

theorem isCurrent_iff_holder (scope : AttemptScope) : authority.isCurrent scope ↔
    ∃ auth, authority.auths[auth]?.bind LineageCurrentness.latest = some scope ∧
      if scope.lineage = .main then auth = 0 else authority.holder scope.lineage = some auth := by
  unfold isCurrent holder
  split_ifs with hmain hretired
  · simp [Option.any_eq_true, bind_eq_some_iff, LineageCurrentness.isCurrent_iff]
  · simp
  · cases authority.sideAuths scope.lineage with
    | none => simp
    | some auth =>
      simp [Option.any_eq_true, bind_eq_some_iff, LineageCurrentness.isCurrent_iff]

theorem registerSide_spec (lineage : AttemptLineage) (auth : ℕ) :
    (authority.registerSide lineage auth).auths = authority.auths ∧
      (authority.registerSide lineage auth).unregisters = authority.unregisters ++ [(lineage, auth)] ∧
      ∀ other, (authority.registerSide lineage auth).holder other = if other = lineage then
        if authority.retiredSet lineage then none else some auth else authority.holder other := by
  refine ⟨(evictRetired_spec _).1, (evictRetired_spec _).2.1, fun other ↦ ?_⟩
  rw [registerSide, evictRetiredIfNeeded, (evictRetired_spec _).2.2]
  by_cases h : other = lineage
  · simp [holder, h]
  · simp [holder, h]

theorem unregister_spec (htoken : authority.unregisters[token]? = some (lineage, auth)) :
    (authority.unregister token).auths = authority.auths ∧
      (authority.unregister token).unregisters = authority.unregisters ∧
      ∀ other, (authority.unregister token).holder other =
        if other = lineage ∧ authority.sideAuths lineage = some auth then none
        else authority.holder other := by
  simp only [unregister, htoken]
  split_ifs with hside
  · refine ⟨(evictRetired_spec _).1, (evictRetired_spec _).2.1, fun other ↦ ?_⟩
    rw [evictRetiredIfNeeded, (evictRetired_spec _).2.2]
    by_cases h : other = lineage
    · simp [holder, h, hside]
    · simp [holder, h]
  · simp [hside]

/-! ## The authority keeps to the record -/

structure Recorded (run : AttemptRun) : Prop where
  minted : ∀ auth, run.minted auth = run.authority.auths[auth]?.bind LineageCurrentness.latest
  holder : ∀ lineage, run.authority.holder lineage = (run.registered lineage).map Prod.snd
  token : ∀ lineage entry, run.registered lineage = some entry →
    run.authority.unregisters[entry.1]? = some (lineage, entry.2)

theorem recorded_create (h : Recorded run) : Recorded (run.create lineage) := by
  refine ⟨fun other ↦ ?_, h.holder, h.token⟩
  refine (h.minted other).trans ?_
  simp only [AttemptRun.create, create, getElem?_append]
  split_ifs with hlt
  · rfl
  · rw [getElem?_eq_none (Nat.le_of_not_lt hlt)]
    cases other - run.authority.auths.length <;> rfl

theorem recorded_advance (h : Recorded run) : Recorded (run.advance auth attemptId) := by
  refine ⟨fun other ↦ ?_, h.holder, h.token⟩
  simp only [AttemptRun.advance, advance, getElem?_modify]
  by_cases hother : other = auth
  · subst hother
    simp [mintFor, bind_map]
  · simp [hother, Ne.symm hother, h.minted]

theorem recorded_registerSide (h : Recorded run)
    (hretired : run.authority.retiredSet lineage = false) :
    Recorded (run.registerSide lineage auth) := by
  obtain ⟨hauths, hunregisters, hholder⟩ := @registerSide_spec run.authority lineage auth
  refine ⟨fun other ↦ ?_, fun other ↦ ?_, fun other entry hentry ↦ ?_⟩
  · exact (h.minted other).trans (by rw [← hauths]; rfl)
  · refine (hholder other).trans ?_
    by_cases hother : other = lineage
    · simp [hother, hretired, AttemptRun.registerSide]
    · simp [hother, AttemptRun.registerSide, h.holder]
  · rw [AttemptRun.registerSide, hunregisters]
    by_cases hother : other = lineage
    · obtain rfl : (run.authority.unregisters.length, auth) = entry := by
        simpa [AttemptRun.registerSide, hother] using hentry
      simp [hother]
    · have hold := h.token other entry (by simpa [AttemptRun.registerSide, hother] using hentry)
      exact getElem?_append_left (List.getElem?_eq_some_iff.mp hold).1 ▸ hold

theorem recorded_unregister (h : Recorded run)
    (hmeets : (AttemptCall.unregister token).Meets run) : Recorded (run.unregister token) := by
  rw [AttemptRun.unregister]
  cases htoken : run.authority.unregisters[token]? with
  | none => exact h
  | some closed =>
    obtain ⟨lineage, auth⟩ := closed
    obtain ⟨hauths, hunregisters, hholder⟩ := unregister_spec htoken
    refine ⟨fun other ↦ (h.minted other).trans (by rw [← hauths]), fun other ↦ ?_,
      fun other entry hentry ↦ ?_⟩
    · refine (hholder other).trans ?_
      by_cases hother : other = lineage
      · subst hother
        have hbefore := h.holder other
        cases hentry : run.registered other with
        | none => simp [hentry, hbefore]
        | some entry =>
          obtain ⟨latest, holder⟩ := entry
          rw [hentry] at hbefore
          have hclosed := h.token _ _ hentry
          by_cases hauth : holder = auth
          · subst hauth
            simp [hentry, sideAuths_of_holder hbefore, hmeets other holder htoken latest hentry]
          · have hlatest : latest ≠ token := by
              rintro rfl
              simp [htoken, Ne.symm hauth] at hclosed
            simp [hentry, sideAuths_of_holder hbefore, hauth, hlatest, hbefore]
      · simp [hother, h.holder]
    · rw [hunregisters]
      apply h.token other entry
      by_cases hother : other = lineage
      · subst hother
        simp only [update_self, filter_eq_some_iff] at hentry
        exact hentry.1
      · simpa only [update_of_ne hother] using hentry

theorem recorded_of_guarded (h : Guarded run) : Recorded run := by
  induction h with
  | start =>
    refine ⟨fun auth ↦ ?_, fun _ ↦ rfl, by rintro _ _ ⟨⟩⟩
    cases auth <;> rfl
  | call _ call hmeets ih =>
    cases call with
    | mintMain | advanceMain => exact recorded_advance ih
    | mintSide name =>
      exact recorded_advance (recorded_registerSide (recorded_create ih) (hmeets (.side name) rfl))
    | create => exact recorded_create ih
    | advance => exact recorded_advance ih
    | registerSide lineage => exact recorded_registerSide ih (hmeets lineage rfl)
    | unregister => exact recorded_unregister ih hmeets

theorem isCurrent_apply {scope : AttemptScope} {call : AttemptCall}
    (hcall : call.registers = some lineage) (hother : lineage ≠ scope.lineage)
    (h : run.authority.isCurrent scope) :
    (call.apply run).authority.isCurrent scope := by
  rw [isCurrent_iff_holder] at h ⊢
  obtain ⟨auth, hlatest, hholder⟩ := h
  obtain ⟨object, hobject, -⟩ := bind_eq_some_iff.mp hlatest
  have hlt := (List.getElem?_eq_some_iff.mp hobject).1
  refine ⟨auth, ?_, ?_⟩
  · rw [← hlatest]
    cases call with
    | mintSide name =>
      simp [AttemptCall.apply, AttemptRun.advance, AttemptRun.registerSide, AttemptRun.create,
        advance, create, (registerSide_spec _ _).1, getElem?_modify, if_neg (Nat.ne_of_gt hlt),
        getElem?_append_left hlt]
    | registerSide => simp only [AttemptCall.apply, AttemptRun.registerSide, (registerSide_spec _ _).1]
    | _ => cases hcall
  · rw [← show (call.apply run).authority.holder scope.lineage = run.authority.holder scope.lineage by
      cases call with
      | mintSide | registerSide =>
        cases hcall
        exact ((registerSide_spec _ _).2.2 _).trans (if_neg hother.symm)
      | _ => cases hcall] at hholder
    exact hholder

end GajaeCode.Agent
