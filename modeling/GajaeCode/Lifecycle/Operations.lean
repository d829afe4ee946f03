import GajaeCode.Lifecycle.Ledger

/-!
# Operations of the lifecycle ledger

`open` reads the file, `begin` admits a request, `transition` records what becomes of it and
`migrateIdentity` files a request under another identity. A request whose latest row is `accepted`
is admitted again; every later state says that its effects may have run.
-/

namespace GajaeCode.Lifecycle

open Text Json Chain

/-! ## Reading the file -/

/-- `#isValidHistoryContinuation`. -/
def isValidHistoryContinuation (previous : Option LifecycleLedgerEntry) (next : LifecycleLedgerEntry) :
    Bool :=
  match previous with
  | none => next.state = .accepted
  | some previous =>
      if previous.requestHash ≠ next.requestHash || previous.state.terminal then false
      else
        match previous.state with
        | .terminalUncertain => next.state.final
        | .accepted => true
        | _ => next.state = .effectStarted || next.state = .awaitingReady || next.state.final

/-- `#uncertainFrom` for a trusted entry. -/
def uncertainFrom (entry : LifecycleLedgerEntry) (now : Timestamp) : LifecycleLedgerEntry :=
  { entry with state := .terminalUncertain, ts := now }

variable (entry : LifecycleLedgerEntry)

/-- `#uncertainFrom` for an entry that is not trusted: nothing else of it is kept. -/
def bareUncertain (now : Timestamp) : LifecycleLedgerEntry :=
  { entry with state := .terminalUncertain, ts := now, members := .empty }

def LifecycleLedgerEntry.set (key : MemberKey) (value : JsonValue) : LifecycleLedgerEntry :=
  { entry with members := entry.members.set key value }

def JsonValue.ofString (text : JsString) : JsonValue := ⟨.str text, trivial⟩

def JsonValue.undefined : JsonValue := ⟨.undefined, trivial⟩

def JsonValue.ofStrings (texts : List JsString) : JsonValue :=
  ⟨.arr (texts.map .str), by
    rw [JsValue.DistinctKeys, distinctKeysItems_iff]
    intro item hitem
    obtain ⟨text, -, rfl⟩ := List.mem_map.mp hitem
    trivial⟩

/-- The string, if it is a canonical session id. -/
def canonicalSessionIdOf : JsValue → Option JsString
  | .str text => if isCanonicalSessionId text then some text else none
  | _ => none

/-- The session id that the marker of a quarantined row fences first. -/
def nestedCleanupSessionId : Option JsString :=
  ((pendingCleanupSessionId (entry.get .unresolvedCleanupResponse)).or
    (pendingCleanupSessionId (entry.get .response))).or
      (canonicalSessionIdOf (entry.get .intendedSessionId))

/-- The session ids a quarantined row names, in the order in which they are collected. -/
def namedSessionIds : List JsString :=
  firstMentions ([canonicalSessionIdOf (entry.get .intendedSessionId),
    pendingCleanupSessionId (entry.get .response),
    pendingCleanupSessionId (entry.get .unresolvedCleanupResponse),
    nestedCleanupSessionId entry].filterMap id)

/-- The marker kept in place of a row with an invalid history. -/
def syntheticFrom (prior : Option LifecycleLedgerEntry) (entry : LifecycleLedgerEntry)
    (now : Timestamp) : LifecycleLedgerEntry :=
  let uncertain := prior.elim (bareUncertain entry now) fun prior ↦ uncertainFrom prior now
  let uncertain := (nestedCleanupSessionId entry).elim uncertain fun sessionId ↦
    uncertain.set .uncertainCleanupSessionId (.ofString sessionId)
  uncertain.set .uncertainCleanupSessionIds (.ofStrings (namedSessionIds entry))

structure OpenState where
  entries : List LifecycleLedgerEntry
  byIdentity : List LifecycleLedgerEntry
  rowCount : ℕ
  invalidIdentities : List JsString
  syntheticUncertain : List LifecycleLedgerEntry
  uncertainAfterCorruption : List JsString
  quarantined : List Bytes
  ticks : ℕ

namespace OpenState

def countRow (state : OpenState) : OpenState := { state with rowCount := state.rowCount + 1 }

/-- An unreadable line: what is under way may have had its row there. -/
def quarantineLine (state : OpenState) (line : Bytes) : OpenState :=
  { state with
    uncertainAfterCorruption :=
      ((state.byIdentity.filter fun latest ↦ !latest.state.final).map (·.identity)).foldl pushNew
        state.uncertainAfterCorruption
    quarantined := state.quarantined ++ [line] }

/-- A readable row that does not continue the history of its identity. -/
def quarantineRow (clock : ℕ → Timestamp) (state : OpenState) (line : Bytes)
    (entry : LifecycleLedgerEntry) : OpenState :=
  let known := (latestOf state.syntheticUncertain entry.identity).isSome
  { state with
    invalidIdentities := pushNew state.invalidIdentities entry.identity
    syntheticUncertain :=
      if known then state.syntheticUncertain
      else state.syntheticUncertain ++
        [syntheticFrom (latestOf state.byIdentity entry.identity) entry (clock state.ticks)]
    ticks := if known then state.ticks else state.ticks + 1
    quarantined := state.quarantined ++ [line] }

def acceptRow (state : OpenState) (entry : LifecycleLedgerEntry) : OpenState :=
  { state with
    entries := state.entries ++ [entry]
    byIdentity := setLatest state.byIdentity entry }

end OpenState

section

variable (sha256 : JsString → JsString) (limits : LifecycleLedgerLimits) (clock : ℕ → Timestamp)

variable (state : OpenState)

/-- A row that `isLifecycleLedgerEntry` accepts. Digests are not checked once the identity is
marked. -/
def readEntryRow (line : Bytes) (entry : LifecycleLedgerEntry) : OpenState :=
  if entry.identity ∈ state.invalidIdentities || entry.identity ∈ state.uncertainAfterCorruption then
    state.quarantineRow clock line entry
  else
    match hasValidTerminalDigests sha256 entry with
    | none => state.quarantineLine line
    | some valid =>
        if valid && isValidHistoryContinuation (latestOf state.byIdentity entry.identity) entry then
          state.acceptRow entry
        else state.quarantineRow clock line entry

def readContent (line : Bytes) : Except String OpenState :=
  match parseLifecycleJson line with
  | none => .ok (state.quarantineLine line)
  | some value =>
      if !isSupportedStateVersion value.val then .error "unsupported_state_version"
      else
        match readEntry value with
        | none => .ok (state.quarantineLine line)
        | some entry => .ok (readEntryRow sha256 clock state line entry)

def readLine (line : Bytes) : Except String OpenState :=
  if line = [] then .ok state
  else if limits.maxRows < state.rowCount + 1 then
    .error "Lifecycle ledger exceeds the maximum row count."
  else if limits.maxLineBytes < line.length then
    .error "Lifecycle ledger row exceeds the maximum byte length."
  else readContent sha256 clock state.countRow line

/-- The rows that were read become the state of the object, and a torn last line is sealed. -/
def load : LedgerM Unit := do
  modify fun ledger ↦
    { ledger with
      entries := state.entries
      byIdentity := state.byIdentity
      rowCount := state.rowCount
      byteCount := ledger.durable.file.size
      ticks := state.ticks }
  let ledger ← get
  if ledger.durable.file.terminated then pure ()
  else do
    writeFile .seal
    modify fun ledger ↦ { ledger with byteCount := ledger.byteCount + 1 }

/-- A marker is appended only behind an accepted row; else it is kept in memory. -/
def markInvalid (uncertain : LifecycleLedgerEntry) : LedgerM Unit := do
  modify fun ledger ↦ { ledger with byIdentity := setLatest ledger.byIdentity uncertain }
  let ledger ← get
  if ledger.entries.any fun entry ↦ entry.identity = uncertain.identity && entry.state = .accepted then
    append limits uncertain
  else pure ()

variable (entry : LifecycleLedgerEntry)

def appendUncertain : LedgerM Unit := do
  let now ← readClock clock
  append limits (uncertainFrom entry now)

def markUncertain (identity : JsString) : LedgerM Unit := do
  let ledger ← get
  match latestOf ledger.byIdentity identity with
  | none => pure ()
  | some entry => if entry.state.final then pure () else appendUncertain limits clock entry

/-- Effects may have completed after the last durable row. -/
def isUnderway : Bool :=
  (entry.state = .effectStarted && !entry.isCleanupPending) || entry.state = .awaitingReady

def markUnderway : LedgerM Unit :=
  if isUnderway entry then appendUncertain limits clock entry else pure ()

def recover : LedgerM Unit := do
  state.syntheticUncertain.forM (markInvalid limits)
  state.uncertainAfterCorruption.forM (markUncertain limits clock)
  let ledger ← get
  ledger.byIdentity.forM (markUnderway limits clock)

def OpenState.initial (ticks : ℕ) : OpenState := ⟨[], [], 0, [], [], [], [], ticks⟩

/-- `#open`; returns the quarantined lines. -/
def «open» : LedgerM (List Bytes) := do
  let ledger ← get
  if limits.maxBytes < ledger.durable.file.size then
    throw "Lifecycle ledger exceeds the maximum file byte length."
  else
    match ledger.durable.file.lines.foldlM (readLine sha256 limits clock) (.initial ledger.ticks) with
    | .error error => throw error
    | .ok state => do
        load state
        recover limits clock state
        return state.quarantined

/-! ## Requests -/

structure BeginMetadata where
  operationKey : Option JsString
  fingerprint : Option JsString
  intendedSessionId : Option JsString
  closeAuthorityBound : Option Bool
  spawnAnchor : Bool

def JsonValue.ofOption (text : Option JsString) : JsonValue := text.elim .undefined .ofString

def JsonValue.ofBool (value : Bool) : JsonValue := ⟨.bool value, trivial⟩

inductive BeginResult
  | new (entry : LifecycleLedgerEntry)
  | replay (entry : LifecycleLedgerEntry)
  | idempotencyConflict
  | terminalUncertain (entry : LifecycleLedgerEntry)
  | inProgress (entry : LifecycleLedgerEntry)

def BeginMetadata.members (metadata : BeginMetadata) : Members :=
  ((((Members.empty.set .operationKey (.ofOption metadata.operationKey)).set
    .fingerprint (.ofOption metadata.fingerprint)).set
      .intendedSessionId (.ofOption metadata.intendedSessionId)).set
        .closeAuthorityBound (metadata.closeAuthorityBound.elim .undefined .ofBool)).set
          .spawnAnchor (if metadata.spawnAnchor then .ofBool true else .undefined)

/-- `begin` for an identity with a latest row. -/
def beginKnown (prior : LifecycleLedgerEntry) (requestHash : JsString) (metadata : BeginMetadata) :
    BeginResult :=
  if prior.requestHash ≠ requestHash ||
      (prior.get .operationKey ≠ .undefined &&
        metadata.operationKey.any fun key ↦ prior.get .operationKey ≠ .str key) then
    .idempotencyConflict
  else if prior.state.terminal || (prior.state = .effectStarted && prior.isCleanupPending) then
    .replay prior
  else if prior.state = .terminalUncertain then .terminalUncertain prior
  else if prior.state = .accepted then .new prior
  else .inProgress prior

def «begin» (identity requestHash : JsString) (metadata : BeginMetadata) : LedgerM BeginResult := do
  let ledger ← get
  match latestOf ledger.byIdentity identity with
  | some prior => return beginKnown prior requestHash metadata
  | none =>
      let now ← readClock clock
      let entry : LifecycleLedgerEntry :=
        { identity, requestHash, state := .accepted, ts := now, members := metadata.members }
      append limits entry
      return .new entry

/-! ## Transitions -/

/-- The members of the next row before digests: the cleanup that a new response does not repeat is
kept as unresolved, unless the request ended well. -/
def keepUnresolved (previous : LifecycleLedgerEntry) (next : LifecycleLedgerEntry) :
    LifecycleLedgerEntry :=
  if next.isCleanupPending || next.state = .terminalOk then
    (next.set .unresolvedCleanupResponse .undefined).set .unresolvedCleanupResponseDigest .undefined
  else if previous.isCleanupPending then
    (next.set .unresolvedCleanupResponse ⟨previous.get .response, previous.members.distinct_get .response⟩).set
      .unresolvedCleanupResponseDigest
      (.ofString (cleanupDigestOf sha256 (previous.get .intendedSessionId) (previous.get .response)))
  else next

/-- The digest of the response. A cleanup response must name the session that the row fences. -/
def sealResponse (fields : Members) (next : LifecycleLedgerEntry) : Except String LifecycleLedgerEntry :=
  if next.isCleanupPending then
    match canonicalSessionIdOf (cleanupSessionId (next.get .response)) with
    | none => .error "Cleanup response lacks a canonical session fence"
    | some sessionId =>
        if next.get .intendedSessionId = .undefined || next.get .intendedSessionId = .str sessionId then
          .ok ((next.set .intendedSessionId (.ofString sessionId)).set .responseDigest
            (.ofString (cleanupDigestOf sha256 (.str sessionId) (next.get .response))))
        else .error "Cleanup response session does not match its outer lifecycle fence"
  else if (fields.get .response ≠ .undefined && fields.get .responseDigest = .undefined) ||
      (next.state.final && next.get .response ≠ .undefined && next.get .responseDigest = .undefined) then
    .ok (next.set .responseDigest (.ofString (responseDigestOf sha256 (next.get .response))))
  else .ok next

/-- `{ ...body, digest }` for a receipt without a digest. -/
def sealEffects (next : LifecycleLedgerEntry) : LifecycleLedgerEntry :=
  match h : next.get .durableEffects with
  | .obj fields =>
      if (JsValue.obj fields).get (utf16 "digest") = .undefined then
        let digest := JsonValue.ofString (effectsDigestOf sha256 fields)
        next.set .durableEffects
          ⟨.obj (fields.filter (fun field ↦ field.1 ≠ utf16 "digest") ++ [(utf16 "digest", digest.val)]),
            distinctKeys_filter_concat (h ▸ next.members.distinct_get .durableEffects) digest.property⟩
      else next
  | _ => next

/-- The row that `transition` appends. -/
def nextRow (previous : LifecycleLedgerEntry) (state : LifecycleState) (fields : Members)
    (now : Timestamp) : Except String LifecycleLedgerEntry :=
  (sealResponse sha256 fields (keepUnresolved sha256 previous
    { previous with state, ts := now, members := previous.members.spread fields })).map
      (sealEffects sha256)

def transition (identity : JsString) (state : LifecycleState) (fields : Members) :
    LedgerM LifecycleLedgerEntry := do
  let ledger ← get
  match latestOf ledger.byIdentity identity with
  | none => throw "Unknown lifecycle identity"
  | some previous =>
      if previous.state.terminal then return previous
      else do
        let now ← readClock clock
        match nextRow sha256 previous state fields now with
        | .error error => throw error
        | .ok next => do
            append limits next
            return next

/-! ## Migration -/

/-- A member `closeAuthorityBound` may be absent, or present and `undefined`. -/
structure MigrateMetadata where
  operationKey : JsString
  fingerprint : JsString
  closeAuthorityBound : Option (Option Bool)

def MigrateMetadata.members (metadata : MigrateMetadata) : Members :=
  let members := (Members.empty.set .operationKey (.ofString metadata.operationKey)).set
    .fingerprint (.ofString metadata.fingerprint)
  metadata.closeAuthorityBound.elim members fun value ↦
    members.set .closeAuthorityBound (value.elim .undefined .ofBool)

/-- `{ ...entry, ...metadata, ts: Date.now() }`. -/
def withMetadata (metadata : MigrateMetadata) (now : Timestamp) : LifecycleLedgerEntry :=
  { entry with ts := now, members := entry.members.spread metadata.members }

/-- A row without an operation key is rewritten in place. -/
def retire (metadata : MigrateMetadata) : LedgerM Unit :=
  if entry.get .operationKey = .undefined then do
    let now ← readClock clock
    compact limits (some (withMetadata entry metadata now)) none
  else pure ()

/-- The row of the entry under its new identity, behind the accepted one. -/
def copyRow (target : JsString) (metadata : MigrateMetadata)
    (anchor : LifecycleLedgerEntry) : LedgerM LifecycleLedgerEntry :=
  if entry.state = .accepted then pure anchor
  else do
    let now ← readClock clock
    let row := { withMetadata entry metadata now with identity := target }
    append limits row
    return row

def migrateIdentity (source target : JsString) (metadata : MigrateMetadata) :
    LedgerM (Option LifecycleLedgerEntry) := do
  let ledger ← get
  match latestOf ledger.byIdentity source, latestOf ledger.byIdentity target with
  | none, existing => return existing
  | some entry, some existing => do
      retire limits clock entry metadata
      return some existing
  | some entry, none => do
      let now ← readClock clock
      let anchor : LifecycleLedgerEntry :=
        { identity := target, requestHash := entry.requestHash, state := .accepted, ts := now
          members := metadata.members }
      append limits anchor
      let migrated ← copyRow limits clock entry target metadata anchor
      retire limits clock entry metadata
      return some migrated

end

end GajaeCode.Lifecycle
