import GajaeCode.Chain.LastWrite
import GajaeCode.Lifecycle.Digests

/-!
# The lifecycle ledger

The ledger is a file of rows and, in the process that has it open, the rows read from it and the
latest row of every identity. Rows are appended one at a time. When the file would exceed its
bounds it is rewritten as one accepted row and the latest row of every identity, and identities
whose outcome is proven may be dropped. `open` reads the file back, marks what was under way as
uncertain and quarantines what it cannot read.

The durable part of the state also records for which identities a row beyond `accepted` was synced
and not dropped since; no operation reads this record.
-/

namespace GajaeCode.Lifecycle

open Text Json Chain

/-! ## The file -/

/-- The lines of the file, and whether the last one is closed by a newline. -/
structure LedgerFile where
  lines : List Bytes
  terminated : Bool
  deriving DecidableEq

namespace LedgerFile

def empty : LedgerFile := ⟨[], true⟩

def size (file : LedgerFile) : ℕ :=
  (file.lines.map fun line ↦ line.length + 1).sum - if file.terminated then 0 else 1

/-- Bytes without a newline are written at the end. -/
def write (file : LedgerFile) (bytes : Bytes) : LedgerFile :=
  if bytes = [] then file
  else if file.terminated then ⟨file.lines ++ [bytes], false⟩
  else ⟨file.lines.dropLast ++ [file.lines.getLastD [] ++ bytes], false⟩

/-- A newline is written at the end. -/
def close (file : LedgerFile) : LedgerFile :=
  if file.terminated then ⟨file.lines ++ [[]], true⟩ else ⟨file.lines, true⟩

end LedgerFile

/-- What a crash leaves, with the identities for which a row beyond `accepted` was synced since they
were last dropped with a proven outcome. -/
structure Durable where
  file : LedgerFile
  effects : List JsString

/-- A change of the file that is synced before the operation goes on. -/
inductive FileWrite
  | append (entry : LifecycleLedgerEntry)
  | seal
  | replace (snapshot evicted : List LifecycleLedgerEntry)

/-- The identities of the rows beyond `accepted`. -/
def effectIdentities (rows : List LifecycleLedgerEntry) : List JsString :=
  (rows.filter fun row ↦ row.state ≠ .accepted).map LifecycleLedgerEntry.identity

namespace Durable

def apply (durable : Durable) : FileWrite → Durable
  | .append entry =>
      ⟨(durable.file.write entry.rowBytes).close, effectIdentities [entry] ++ durable.effects⟩
  | .seal =>
      ⟨durable.file.close,
        effectIdentities ((durable.file.lines.getLast?.bind readRow).toList) ++ durable.effects⟩
  | .replace snapshot evicted =>
      ⟨⟨snapshot.map LifecycleLedgerEntry.rowBytes, true⟩,
        effectIdentities snapshot ++ durable.effects.filter fun identity ↦
          !evicted.any fun latest ↦ latest.identity = identity && latest.state.terminal⟩

/-- The process dies in the middle of a write. Of an appended row and its newline some first bytes
are kept, and of the other writes all or nothing. -/
def crash (durable : Durable) (kept : ℕ) : FileWrite → Durable
  | .append entry =>
      if entry.rowBytes.length < kept then durable.apply (.append entry)
      else { durable with file := durable.file.write (entry.rowBytes.take kept) }
  | write => if kept = 0 then durable else durable.apply write

end Durable

/-! ## The process -/

structure LifecycleLedgerLimits where
  maxBytes : ℕ
  maxLineBytes : ℕ
  maxRows : ℕ

/-- The object of the process that has the file open. `points` are the writes of the current
operation, each with what was durable before it, and `ticks` counts the readings of the clock. -/
structure LifecycleLedger where
  durable : Durable
  points : List (Durable × FileWrite)
  entries : List LifecycleLedgerEntry
  byIdentity : List LifecycleLedgerEntry
  rowCount : ℕ
  byteCount : ℕ
  ticks : ℕ

abbrev LedgerM := ExceptT String (StateM LifecycleLedger)

/-- `#byIdentity.get(identity)`. -/
def latestOf (byIdentity : List LifecycleLedgerEntry) (identity : JsString) :
    Option LifecycleLedgerEntry :=
  byIdentity.find? fun latest ↦ latest.identity = identity

/-- `#byIdentity.set(entry.identity, entry)`. -/
def setLatest (byIdentity : List LifecycleLedgerEntry) (entry : LifecycleLedgerEntry) :
    List LifecycleLedgerEntry :=
  putRow LifecycleLedgerEntry.identity byIdentity entry

def writeFile (write : FileWrite) : LedgerM Unit :=
  modify fun ledger ↦
    { ledger with
      durable := ledger.durable.apply write
      points := ledger.points ++ [(ledger.durable, write)] }

section

variable (sha256 : JsString → JsString) (limits : LifecycleLedgerLimits) (clock : ℕ → Timestamp)

/-- `Date.now()`. -/
def readClock : LedgerM Timestamp := do
  let ledger ← get
  modify fun ledger ↦ { ledger with ticks := ledger.ticks + 1 }
  return clock ledger.ticks

/-! ## Compaction -/

/-- The bytes of a line with its newline. -/
def lineLength (entry : LifecycleLedgerEntry) : ℕ := entry.rowBytes.length + 1

def contentsLength (rows : List LifecycleLedgerEntry) : ℕ := (rows.map lineLength).sum

/-- The first accepted row of the identity with the request hash of its latest row. -/
def anchorOf (entries compacted : List LifecycleLedgerEntry) (identity : JsString) :
    Option LifecycleLedgerEntry :=
  entries.find? fun entry ↦
    entry.identity = identity && entry.state = .accepted &&
      (latestOf compacted identity).any fun latest ↦ latest.requestHash = entry.requestHash

variable (replacement : Option LifecycleLedgerEntry)

/-- The rows that stand for an identity; a replacement that is itself accepted is its own anchor. -/
def snapshotRows (anchor latest : LifecycleLedgerEntry) : List LifecycleLedgerEntry :=
  (if (replacement.any fun entry ↦ entry.identity = latest.identity) && latest.state = .accepted then latest
    else anchor) :: if latest.state ≠ .accepted then [latest] else []

/-- `buildSnapshot`; an identity without an anchor makes it throw. -/
def buildSnapshot (anchor : JsString → Option LifecycleLedgerEntry)
    (replacement : Option LifecycleLedgerEntry) :
    List LifecycleLedgerEntry → Option (List LifecycleLedgerEntry)
  | [] => some []
  | latest :: rest =>
      (anchor latest.identity).bind fun anchorEntry ↦
        (buildSnapshot anchor replacement rest).map fun rows ↦
          snapshotRows replacement anchorEntry latest ++ rows

/-- Rows and bytes that are to fit behind the compacted file. -/
structure Incoming where
  bytes : ℕ
  rows : ℕ

variable (incoming : Option Incoming)

def needsEviction (snapshot : List LifecycleLedgerEntry) : Bool :=
  match incoming, replacement with
  | some incoming, _ =>
      limits.maxRows < snapshot.length + incoming.rows ||
        limits.maxBytes < contentsLength snapshot + incoming.bytes
  | none, none => limits.maxRows ≤ snapshot.length || limits.maxBytes ≤ contentsLength snapshot
  | none, some _ => limits.maxRows < snapshot.length || limits.maxBytes < contentsLength snapshot

/-- `session.close\u0000`. -/
def closeOperation : JsString := utf16 "session.close" ++ [0]

/-- The identities that a retained retirement receipt names. -/
def protectedCreateIdentities (compacted : List LifecycleLedgerEntry) : List JsString :=
  compacted.filterMap fun entry ↦
    (retirementCreateIdentity (entry.get .response)).or
      (retirementCreateIdentity (entry.get .unresolvedCleanupResponse))

/-- The operation key is no close, or the close carried its authority. -/
def mayForgetOperation (latest : LifecycleLedgerEntry) : Bool :=
  match latest.get .operationKey with
  | .undefined => false
  | .str key => !closeOperation.isPrefixOf key || latest.get .closeAuthorityBound = .bool true
  | _ => true

def isEvictable (compacted : List LifecycleLedgerEntry) (replacement : Option LifecycleLedgerEntry)
    (latest : LifecycleLedgerEntry) : Bool :=
  (!replacement.any fun entry ↦ entry.identity = latest.identity) && latest.state.terminal &&
    mayForgetOperation latest && latest.get .fingerprint ≠ .undefined &&
    latest.identity ∉ protectedCreateIdentities compacted &&
    pendingCleanupSessionId (latest.get .response) = none &&
    pendingCleanupSessionId (latest.get .unresolvedCleanupResponse) = none

/-- Oldest first, until the file is half empty and what is incoming fits. -/
def chooseEvicted (incoming : Incoming) (snapshot : List LifecycleLedgerEntry) :
    ℕ → ℕ → List LifecycleLedgerEntry → List LifecycleLedgerEntry
  | _, _, [] => []
  | rows, bytes, latest :: rest =>
      if 2 * rows ≤ limits.maxRows && 2 * bytes ≤ limits.maxBytes &&
          rows + incoming.rows ≤ limits.maxRows && bytes + incoming.bytes ≤ limits.maxBytes then []
      else
        latest :: chooseEvicted incoming snapshot
          (rows - (snapshot.filter fun entry ↦ entry.identity = latest.identity).length)
          (bytes - contentsLength (snapshot.filter fun entry ↦ entry.identity = latest.identity)) rest

structure Compaction where
  compacted : List LifecycleLedgerEntry
  snapshot : List LifecycleLedgerEntry
  evicted : List LifecycleLedgerEntry

variable (ledger : LifecycleLedger)

/-- The latest rows with the replacement among them. -/
def replacedLatest (replacement : Option LifecycleLedgerEntry) : List LifecycleLedgerEntry :=
  replacement.elim ledger.byIdentity (setLatest ledger.byIdentity)

/-- The identities that are dropped, by their latest rows. -/
def evictedFrom (compacted snapshot : List LifecycleLedgerEntry) : List LifecycleLedgerEntry :=
  if needsEviction limits replacement incoming snapshot then
    chooseEvicted limits (incoming.getD ⟨0, 0⟩) snapshot snapshot.length (contentsLength snapshot)
      ((compacted.filter (isEvictable compacted replacement)).insertionSort
        fun left right ↦ left.ts.toInt ≤ right.ts.toInt)
  else []

/-- What is wrong with a snapshot. -/
def snapshotError (snapshot : List LifecycleLedgerEntry) : Option String :=
  if incoming.any fun incoming ↦ limits.maxRows < snapshot.length + incoming.rows ||
      limits.maxBytes < contentsLength snapshot + incoming.bytes then
    some "Lifecycle ledger append exceeds configured bounds."
  else if limits.maxRows < snapshot.length || limits.maxBytes < contentsLength snapshot ||
      snapshot.any fun entry ↦ limits.maxLineBytes < entry.rowBytes.length then
    some "Lifecycle ledger compaction exceeds configured bounds."
  else none

/-- The part of `#compact` before the file is replaced. -/
def planCompaction (replacement : Option LifecycleLedgerEntry)
    (incoming : Option Incoming) : Except String Compaction :=
  let latests := replacedLatest ledger replacement
  let build := buildSnapshot (anchorOf ledger.entries latests) replacement
  match build latests with
  | none => .error "Lifecycle ledger compaction requires an accepted identity anchor."
  | some before =>
      let evicted := evictedFrom limits replacement incoming latests before
      let compacted := latests.filter fun latest ↦ latest.identity ∉ evicted.map (·.identity)
      match build compacted with
      | none => .error "Lifecycle ledger compaction requires an accepted identity anchor."
      | some snapshot =>
          match snapshotError limits incoming snapshot with
          | some error => .error error
          | none => .ok { compacted, snapshot, evicted }

def compact : LedgerM Unit := do
  let ledger ← get
  match planCompaction limits ledger replacement incoming with
  | .error error => throw error
  | .ok plan =>
      writeFile (.replace plan.snapshot plan.evicted)
      modify fun ledger ↦
        { ledger with
          entries := plan.snapshot
          byIdentity := plan.compacted
          rowCount := plan.snapshot.length
          byteCount := contentsLength plan.snapshot }

/-! ## Appending -/

def hasRoom (entry : LifecycleLedgerEntry) : Bool :=
  ledger.rowCount + 1 ≤ limits.maxRows && ledger.byteCount + lineLength entry ≤ limits.maxBytes

def appendRow (entry : LifecycleLedgerEntry) : LedgerM Unit := do
  writeFile (.append entry)
  modify fun ledger ↦
    { ledger with
      entries := ledger.entries ++ [entry]
      byIdentity := setLatest ledger.byIdentity entry
      rowCount := ledger.rowCount + 1
      byteCount := ledger.byteCount + lineLength entry }

/-- `#append`: without room the file is compacted, with the new row in place of the latest one of a
known identity. -/
def append (entry : LifecycleLedgerEntry) : LedgerM Unit :=
  if limits.maxLineBytes < entry.rowBytes.length then
    throw "Lifecycle ledger row exceeds the maximum byte length."
  else if limits.maxBytes < lineLength entry then
    throw "Lifecycle ledger append exceeds configured bounds."
  else do
    let ledger ← get
    if hasRoom limits ledger entry then appendRow entry
    else if (latestOf ledger.byIdentity entry.identity).isSome then compact limits (some entry) none
    else do
      compact limits none (some ⟨lineLength entry, 1⟩)
      let ledger ← get
      if hasRoom limits ledger entry then appendRow entry
      else throw "Lifecycle ledger append exceeds configured bounds."

end

end GajaeCode.Lifecycle
