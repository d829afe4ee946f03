import GajaeCode.Lifecycle.Operations
import GajaeCode.Machine.Trace

/-!
# Runs of the lifecycle ledger

Calls are serialised, so a run is a list of calls, each of which completes or is cut short by a
crash in one of its writes; a crashed process comes back with `open`. A row of the file may be
replaced by a line that does not parse, once for each identity.
-/

namespace GajaeCode.Lifecycle

open Text Json Machine

inductive LedgerCall
  | «open»
  | «begin» (identity requestHash : JsString) (metadata : BeginMetadata)
  | transition (identity : JsString) (state : LifecycleState) (fields : Members)
  | migrateIdentity (source target : JsString) (metadata : MigrateMetadata)

inductive LedgerAnswer
  | opened (quarantined : List Bytes)
  | begun (result : BeginResult)
  | moved (entry : LifecycleLedgerEntry)
  | migrated (entry : Option LifecycleLedgerEntry)
  | threw (error : String)
  | died
  | damaged

/-- A process that runs, or what the last one left. -/
inductive Process
  | up (ledger : LifecycleLedger)
  | down (durable : Durable)

namespace Process

def durable : Process → Durable
  | up ledger => ledger.durable
  | down durable => durable

/-- `new LifecycleLedger(...)`. -/
def start (durable : Durable) : LifecycleLedger := ⟨durable, [], [], [], 0, 0, 0⟩

/-- The object a call is made on: without a process only `open` can be called. -/
def ledgerFor : Process → LedgerCall → Option LifecycleLedger
  | up ledger, _ => some { ledger with points := [] }
  | down durable, .open => some (start durable)
  | down _, _ => none

def withFile (file : LedgerFile) : Process → Process
  | up ledger => up { ledger with durable := { ledger.durable with file } }
  | down durable => down { durable with file }

end Process

structure System where
  process : Process
  replaced : List JsString

/-- An empty file and no process. -/
def System.initial : System := ⟨.down ⟨.empty, []⟩, []⟩

inductive SystemOp
  | call (clock : ℕ → Timestamp) (call : LedgerCall)
  | crash (clock : ℕ → Timestamp) (call : LedgerCall) (point kept : ℕ)
  | replaceRow (index : ℕ) (line : Bytes)

section

variable (sha256 : JsString → JsString) (limits : LifecycleLedgerLimits)

def runCall (clock : ℕ → Timestamp) : LedgerCall → LedgerM LedgerAnswer
  | .open => .opened <$> «open» sha256 limits clock
  | .begin identity requestHash metadata => .begun <$> «begin» limits clock identity requestHash metadata
  | .transition identity state fields => .moved <$> transition sha256 limits clock identity state fields
  | .migrateIdentity source target metadata =>
      .migrated <$> migrateIdentity limits clock source target metadata

/-- The answer of a call and the object after it. -/
def perform (clock : ℕ → Timestamp) (call : LedgerCall) (ledger : LifecycleLedger) :
    LedgerAnswer × LifecycleLedger :=
  match (runCall sha256 limits clock call).run.run ledger with
  | (.ok answer, after) => (answer, after)
  | (.error error, after) => (.threw error, after)

/-- An object that could not be opened is not used. -/
def processAfter : LedgerCall → LedgerAnswer × LifecycleLedger → Process
  | .open, (.threw _, after) => .down after.durable
  | _, (_, after) => .up after

/-- What is durable when the process dies in the write of the given number, or behind the last one. -/
def durableAfterCrash (after : LifecycleLedger) (point kept : ℕ) : Durable :=
  match after.points[point]? with
  | some (durable, write) => durable.crash kept write
  | none => after.durable

/-- The row of the line belongs to an identity that lost none yet, and the new line does not parse. -/
def mayReplace (replaced : List JsString) (old line : Bytes) : Bool :=
  ((readRow old).any fun entry ↦ entry.identity ∉ replaced) && line ≠ [] && lineBreak ∉ line &&
    (parseLifecycleJson line).isNone

def step (system : System) : SystemOp → Option (System × LedgerAnswer)
  | .call clock call =>
      (system.process.ledgerFor call).map fun ledger ↦
        let result := perform sha256 limits clock call ledger
        ({ system with process := processAfter call result }, result.1)
  | .crash clock call point kept =>
      (system.process.ledgerFor call).map fun ledger ↦
        let after := (perform sha256 limits clock call ledger).2
        ({ system with process := .down (durableAfterCrash after point kept) }, .died)
  | .replaceRow index line =>
      let file := system.process.durable.file
      file.lines[index]?.bind fun old ↦
        if mayReplace system.replaced old line then
          some ({ process := system.process.withFile { file with lines := file.lines.set index line }
                  replaced := ((readRow old).map (·.identity)).toList ++ system.replaced }, .damaged)
        else none

end

end GajaeCode.Lifecycle
