import GajaeCode.Chain.LastWrite
import GajaeCode.Json.Locality
import GajaeCode.Json.RoundTrip
import GajaeCode.Machine.Trace
import GajaeCode.Text.Digest
import GajaeCode.Text.LineFile

/-!
# The operation receipt ledger

The broker reserves a client reference before it dispatches an operation and records the response
when it is done, one JSON row a line, appended to a file. A process that comes up reads the rows
back; the last row of a reference wins and lines that are no receipts are skipped. A crash keeps
some first bytes of the append it interrupted.
-/

namespace GajaeCode.Broker

open Text Json Chain Machine

/-! ## Rows -/

inductive ReceiptState
  | pending
  | completed (response : JsValue)
  deriving DecidableEq

structure OperationReceipt where
  clientRef : JsString
  digest : JsString
  state : ReceiptState
  ts : Decimal
  deriving DecidableEq

/-- A response of the broker: an object without repeated keys. -/
structure BrokerResponse where
  fields : Fields
  distinct : (JsValue.obj fields).DistinctKeys

/-- The members of a row in the order they are written. -/
def receiptFields (row : OperationReceipt) : Fields :=
  match row.state with
  | .pending =>
      [(utf16 "version", .num (.ofNat 1)), (utf16 "clientRef", .str row.clientRef),
        (utf16 "digest", .str row.digest), (utf16 "state", .str (utf16 "pending")),
        (utf16 "ts", .num row.ts)]
  | .completed response =>
      [(utf16 "version", .num (.ofNat 1)), (utf16 "clientRef", .str row.clientRef),
        (utf16 "digest", .str row.digest), (utf16 "state", .str (utf16 "completed")),
        (utf16 "response", response), (utf16 "ts", .num row.ts)]

/-- `${JSON.stringify(row)}\n`, as bytes. -/
def rowBytes (row : OperationReceipt) : Bytes := lineBytes (valueText (.obj (receiptFields row)))

/-- `typeof value === "object"`, which holds of `null` too. -/
def isTypeofObject : JsValue → Bool
  | .null => true
  | .arr _ => true
  | .obj _ => true
  | _ => false

/-- `isReceipt`, with the receipt it accepts. Members of anything but an object are `undefined`. -/
def readReceipt (value : JsValue) : Option OperationReceipt :=
  match value.get (utf16 "clientRef"), value.get (utf16 "digest"), value.get (utf16 "ts") with
  | .str clientRef, .str digest, .num ts =>
      if value.get (utf16 "version") = .num (.ofNat 1) ∧ clientRef ≠ [] ∧ isHexDigest digest then
        if value.get (utf16 "state") = .str (utf16 "pending") then
          some { clientRef, digest, state := .pending, ts }
        else if value.get (utf16 "state") = .str (utf16 "completed") ∧
            isTypeofObject (value.get (utf16 "response")) then
          some { clientRef, digest, state := .completed (value.get (utf16 "response")), ts }
        else none
      else none
  | _, _, _ => none

/-- The receipts of a file, in their order. A line that does not parse is skipped. -/
def fileReceipts (file : Bytes) : List OperationReceipt :=
  (fileLines file).filterMap fun line ↦ (parseJson line).bind readReceipt

/-! ## The ledger -/

/-- The file and the map of the process that has it open. -/
structure Ledger where
  file : Bytes
  latest : JsString → Option OperationReceipt

namespace Ledger

/-- `#latest.set(row.clientRef, row)`. -/
def setLatest (latest : JsString → Option OperationReceipt) (row : OperationReceipt) :
    JsString → Option OperationReceipt :=
  Function.update latest row.clientRef (some row)

/-- `open()`: the rows of the file are set over what the map holds. -/
def «open» (ledger : Ledger) : Ledger :=
  { ledger with latest := (fileReceipts ledger.file).foldl setLatest ledger.latest }

/-- A new process opens the file. -/
def start (file : Bytes) : Ledger := «open» { file, latest := fun _ ↦ none }

/-- `#append(row)` and `#latest.set(...)`. -/
def append (ledger : Ledger) (row : OperationReceipt) : Ledger :=
  { file := ledger.file ++ rowBytes row, latest := setLatest ledger.latest row }

end Ledger

inductive LedgerAnswer
  | reserved
  | replay (response : JsValue)
  | inProgress
  | conflict
  | done
  | mismatch
  | opened
  deriving DecidableEq

namespace Ledger

def reserve (ledger : Ledger) (clientRef digest : JsString) (now : Decimal) :
    Ledger × LedgerAnswer :=
  match ledger.latest clientRef with
  | some current =>
      if current.digest ≠ digest then (ledger, .conflict)
      else
        match current.state with
        | .completed response => (ledger, .replay response)
        | .pending => (ledger, .inProgress)
  | none => (ledger.append { clientRef, digest, state := .pending, ts := now }, .reserved)

/-- A reservation that is missing or has another digest makes the call throw. -/
def complete (ledger : Ledger) (clientRef digest : JsString) (response : BrokerResponse)
    (now : Decimal) : Ledger × LedgerAnswer :=
  match ledger.latest clientRef with
  | some current =>
      if current.digest ≠ digest then (ledger, .mismatch)
      else
        match current.state with
        | .completed _ => (ledger, .done)
        | .pending =>
            (ledger.append { clientRef, digest, state := .completed (.obj response.fields), ts := now },
              .done)
  | none => (ledger, .mismatch)

end Ledger

/-- A call of the ledger; calls are serialised, and each reads the clock once. -/
inductive LedgerCall
  | reserve (clientRef digest : JsString) (now : Decimal)
  | complete (clientRef digest : JsString) (response : BrokerResponse) (now : Decimal)

def Ledger.call (ledger : Ledger) : LedgerCall → Ledger × LedgerAnswer
  | .reserve clientRef digest now => ledger.reserve clientRef digest now
  | .complete clientRef digest response now => ledger.complete clientRef digest response now

/-- What can happen to a ledger: `open` again, a new process, a call that is answered, or a call in
which the process stops when some first bytes of its append are in the file, so that a new process
opens the file. -/
inductive LedgerOp
  | reopen
  | restart
  | call (call : LedgerCall)
  | crash (call : LedgerCall) (kept : ℕ)

def ledgerStep (ledger : Ledger) : LedgerOp → Option (Ledger × LedgerAnswer)
  | .reopen => some (ledger.open, .opened)
  | .restart => some (.start ledger.file, .opened)
  | .call call => some (ledger.call call)
  | .crash call kept =>
      some (.start ((ledger.call call).1.file.take (ledger.file.length + kept)), .opened)

end GajaeCode.Broker
