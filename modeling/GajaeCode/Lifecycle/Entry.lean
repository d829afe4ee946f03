import GajaeCode.Json.Locality
import GajaeCode.Json.RoundTrip
import GajaeCode.Text.LineFile

/-!
# Rows of the lifecycle ledger

The broker records what becomes of a lifecycle request as a sequence of JSON rows, one a line. A
row names its identity, the hash of the request and the state reached; its other members are
carried along. The reader is stricter than JSON: it decodes without replacement characters, bounds
the nesting and the number of members, and recomputes the digests of recorded responses.
-/

namespace GajaeCode.Lifecycle

open Text Json List Option JsValue

/-! ## States -/

inductive LifecycleState
  | accepted
  | effectStarted
  | awaitingReady
  | terminalOk
  | terminalError
  | terminalUncertain
  deriving DecidableEq

namespace LifecycleState

def text : LifecycleState → JsString
  | accepted => utf16 "accepted"
  | effectStarted => utf16 "effect_started"
  | awaitingReady => utf16 "awaiting_ready"
  | terminalOk => utf16 "terminal_ok"
  | terminalError => utf16 "terminal_error"
  | terminalUncertain => utf16 "terminal_uncertain"

def all : List LifecycleState :=
  [accepted, effectStarted, awaitingReady, terminalOk, terminalError, terminalUncertain]

def read (value : JsValue) : Option LifecycleState := all.find? fun state ↦ value = .str state.text

variable (state : LifecycleState)

theorem read_text : read (.str state.text) = some state := by
  cases state <;> decide

/-- A proven outcome. -/
def terminal : Bool := state = terminalOk || state = terminalError

def final : Bool := state.terminal || state = terminalUncertain

end LifecycleState

/-! ## Times -/

/-- `Number.isSafeInteger(value)`. -/
def isSafeInteger (value : Decimal) : Bool :=
  0 ≤ value.exponent && value.mantissa * 10 ^ value.exponent.toNat ≤ 2 ^ 53 - 1

/-- What `Date.now()` returns and the reader accepts. -/
abbrev Timestamp := { value : Decimal // isSafeInteger value = true }

def Timestamp.toInt (ts : Timestamp) : ℤ :=
  (if ts.val.negative then -1 else 1) * (ts.val.mantissa * 10 ^ ts.val.exponent.toNat : ℕ)

/-! ## Members -/

/-- Values in which no object repeats a key, as all values of the language. -/
abbrev JsonValue := { value : JsValue // value.DistinctKeys }

/-- The members that every row has. -/
def ownKeys : List JsString :=
  [utf16 "version", utf16 "identity", utf16 "requestHash", utf16 "state", utf16 "ts"]

abbrev MemberKey := { key : JsString // key ∉ ownKeys }

namespace MemberKey

def operationKey : MemberKey := ⟨utf16 "operationKey", by decide⟩

def fingerprint : MemberKey := ⟨utf16 "fingerprint", by decide⟩

def closeAuthorityBound : MemberKey := ⟨utf16 "closeAuthorityBound", by decide⟩

def spawnAnchor : MemberKey := ⟨utf16 "spawnAnchor", by decide⟩

def intendedSessionId : MemberKey := ⟨utf16 "intendedSessionId", by decide⟩

def durableEffects : MemberKey := ⟨utf16 "durableEffects", by decide⟩

def response : MemberKey := ⟨utf16 "response", by decide⟩

def responseDigest : MemberKey := ⟨utf16 "responseDigest", by decide⟩

def unresolvedCleanupResponse : MemberKey := ⟨utf16 "unresolvedCleanupResponse", by decide⟩

def unresolvedCleanupResponseDigest : MemberKey :=
  ⟨utf16 "unresolvedCleanupResponseDigest", by decide⟩

def uncertainCleanupSessionId : MemberKey := ⟨utf16 "uncertainCleanupSessionId", by decide⟩

def uncertainCleanupSessionIds : MemberKey := ⟨utf16 "uncertainCleanupSessionIds", by decide⟩

end MemberKey

/-- The other members of a row. A member may be present with the value `undefined`. -/
structure Members where
  fields : Fields
  distinct : (JsValue.obj fields).DistinctKeys
  foreign : ∀ field ∈ fields, field.1 ∉ ownKeys

namespace Members

def get (members : Members) (key : MemberKey) : JsValue := (JsValue.obj members.fields).get key.val

theorem distinct_get (members : Members) (key : MemberKey) : (members.get key).DistinctKeys :=
  distinctKeys_get members.distinct key.val

def empty : Members := ⟨[], by simp [JsValue.DistinctKeys, JsValue.DistinctKeysFields], by simp⟩

/-- `members[key] = value`. -/
def set (members : Members) (key : MemberKey) (value : JsonValue) : Members where
  fields := JsValue.setField members.fields key.val value.val
  distinct := distinctKeys_setField members.distinct key.val value.property
  foreign := by
    intro field hfield
    rcases mem_setField hfield with rfl | hfield
    · exact key.property
    · exact members.foreign field hfield

end Members

/-- `{ ...base, ...updates }`. -/
def spreadFields (base updates : Fields) : Fields :=
  updates.foldl (fun fields update ↦ JsValue.setField fields update.1 update.2) base

theorem mem_spreadFields {base updates : Fields} {field : JsString × JsValue}
    (h : field ∈ spreadFields base updates) : field ∈ updates ∨ field ∈ base := by
  induction updates generalizing base with
  | nil => exact .inr h
  | cons update rest ih =>
    rcases ih h with h | h
    · exact .inl (mem_cons_of_mem _ h)
    · rcases mem_setField h with rfl | h
      · exact Or.inl mem_cons_self
      · exact .inr h

theorem distinctKeys_spreadFields {base updates : Fields} (h : (obj base).DistinctKeys)
    (hupdates : ∀ update ∈ updates, update.2.DistinctKeys) :
    (obj (spreadFields base updates)).DistinctKeys := by
  induction updates generalizing base with
  | nil => exact h
  | cons update rest ih =>
    rw [forall_mem_cons] at hupdates
    exact ih (distinctKeys_setField h update.1 hupdates.1) hupdates.2

namespace Members

def spread (members updates : Members) : Members where
  fields := spreadFields members.fields updates.fields
  distinct := distinctKeys_spreadFields members.distinct
    ((distinctKeysFields_iff updates.fields).mp updates.distinct.2)
  foreign := by
    intro field hfield
    rcases mem_spreadFields hfield with hfield | hfield
    · exact updates.foreign field hfield
    · exact members.foreign field hfield

end Members

/-! ## Entries -/

structure LifecycleLedgerEntry where
  identity : JsString
  requestHash : JsString
  state : LifecycleState
  ts : Timestamp
  members : Members

namespace LifecycleLedgerEntry

variable (entry : LifecycleLedgerEntry)

def get (key : MemberKey) : JsValue := entry.members.get key

def fields : Fields :=
  [(utf16 "version", .num (.ofNat 1)), (utf16 "identity", .str entry.identity),
    (utf16 "requestHash", .str entry.requestHash), (utf16 "state", .str entry.state.text),
    (utf16 "ts", .num entry.ts.val)] ++ entry.members.fields

/-- `Buffer.from(JSON.stringify(entry))`, the row without its newline. -/
def rowBytes : Bytes := encodeUtf8 (valueText (.obj entry.fields))

end LifecycleLedgerEntry

/-! ## Shape -/

mutual

/-- `isBoundedLedgerJson`, with the number of members seen so far. -/
def boundedValue (depth members : ℕ) : JsValue → Option ℕ
  | .arr items =>
      if 64 < depth || 1024 < items.length then none else boundedItems (depth + 1) members items
  | .obj fields =>
      if 64 < depth || 1024 < members + fields.length then none
      else boundedFields (depth + 1) (members + fields.length) fields
  | _ => if 64 < depth then none else some members

def boundedItems (depth members : ℕ) : List JsValue → Option ℕ
  | [] => some members
  | item :: rest => (boundedValue depth members item).bind fun members ↦ boundedItems depth members rest

def boundedFields (depth members : ℕ) : Fields → Option ℕ
  | [] => some members
  | (_, value) :: rest =>
      (boundedValue depth members value).bind fun members ↦ boundedFields depth members rest

end

def isBoundedLedgerJson (value : JsValue) : Bool := (boundedValue 0 0 value).isSome

def isStringOrUndefined : JsValue → Bool
  | .undefined => true
  | .str _ => true
  | _ => false

/-- `version > SDK_STATE_VERSION` for a number. -/
def exceedsStateVersion (version : Decimal) : Bool :=
  !version.negative &&
    if 0 ≤ version.exponent then 1 < version.mantissa * 10 ^ version.exponent.toNat
    else 10 ^ (-version.exponent).toNat < version.mantissa

/-- `assertSupportedStateVersion` does not throw. -/
def isSupportedStateVersion (value : JsValue) : Bool :=
  [value.get (utf16 "version"), value.get (utf16 "stateVersion")].all fun version ↦
    match version with
    | .num version => !exceedsStateVersion version
    | _ => true

/-- The members besides those that every row has. -/
def Members.ofObject (fields : Fields) (distinct : (JsValue.obj fields).DistinctKeys) : Members where
  fields := fields.filter fun field ↦ field.1 ∉ ownKeys
  distinct := by
    rw [JsValue.DistinctKeys, distinctKeysFields_iff] at distinct ⊢
    refine ⟨distinct.1.sublist (List.filter_sublist.map Prod.fst), fun field hfield ↦ ?_⟩
    exact distinct.2 field (List.mem_filter.mp hfield).1
  foreign := by
    intro field hfield
    simpa using (List.mem_filter.mp hfield).2

/-- `isLifecycleLedgerEntry`, with the entry it accepts. -/
def readEntry : JsonValue → Option LifecycleLedgerEntry
  | ⟨.obj fields, distinct⟩ =>
      let value := JsValue.obj fields
      match value.get (utf16 "identity"), value.get (utf16 "requestHash"),
        LifecycleState.read (value.get (utf16 "state")), value.get (utf16 "ts") with
      | .str identity, .str requestHash, some state, .num ts =>
          if hts : isSafeInteger ts = true then
            if isBoundedLedgerJson value && value.get (utf16 "version") = .num (.ofNat 1) &&
                identity ≠ [] && requestHash ≠ [] && isStringOrUndefined (value.get MemberKey.operationKey.val) &&
                (value.get MemberKey.spawnAnchor.val = .undefined || value.get MemberKey.spawnAnchor.val = .bool true) &&
                isStringOrUndefined (value.get MemberKey.fingerprint.val) then
              some { identity, requestHash, state, ts := ⟨ts, hts⟩, members := .ofObject fields distinct }
            else none
          else none
      | _, _, _, _ => none
  | _ => none

/-! ## Decoding -/

/-- `decodeLifecycleUtf8`: bytes that are no UTF-8 make it throw, and a byte order mark is dropped. -/
def decodeLifecycleUtf8 (bytes : Bytes) : Option JsString :=
  let text := decodeUtf8 bytes
  if encodeUtf8 text = bytes then some (if text.head? = some 0xFEFF then text.tail else text) else none

def parseLifecycleJson (bytes : Bytes) : Option JsonValue :=
  (decodeLifecycleUtf8 bytes).bind fun text ↦
    (parseTree text).map fun tree ↦ ⟨lastWins tree, distinctKeys_lastWins tree⟩

/-- The entry of a line, for lines that hold one. -/
def readRow (line : Bytes) : Option LifecycleLedgerEntry :=
  (parseLifecycleJson line).bind fun value ↦
    if isSupportedStateVersion value.val then readEntry value else none

namespace LifecycleLedgerEntry

variable (entry : LifecycleLedgerEntry)

theorem distinctKeys_fields : (obj entry.fields).DistinctKeys := by
  have hmembers := entry.members.distinct
  have hown : ([utf16 "version", utf16 "identity", utf16 "requestHash", utf16 "state",
      utf16 "ts"] : List JsString).Nodup := by decide
  rw [DistinctKeys, distinctKeysFields_iff] at hmembers ⊢
  constructor
  · rw [fields, map_append, nodup_append']
    refine ⟨hown, hmembers.1, fun key hkey hmem ↦ ?_⟩
    obtain ⟨field, hfield, rfl⟩ := mem_map.mp hmem
    exact entry.members.foreign field hfield hkey
  · rw [fields, forall_mem_append]
    exact ⟨by simp [DistinctKeys], hmembers.2⟩

theorem decode_rowBytes : decodeUtf8 entry.rowBytes = valueText (.obj entry.fields) :=
  (decodeUtf8_encodeUtf8_eq_self_iff _).mpr (isOneLine_valueText _).1

/-- The row of an entry parses to the entry without its undefined members. -/
theorem parseLifecycleJson_rowBytes : parseLifecycleJson entry.rowBytes =
      some ⟨(obj entry.fields).clean, distinctKeys_clean entry.distinctKeys_fields⟩ := by
  have hclean := distinctKeys_clean entry.distinctKeys_fields
  have hhead : (valueText (.obj entry.fields)).head? ≠ some 0xFEFF := by
    simp [valueText, openBraceUnit]
  have hdecode : decodeLifecycleUtf8 entry.rowBytes = some (valueText (.obj entry.fields)) := by
    simp only [decodeLifecycleUtf8, decode_rowBytes, if_neg hhead]
    exact if_pos rfl
  rw [parseLifecycleJson, hdecode, bind_some, parseTree_valueText, map_some]
  simp [lastWins_eq_self _ hclean]

/-- A row that is cut off does not parse. -/
theorem parseLifecycleJson_torn {torn : Bytes} (htorn : torn <+: entry.rowBytes)
    (hne : torn ≠ entry.rowBytes) : parseLifecycleJson torn = none := by
  obtain ⟨head, junk, hhead, hjunk, hdecode⟩ :=
    decodeUtf8_torn (isOneLine_valueText (.obj entry.fields)).1 htorn
  have hmark : (head ++ junk).head? ≠ some 0xFEFF := by
    cases head with
    | nil => rcases hjunk with rfl | rfl <;> decide
    | cons =>
      obtain rfl := (cons_prefix_cons.mp hhead).1
      simp [openBraceUnit]
  rw [eq_none_iff_forall_ne_some]
  intro value hvalue
  obtain ⟨text, htext, hparse⟩ := bind_eq_some_iff.mp hvalue
  rw [decodeLifecycleUtf8, hdecode, if_neg hmark] at htext
  obtain ⟨hexact, rfl⟩ := ite_none_right_eq_some.mp htext |>.imp_right some.inj
  obtain ⟨tree, htree, -⟩ := map_eq_some_iff.mp hparse
  have hsome : (parseJson (head ++ junk)).isSome := by rw [parseJson, htree]; rfl
  obtain ⟨rfl, rfl⟩ := parseJson_torn hhead hjunk hsome
  rw [append_nil] at hexact
  exact hne hexact.symm

end LifecycleLedgerEntry

/-- The members that are not `undefined`, with what is `undefined` inside them removed. -/
def Members.clean (members : Members) : Members where
  fields := JsValue.cleanFields members.fields
  distinct := distinctKeys_clean members.distinct
  foreign := by
    intro field hfield
    have hkey := (keys_cleanFields_sublist members.fields).mem (List.mem_map_of_mem hfield)
    obtain ⟨original, hmem, heq⟩ := List.mem_map.mp hkey
    rw [← heq]
    exact members.foreign original hmem

namespace LifecycleLedgerEntry

/-- The entry as it is read back. -/
def clean (entry : LifecycleLedgerEntry) : LifecycleLedgerEntry :=
  { entry with members := entry.members.clean }

theorem cleanFields_fields (entry : LifecycleLedgerEntry) :
    cleanFields entry.fields = entry.clean.fields := rfl

end LifecycleLedgerEntry

theorem Members.ext' {left right : Members} (h : left.fields = right.fields) : left = right := by
  cases left
  cases right
  simpa using h

theorem ofObject_fields (entry : LifecycleLedgerEntry) :
    Members.ofObject entry.fields entry.distinctKeys_fields = entry.members := by
  apply Members.ext'
  have hown : ([(utf16 "version", .num (.ofNat 1)), (utf16 "identity", .str entry.identity),
        (utf16 "requestHash", .str entry.requestHash), (utf16 "state", .str entry.state.text),
        (utf16 "ts", .num entry.ts.val)] : Fields).filter (fun field ↦ field.1 ∉ ownKeys) = [] := by
    simp [ownKeys]
  have hsplit : (Members.ofObject entry.fields entry.distinctKeys_fields).fields =
      entry.members.fields.filter fun field ↦ field.1 ∉ ownKeys := by
    simp only [Members.ofObject, LifecycleLedgerEntry.fields, filter_append, hown, nil_append]
  rw [hsplit, filter_eq_self]
  intro field hfield
  simpa using entry.members.foreign field hfield

/-- What is read from a row that the reader accepts is the entry that was written. -/
theorem eq_clean_of_readRow {entry read : LifecycleLedgerEntry} (h : readRow entry.rowBytes = some read) :
    read = entry.clean := by
  have hident : (obj entry.clean.fields).get (utf16 "identity") = .str entry.identity := rfl
  have hhash : (obj entry.clean.fields).get (utf16 "requestHash") = .str entry.requestHash := rfl
  have hstate : (obj entry.clean.fields).get (utf16 "state") = .str entry.state.text := rfl
  have hts : (obj entry.clean.fields).get (utf16 "ts") = .num entry.ts.val := rfl
  rw [readRow, entry.parseLifecycleJson_rowBytes, bind_some] at h
  simp only [clean, entry.cleanFields_fields] at h
  obtain ⟨-, h⟩ := ite_none_right_eq_some.mp h
  simp only [readEntry, hident, hhash, hstate, hts, LifecycleState.read_text] at h
  rw [dif_pos entry.ts.property] at h
  obtain ⟨-, h⟩ := ite_none_right_eq_some.mp h
  cases h
  rw [ofObject_fields entry.clean]
  rfl

end GajaeCode.Lifecycle
