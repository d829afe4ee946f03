import GajaeCode.Lifecycle.Entry

/-!
# Digests of recorded responses

A row that records a response carries the digest of its canonical text: members sorted by key and
undefined ones left out. The response of a pending cleanup is digested together with the session
it fences. The reader recomputes every digest, and some malformed responses make it throw.
-/

namespace GajaeCode.Lifecycle

open Text Json

/-! ## Canonical texts -/

/-- The order of `sort()`: by code units. -/
def keyBefore : JsString → JsString → Bool
  | [], _ => true
  | _ :: _, [] => false
  | left :: lefts, right :: rights => left < right || (left == right && keyBefore lefts rights)

def canonicalMember (member : JsString × JsString) : JsString :=
  quote member.1 ++ colonUnit :: member.2

mutual

/-- `canonicalJson`; an `undefined` item joins as the empty text. -/
def canonicalJson : JsValue → JsString
  | .undefined => []
  | .arr items => openBracketUnit :: (joinComma (canonicalItems items) ++ [closeBracketUnit])
  | .obj fields =>
      openBraceUnit :: (joinComma (((canonicalFields fields).insertionSort fun left right ↦
        keyBefore left.1 right.1).map canonicalMember) ++ [closeBraceUnit])
  | .null => valueText .null
  | .bool value => valueText (.bool value)
  | .num value => valueText (.num value)
  | .str text => valueText (.str text)

def canonicalItems : List JsValue → List JsString
  | [] => []
  | item :: rest => canonicalJson item :: canonicalItems rest

def canonicalFields : Fields → List (JsString × JsString)
  | [] => []
  | (key, value) :: rest =>
      if value.isUndefined then canonicalFields rest
      else (key, canonicalJson value) :: canonicalFields rest

end

/-! ## Responses -/

/-- `/^[A-Za-z0-9][A-Za-z0-9._-]{0,127}$/`. -/
def isCanonicalSessionId (text : JsString) : Bool :=
  let isAlphanumeric (unit : UInt16) : Bool :=
    (0x30 ≤ unit && unit ≤ 0x39) || (0x41 ≤ unit && unit ≤ 0x5A) || (0x61 ≤ unit && unit ≤ 0x7A)
  match text with
  | [] => false
  | first :: rest =>
      isAlphanumeric first && rest.length ≤ 127 &&
        rest.all fun unit ↦ isAlphanumeric unit || unit == 0x2E || unit == 0x5F || unit == 0x2D

def canonicalCleanupSessionId : JsValue → Bool
  | .str text => isCanonicalSessionId text
  | _ => false

variable (response : JsValue)

/-- `response.error?.cleanup`. -/
def cleanupOf : JsValue := (response.get (utf16 "error")).get (utf16 "cleanup")

def cleanupSessionId : JsValue := (cleanupOf response).get (utf16 "sessionId")

/-- The response reports a pending cleanup. -/
def isPendingResponse : Bool :=
  response.get (utf16 "ok") = .bool false &&
    (response.get (utf16 "error")).get (utf16 "code") = .str (utf16 "cleanup_pending") &&
    cleanupOf response ≠ .undefined

def pendingCleanupSessionId : Option JsString :=
  match cleanupSessionId response with
  | .str text => if isCanonicalSessionId text then some text else none
  | _ => none

/-- `retirementCreateIdentity`. -/
def retirementCreateIdentity : Option JsString :=
  match (((cleanupOf response).get (utf16 "uncertainRetirement")).get (utf16 "identity")).get
    (utf16 "createIdentity") with
  | .str text => if text = [] then none else some text
  | _ => none

/-- The value is falsy. -/
def isFalsy : JsValue → Bool
  | .undefined => true
  | .null => true
  | .bool value => !value
  | .num value => value.mantissa = 0
  | .str text => text = []
  | _ => false

namespace LifecycleLedgerEntry

def isCleanupPending (entry : LifecycleLedgerEntry) : Bool := isPendingResponse (entry.get .response)

end LifecycleLedgerEntry

/-! ## Digests -/

section

-- `createHash("sha256").update(text).digest("hex")`
variable (sha256 : JsString → JsString)

def responseDigestOf (value : JsValue) : JsString := sha256 (canonicalJson value)

/-- The digest of a response that fences a session. -/
def cleanupDigestOf (intended value : JsValue) : JsString :=
  sha256 (canonicalJson (.obj [(utf16 "intendedSessionId", intended), (utf16 "response", value)]))

/-- `const { digest, ...body } = durableEffects`, and the digest of the body. -/
def effectsDigestOf (effects : Fields) : JsString :=
  sha256 (canonicalJson (.obj (effects.filter fun field ↦ field.1 ≠ utf16 "digest")))

/-- The receipt of durable effects carries its digest, if there is a receipt. -/
def hasValidEffects (effects : JsValue) : Bool :=
  isFalsy effects ||
    match effects with
    | .obj fields => effects.get (utf16 "digest") = .str (effectsDigestOf sha256 fields)
    | _ => false

variable (entry : LifecycleLedgerEntry)

/-- The checks of an unresolved cleanup response; a `null` response makes the reader throw. -/
def hasValidUnresolved : Option Bool :=
  let unresolved := entry.get .unresolvedCleanupResponse
  if unresolved = .undefined && entry.get .unresolvedCleanupResponseDigest = .undefined then some true
  else
    match entry.get .unresolvedCleanupResponseDigest with
    | .str digest =>
        if unresolved = .undefined then some false
        else if unresolved = .null then none
        else
          some (cleanupSessionId unresolved = entry.get .intendedSessionId &&
            digest = cleanupDigestOf sha256 (entry.get .intendedSessionId) unresolved)
    | _ => some false

/-- The checks of the recorded response; a `null` cleanup makes the reader throw. -/
def hasValidResponse : Option Bool :=
  let value := entry.get .response
  let intended := entry.get .intendedSessionId
  if entry.isCleanupPending then
    if cleanupOf value = .null then none
    else
      some (canonicalCleanupSessionId intended && cleanupSessionId value = intended &&
        entry.get .responseDigest = .str (cleanupDigestOf sha256 intended value))
  else if entry.get .responseDigest ≠ .undefined then
    some (value ≠ .undefined && entry.get .responseDigest = .str (responseDigestOf sha256 value))
  else some !(entry.state.terminal || (entry.state = .terminalUncertain && value ≠ .undefined))

/-- `hasValidTerminalDigests`, or nothing if it throws. -/
def hasValidTerminalDigests : Option Bool :=
  (hasValidResponse sha256 entry).bind fun validResponse ↦
    if !validResponse then some false
    else
      (hasValidUnresolved sha256 entry).map fun validUnresolved ↦
        validUnresolved && hasValidEffects sha256 (entry.get .durableEffects)

end

end GajaeCode.Lifecycle
