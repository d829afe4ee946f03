import GajaeCode.Json.Stringify
import GajaeCode.Session.Context
import Mathlib.Data.Rat.Floor

/-!
# Compaction settings and token estimates

How many tokens of recent history a compaction keeps is computed from the configured window, the
model's context window and the compaction threshold. Numbers are exact rationals; an optional
number is `none` when it is absent or not finite, which the code treats alike.
-/

namespace GajaeCode.Compaction

open Text Json Session

/-! ## Thresholds -/

structure AdaptiveCompactionOptions where
  enabled : Bool
  turnWindow : Option ℚ
  baseThresholdPercent : Option ℚ
  aggression : Option ℚ
  minThresholdPercent : Option ℚ

structure AdaptiveCompactionDecisionState where
  turnsSinceCompact : Option ℚ
  callsInWindow : Option ℚ
  lastContextTokens : Option ℚ

structure CompactionSettings where
  thresholdPercent : Option ℚ
  thresholdTokens : Option ℚ
  adaptive : Option AdaptiveCompactionOptions
  adaptiveState : Option AdaptiveCompactionDecisionState
  reserveTokens : ℚ
  keepRecentTokens : ℚ

def defaultCompactionSettings : CompactionSettings where
  thresholdPercent := some (-1)
  thresholdTokens := some (-1)
  adaptive := none
  adaptiveState := none
  reserveTokens := 16384
  keepRecentTokens := 20000

def defaultAutoThresholdCeilingTokens : ℚ := 300000

def mathFloor (x : ℚ) : ℚ := x.floor

/-- Halves are rounded up. -/
def mathRound (x : ℚ) : ℚ := (x + 1 / 2).floor

def clampPercent (percent : ℚ) : ℚ := min 99 (max 1 percent)

def CompactionSettings.adaptiveEnabled (settings : CompactionSettings) : Bool :=
  settings.adaptive.any AdaptiveCompactionOptions.enabled

/-- A number that is present, finite and positive. -/
def positive? (number : Option ℚ) : Option ℚ := number.filter (0 < ·)

variable (contextWindow : ℚ)

def effectiveReserveTokens (settings : CompactionSettings) (maxOutputTokens : ℚ) : ℚ :=
  max (max (mathFloor (contextWindow * (15 / 100))) settings.reserveTokens) (max 0 maxOutputTokens)

def isDefaultAutoThresholdCeilingApplied (settings : CompactionSettings) : Bool :=
  (positive? settings.thresholdTokens).isNone && (positive? settings.thresholdPercent).isNone &&
    !settings.adaptiveEnabled &&
    contextWindow - effectiveReserveTokens contextWindow settings 0 >
      defaultAutoThresholdCeilingTokens

/-- The threshold of an enabled adaptive configuration: lowered from the base the busier the
session is, once its context is filled well enough. -/
def computeAdaptiveThresholdPercent (basePercent : Option ℚ) (contextTokens contextWindow : ℚ)
    (state : Option AdaptiveCompactionDecisionState) (options : AdaptiveCompactionOptions) : ℚ :=
  let clampedBasePercent := (basePercent.map clampPercent).getD 85
  match state, positive? options.turnWindow with
  | some state, some turnWindow =>
    if contextWindow ≤ 0 then clampedBasePercent
    else if max 0 contextTokens / contextWindow < clampedBasePercent / 100 * (7 / 10) then
      clampedBasePercent
    else if max 0 (state.turnsSinceCompact.getD 0) ≤ 3 then clampedBasePercent
    else
      let windowTurns := max 1 (turnWindow * 4)
      let intensity := min 1 (max 0 (state.callsInWindow.getD 0) / windowTurns)
      let aggression := (options.aggression.map fun a ↦ min 1 (max 0 a)).getD 0
      let minThresholdPercent :=
        min clampedBasePercent
          ((options.minThresholdPercent.map (max 1 ·)).getD (clampedBasePercent * (1 / 2)))
      let loweredPercent :=
        clampedBasePercent - (clampedBasePercent - minThresholdPercent) * aggression * intensity
      max 1 (min 99 (mathRound loweredPercent))
  | _, _ => clampedBasePercent

def adaptiveContextTokens (contextTokens lastContextTokens : Option ℚ) : ℚ :=
  max 0 ((contextTokens.or lastContextTokens).getD 0)

def resolveThresholdTokens (settings : CompactionSettings)
    (maxOutputTokens : ℚ) (contextTokens : Option ℚ) : ℚ :=
  let recentTokens := adaptiveContextTokens contextTokens
    (settings.adaptiveState.bind AdaptiveCompactionDecisionState.lastContextTokens)
  let enabled := settings.adaptive.filter AdaptiveCompactionOptions.enabled
  match positive? settings.thresholdTokens, positive? settings.thresholdPercent, enabled with
  | some thresholdTokens, _, _ => min (contextWindow - 1) (max 1 thresholdTokens)
  | none, none, none =>
    min (contextWindow - effectiveReserveTokens contextWindow settings maxOutputTokens)
      defaultAutoThresholdCeilingTokens
  | none, some thresholdPercent, none =>
    mathFloor (contextWindow * (clampPercent thresholdPercent / 100))
  | none, _, some adaptive =>
    mathFloor (contextWindow * (computeAdaptiveThresholdPercent adaptive.baseThresholdPercent
      recentTokens contextWindow settings.adaptiveState adaptive / 100))

/-- The largest recent history that stays clear of the next compaction. -/
def resolveThresholdSafeKeepRecentTokens (settings : CompactionSettings) : ℚ :=
  let thresholdTokens := resolveThresholdTokens contextWindow settings 0 none
  let reserveTokens := effectiveReserveTokens contextWindow settings 0
  let headroomTokens :=
    if isDefaultAutoThresholdCeilingApplied contextWindow settings then
      min reserveTokens (mathFloor (thresholdTokens * (1 / 2)))
    else reserveTokens
  max 1 (thresholdTokens - headroomTokens)

/-! ## Token estimates -/

/-- Code units of scripts that take about a token each. -/
def isTokenDense (unit : UInt16) : Bool :=
  let code := unit.toNat
  (0x1100 ≤ code && code ≤ 0x11FF) || (0x3000 ≤ code && code ≤ 0x303F) ||
    (0x3040 ≤ code && code ≤ 0x30FF) || (0x3130 ≤ code && code ≤ 0x318F) ||
    (0x3400 ≤ code && code ≤ 0x4DBF) || (0x4E00 ≤ code && code ≤ 0x9FFF) ||
    (0xAC00 ≤ code && code ≤ 0xD7AF) || (0xF900 ≤ code && code ≤ 0xFAFF) ||
    (0xFF00 ≤ code && code ≤ 0xFFEF)

def isSurrogate (unit : UInt16) : Bool := 0xD800 ≤ unit.toNat && unit.toNat ≤ 0xDFFF

/-- The cost of a code unit in quarters of a token. -/
def unitQuarters (unit : UInt16) : ℕ :=
  if isTokenDense unit then 4 else if isSurrogate unit then 2 else 1

def estimateTextTokensHeuristic (fragments : List JsString) : ℕ :=
  ((fragments.flatMap fun fragment ↦ fragment.map unitQuarters).sum + 3) / 4

def imageTokenEstimate : ℕ := 1200

def blockType (block : JsValue) : JsValue := JsValue.get block (utf16 "type")

/-- A text member; a missing one contributes nothing. -/
def blockText (block : JsValue) (name : String) : JsString :=
  match JsValue.get block (utf16 name) with
  | .str text => text
  | _ => []

def contentBlocks : JsValue → List JsValue
  | .arr blocks => blocks
  | _ => []

def textBlocks (blocks : List JsValue) : List JsString :=
  (blocks.filter fun block ↦ blockType block = .str (utf16 "text")).map (blockText · "text")

def assistantFragments (block : JsValue) : List JsString :=
  if blockType block = .str (utf16 "text") then [blockText block "text"]
  else if blockType block = .str (utf16 "thinking") then [blockText block "thinking"]
  else if blockType block = .str (utf16 "toolCall") then
    [blockText block "name",
      (stringify (JsValue.get block (utf16 "arguments"))).getD (utf16 "null")]
  else []

variable (message : AgentMessage)

/-- The texts of a message that are counted, and a fixed charge for its images. -/
def collectMessageFragments : List JsString × ℕ :=
  let content := message.get "content"
  match message.role with
  | .bashExecution =>
    ([message.get "command", message.get "output"].filterMap fun
      | .str text => some text
      | _ => none, 0)
  | .user | .custom =>
    match content with
    | .str text => ([text], 0)
    | content => (textBlocks (contentBlocks content), 0)
  | .assistant _ _ => ((contentBlocks content).flatMap assistantFragments, 0)
  | .hookMessage | .toolResult =>
    match content with
    | .str text => ([text], 0)
    | content =>
      (textBlocks (contentBlocks content),
        imageTokenEstimate * (contentBlocks content).countP fun block ↦
          blockType block = .str (utf16 "image"))
  | .branchSummary | .compactionSummary =>
    ([blockText (.obj message.fields) "summary"], 0)
  | .other _ => ([], 0)

def estimateMessageTokens : ℕ :=
  let collected := collectMessageFragments message
  estimateTextTokensHeuristic collected.1 + collected.2

/-! ## Usage of the last answer -/

/-- The value of a decimal number. -/
def decimalValue (decimal : Decimal) : ℚ :=
  (if decimal.negative then -1 else 1) * decimal.mantissa * (10 : ℚ) ^ decimal.exponent

def numberMember (value : JsValue) (name : String) : ℚ :=
  match JsValue.get value (utf16 name) with
  | .num decimal => decimalValue decimal
  | _ => 0

def calculateContextTokens (usage : JsValue) : ℚ :=
  if numberMember usage "totalTokens" ≠ 0 then numberMember usage "totalTokens"
  else
    numberMember usage "input" + numberMember usage "output" + numberMember usage "cacheRead" +
      numberMember usage "cacheWrite"

/-- The usage of an assistant message that was neither aborted nor failed. -/
def getAssistantUsage : Option JsValue :=
  match message.role, message.get "usage" with
  | .assistant _ _, .obj usage =>
    if message.get "stopReason" = .str (utf16 "aborted") ∨
        message.get "stopReason" = .str (utf16 "error") then none
    else some (.obj usage)
  | _, _ => none

def getLastAssistantUsage (entries : List SessionEntry) : Option JsValue :=
  entries.reverse.findSome? fun entry ↦
    match entry.body with
    | .message message => getAssistantUsage message
    | _ => none

end GajaeCode.Compaction
