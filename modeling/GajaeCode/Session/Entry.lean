import GajaeCode.Chain.ParentWalk
import GajaeCode.Json.Value

/-!
# Session entries and agent messages

A transcript is a list of entries that name their parents. The entry kinds and the fields below
are those that the context builder and the compaction planner read.
-/

namespace GajaeCode.Session

open Text Json Chain List

variable {entries : List SessionEntry}

inductive MessageRole
  | user
  | assistant (provider model : JsString)
  | toolResult
  | bashExecution
  | custom
  | hookMessage
  | branchSummary
  | compactionSummary
  | other (name : JsString)
  deriving DecidableEq

/-- A message: its role, its other members, and for a message made from an entry the time text
its `timestamp` is computed from. -/
structure AgentMessage where
  role : MessageRole
  fields : Fields
  stamp : Option JsString
  deriving DecidableEq

def AgentMessage.get (message : AgentMessage) (name : String) : JsValue :=
  JsValue.get (.obj message.fields) (utf16 name)

/-- An absent optional text is an undefined member. -/
def optionalText : Option JsString → JsValue
  | some text => .str text
  | none => .undefined

def createCustomMessage (customType : JsString) (content : JsValue) (display : Bool)
    (details : JsValue) (timestamp : JsString) (attribution : Option JsString) : AgentMessage where
  role := .custom
  fields :=
    [(utf16 "customType", .str customType), (utf16 "content", content),
      (utf16 "display", .bool display), (utf16 "details", details),
      (utf16 "attribution", optionalText attribution)]
  stamp := some timestamp

def createBranchSummaryMessage (summary fromId timestamp : JsString) : AgentMessage where
  role := .branchSummary
  fields := [(utf16 "summary", .str summary), (utf16 "fromId", .str fromId)]
  stamp := some timestamp

def createCompactionSummaryMessage (summary : JsString) (tokensBefore : Decimal)
    (timestamp : JsString) (shortSummary : Option JsString) (providerPayload : JsValue) :
    AgentMessage where
  role := .compactionSummary
  fields :=
    [(utf16 "summary", .str summary), (utf16 "shortSummary", optionalText shortSummary),
      (utf16 "tokensBefore", .num tokensBefore), (utf16 "providerPayload", providerPayload)]
  stamp := some timestamp

structure TtsrInjectionRecord where
  name : JsString
  lastInjectedAt : Decimal
  repeatMode : Option JsString
  repeatGap : Option Decimal
  deriving DecidableEq

structure CompactionData where
  summary : JsString
  shortSummary : Option JsString
  firstKeptEntryId : JsString
  tokensBefore : Decimal
  preserveData : JsValue
  deriving DecidableEq

inductive EntryBody
  | message (message : AgentMessage)
  | thinkingLevelChange (thinkingLevel : Option JsString)
  | modelChange (model : JsString) (role : Option JsString) (cleared : Bool)
  | configuredModelChain (role : JsString) (entries : List JsString) (origin : JsString)
      (identity : Option JsString) (explicitHead cleared : Bool)
  | serviceTierChange (serviceTier : Option JsString)
  | compaction (data : CompactionData)
  | branchSummary (fromId summary : JsString)
  | custom (customType : JsString) (data : JsValue)
  | customMessage (customType : JsString) (content : JsValue) (details : JsValue)
      (display : Bool) (attribution : Option JsString)
  | label
  | ttsrInjection (injectedRules : List JsString)
      (injectedRuleRecords : List TtsrInjectionRecord) (ttsrMessageCount : Option Decimal)
  | mcpToolSelection (selectedToolNames : List JsString)
      (selectedDiscoveredBuiltinToolNames : Option (List JsString))
  | discoveredBuiltinToolSelection (selectedToolNames : List JsString)
  | sessionInit
  | modeChange (mode : JsString) (data : Option Fields)
  deriving DecidableEq

structure SessionEntry where
  id : JsString
  parentId : Option JsString
  timestamp : JsString
  body : EntryBody
  deriving DecidableEq

namespace SessionEntry

variable (entry : SessionEntry)

/-- The parent link the walks follow: a missing or empty parent id is none. -/
def parent : Option JsString := entry.parentId.filter (· ≠ [])

def compaction? : Option CompactionData :=
  match entry.body with
  | .compaction data => some data
  | _ => none

def isCompaction : Bool := entry.compaction?.isSome

def isMessage : Bool :=
  match entry.body with
  | .message _ => true
  | _ => false

end SessionEntry

open SessionEntry

/-- The walk from `leaf` to the root, root first. -/
def walkPath (entries : List SessionEntry) (leaf : Option SessionEntry) : List SessionEntry :=
  (ascend SessionEntry.id SessionEntry.parent entries entries.length [] leaf).reverse

/-- Entries that form one branch from a root to a leaf. -/
structure IsPath (entries : List SessionEntry) : Prop where
  linked : entries.IsChain fun above child ↦ child.parentId = some above.id
  nodup : (entries.map SessionEntry.id).Nodup
  named : ∀ entry ∈ entries, entry.id ≠ []
  root : ∀ entry ∈ entries.head?, ∀ id ∈ entry.parent, id ∉ entries.map SessionEntry.id

namespace IsPath

theorem isAscent (h : IsPath entries) :
    IsAscent SessionEntry.id parent entries [] entries.reverse where
  linked := by
    rw [isChain_reverse]
    apply IsChain.imp_of_mem_imp _ h.linked
    intro above child habove _ hlink
    have hparent : child.parent = some above.id := by
      simp [parent, hlink, h.named above habove]
    rw [parentNode, hparent, Option.bind_some]
    exact lookup_of_nodup h.nodup habove
  nodup := by
    rw [map_reverse]
    exact nodup_reverse.mpr h.nodup
  fresh := by simp
  ends entry hentry above habove := by
    rw [getLast?_reverse] at hentry
    obtain ⟨id, hid, hfound⟩ := Option.bind_eq_some_iff.mp habove
    have hmem := mem_of_lookup hfound
    have hid' : id ∈ entries.map SessionEntry.id := by
      rw [← hmem.2]
      exact mem_map_of_mem hmem.1
    exact absurd hid' (h.root entry hentry id hid)

/-- The walk from the last entry of a branch is the branch. -/
theorem walkPath_getLast? (h : IsPath entries) : walkPath entries entries.getLast? = entries := by
  have hascend := ascend_eq_of_isAscent h.isAscent (Nat.le_of_eq length_reverse)
  rw [head?_reverse] at hascend
  rw [walkPath, hascend, reverse_reverse]

end IsPath

end GajaeCode.Session
