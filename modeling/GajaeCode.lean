import GajaeCode.Session.TailChain
import GajaeCode.Session.TerminalRetention
import GajaeCode.Session.Resident
import GajaeCode.Session.Sidecar
import GajaeCode.Agent.AppendOnly
import GajaeCode.Compaction.Handover
import GajaeCode.Hashline.SingleReplacement
import GajaeCode.Hashline.Recovery
import GajaeCode.Session.DictionaryFinish
import GajaeCode.Sdk.ClaimSettlement
import GajaeCode.Broker.ReceiptRecovery
import GajaeCode.Broker.ManagedRuns
import GajaeCode.Query.StringPaging
import GajaeCode.Compaction.ToolPairs
import GajaeCode.Compaction.SplitTurn
import GajaeCode.Secrets.PlainReplacement
import GajaeCode.Session.MiddleTruncation
import GajaeCode.Session.OneSidedTruncation
import GajaeCode.Session.TailBuffer
import GajaeCode.Hashline.Merging
import GajaeCode.Lifecycle.Admission
import GajaeCode.Session.IdUniqueness
import GajaeCode.Session.BoundedLines
import GajaeCode.Session.EditSnapshots
import GajaeCode.Hashline.Simultaneous
import GajaeCode.Edit.ReplaceAll
import GajaeCode.Edit.DiffPreview
import GajaeCode.Edit.PathLock
import GajaeCode.Compaction.SummaryFence
import GajaeCode.Compaction.Trigger
import GajaeCode.Session.ToolChoiceQueue
import GajaeCode.Hashline.Stream
import GajaeCode.Agent.AttemptScope
import GajaeCode.Session.ReducerFold
import GajaeCode.Tui.BracketedPaste
import GajaeCode.Session.TranscriptHash
import GajaeCode.Utils.Snowflake
import GajaeCode.Utils.RingBuffer
import GajaeCode.Session.IdSets
