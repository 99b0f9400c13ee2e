import Reyn.Events.AgentSnapshot
import Reyn.Events.BranchModel
import Reyn.Events.ConfigGenerations
import Reyn.Events.DurabilityWorker
import Reyn.Events.NoStuckState
import Reyn.Events.RewindIndex
import Reyn.Events.SerialWrites
import Reyn.Events.SnapshotGenerations
import Reyn.Events.WalEntry
import Reyn.Events.WorkerInvariant
import Reyn.Hooks.Composer
import Reyn.Hooks.ComposerConfig
import Reyn.Hooks.ComposerCycles
import Reyn.Hooks.ComposerStreams
import Reyn.Hooks.ComposerTiming
import Reyn.Hooks.DurablePending
import Reyn.Hooks.HookBus
import Reyn.Lib.Calendar
import Reyn.Lib.DepthFirst
import Reyn.Lib.Descent
import Reyn.Lib.Dict
import Reyn.Lib.Fallible
import Reyn.Lib.FifoHistory
import Reyn.Lib.Increasing
import Reyn.Lib.Json
import Reyn.Lib.JsonDecode
import Reyn.Lib.JsonScan
import Reyn.Lib.JsonScanRead
import Reyn.Lib.JsonScanWrite
import Reyn.Lib.JsonText
import Reyn.Lib.KeyedLog
import Reyn.Lib.LineCursor
import Reyn.Lib.Lineage
import Reyn.Lib.Number
import Reyn.Lib.Runs
import Reyn.Lib.Shlex
import Reyn.Lib.TextFile
import Reyn.Lib.TextLines
import Reyn.Lib.TextReplace
import Reyn.Lib.TextSubst
import Reyn.Lib.UtcTime
import Reyn.Lib.Value
import Reyn.Lib.Walk
import Reyn.Pipeline.Documents
import Reyn.Pipeline.Expr
import Reyn.Pipeline.ExprEval
import Reyn.Pipeline.ExprGrammar
import Reyn.Pipeline.ExprParser
import Reyn.Pipeline.ExprSemantics
import Reyn.Pipeline.ExprTags
import Reyn.Pipeline.ExprTexts
import Reyn.Pipeline.ExprTokens
import Reyn.Pipeline.FanOut
import Reyn.Pipeline.FanOutResults
import Reyn.Pipeline.JsonSchema
import Reyn.Pipeline.MixedKeys
import Reyn.Pipeline.Parser
import Reyn.Pipeline.RefCycles
import Reyn.Pipeline.Registry
import Reyn.Pipeline.Schema
import Reyn.Pipeline.SchemaAgreement
import Reyn.Pipeline.Serde
import Reyn.Pipeline.SpawnGuards
import Reyn.Pipeline.Steps
import Reyn.Pipeline.StoredPipeline
import Reyn.Pipeline.Validate
import Reyn.Pipeline.WorkOrder
import Reyn.Runtime.AgentLifecycle
import Reyn.Runtime.BudgetFloor
import Reyn.Runtime.BudgetLedger
import Reyn.Runtime.BudgetScan
import Reyn.Runtime.BudgetSpend
import Reyn.Runtime.BudgetTracker
import Reyn.Runtime.ChainManager
import Reyn.Runtime.ChatInvariant
import Reyn.Runtime.ChatMessage
import Reyn.Runtime.ChatSession
import Reyn.Runtime.Compaction
import Reyn.Runtime.CompactionGap
import Reyn.Runtime.Coverage
import Reyn.Runtime.CycleVisibility
import Reyn.Runtime.DurableQueue
import Reyn.Runtime.Existence
import Reyn.Runtime.FoldCoverage
import Reyn.Runtime.FoldPermanence
import Reyn.Runtime.FoldSelection
import Reyn.Runtime.HistoryFile
import Reyn.Runtime.HistoryGc
import Reyn.Runtime.HistoryPages
import Reyn.Runtime.HistoryReaders
import Reyn.Runtime.HistoryRetention
import Reyn.Runtime.HistorySegments
import Reyn.Runtime.InterventionQueue
import Reyn.Runtime.JournalReplay
import Reyn.Runtime.JournalRun
import Reyn.Runtime.LadderProvenance
import Reyn.Runtime.LadderTermination
import Reyn.Runtime.NoEscalation
import Reyn.Runtime.PersistedPrefix
import Reyn.Runtime.PointInTime
import Reyn.Runtime.PurgeNarrowing
import Reyn.Runtime.RecoveryLadder
import Reyn.Runtime.ReplayLaws
import Reyn.Runtime.ResolvedProfile
import Reyn.Runtime.Restart
import Reyn.Runtime.RetainedHistory
import Reyn.Runtime.SessionHistory
import Reyn.Runtime.SnapshotJournal
import Reyn.Runtime.SpawnLineage
import Reyn.Runtime.SpillMap
import Reyn.Runtime.SpillSplit
import Reyn.Runtime.TopologyLifecycle
import Reyn.Runtime.TopologyRecovery
import Reyn.Runtime.TurnUsage
import Reyn.Runtime.UntrustedNarrowing
import Reyn.Runtime.World
import Reyn.Runtime.WorldInvariant
import Reyn.Security.ApprovalLedger
import Reyn.Security.ApprovalWriters
import Reyn.Security.CapabilityProfile
import Reyn.Security.ComposedNarrowing
import Reyn.Security.ExecPlan
import Reyn.Security.FileScope
import Reyn.Security.NarrowingMappings
import Reyn.Security.PermissionResolver
