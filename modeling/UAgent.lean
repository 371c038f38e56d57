import UAgent.App.SessionMoveRecovery
import UAgent.Base.Script
import UAgent.Agent.SessionStore
import UAgent.Agent.ConversationRestore
import UAgent.Agent.Conversation
import UAgent.Agent.MailDelivery
import UAgent.App.Permissions
import UAgent.App.SessionServer
import UAgent.App.ReplayLog
import UAgent.App.OutcomeStore
import UAgent.Transport.Sse
import UAgent.Web.RfbRelease
import UAgent.Agent.ToolLoop
import UAgent.Base.Evolve
import UAgent.App.ScheduleRuns
import UAgent.App.ScheduleTimes
import UAgent.Agent.MemoryGate
import UAgent.Core.Journal
import UAgent.Agent.DeltaReplay
import UAgent.Agent.TurnNumbers
import UAgent.App.Interaction
import UAgent.Agent.ActivitySupervisor
import UAgent.Agent.TurnAccounts
import UAgent.Agent.AttachmentKinds
import UAgent.Transport.Frames
import UAgent.Core.TextPages
import UAgent.Agent.ResultPruning
import UAgent.Agent.DuplicateResults
import UAgent.Agent.ArchiveAccounts
import UAgent.Agent.FactAccounts
import UAgent.Agent.UndoRuns
import UAgent.App.BatcherRuns
import UAgent.Agent.ViewBounds
import UAgent.Core.StatisticsSum
import UAgent.Agent.ModelResults
import UAgent.Api.ReasoningStream
import UAgent.Agent.AttachedText
import UAgent.Tools.EditsApplied
import UAgent.Tools.ReadFile
import UAgent.Api.AnthropicTurns
import UAgent.Media.Base64File
import UAgent.Api.CallStreams
import UAgent.Api.AnswerStream
import UAgent.Agent.RootPrompt
import UAgent.App.HiddenKeys
import UAgent.App.AssetStore
import UAgent.Core.ConfigReload
import UAgent.Base.Incremental
import UAgent.Ui.InputDecoder
import UAgent.Ui.InputVerdicts
import UAgent.Ui.InputReads
import UAgent.Ui.InputCuts
import UAgent.Ui.SameTokens
import UAgent.Api.AnthropicStream
import UAgent.Api.AnthropicSlots
import UAgent.Api.AnthropicBlocks
import UAgent.Core.SandboxPaths
import UAgent.Agent.CommonLines
import UAgent.Web.TerminalReads
import UAgent.Web.PairingRuns
import UAgent.Agent.StepNotes
import UAgent.Agent.CompactionSwap
import UAgent.Ui.MarkdownShown
import UAgent.Ui.TranscriptWrites
import UAgent.Browser.LeaseRuns
import UAgent.Base.Folded
import UAgent.Core.SandboxPolicy
import UAgent.Base.LastRule
import UAgent.Base.Sexp
import UAgent.Core.Landlock
import UAgent.Core.Seatbelt
import UAgent.Api.CachedPayloads
import UAgent.Agent.ChargePlacement
