import AgentSdk.EventLog
import AgentSdk.View
import AgentSdk.ConversationState
import AgentSdk.Recovery
import AgentSdk.Session
import AgentSdk.Agent
import AgentSdk.Lib.Result
import AgentSdk.StepEmission
import AgentSdk.StepCompleteness
import AgentSdk.View.Closed
import AgentSdk.View.Manipulation
import AgentSdk.Lib.Runs
import AgentSdk.ViewCache
import AgentSdk.View.Enforcement
import AgentSdk.Messages
import AgentSdk.History
import AgentSdk.EventFile
import AgentSdk.EventStore
import AgentSdk.MultiWriter
import AgentSdk.Lib.Bisect
import AgentSdk.SequenceNumbers
import AgentSdk.RunLoop
import AgentSdk.Confirmation
import AgentSdk.ConversationLease
import AgentSdk.SessionSocket
import AgentSdk.LastUserMessage
import AgentSdk.RunRequests
import AgentSdk.RunPermits
import AgentSdk.Condenser
import AgentSdk.Lib.Leftmost
import AgentSdk.SecretMask
import AgentSdk.Fork
import AgentSdk.HeadDurability
import AgentSdk.Lib.Text
import AgentSdk.Lib.Json
import AgentSdk.Lib.Scan
import AgentSdk.FunctionCalls
import AgentSdk.FunctionCallRoundTrip
import AgentSdk.LocalFileStore
import AgentSdk.FifoLock
import AgentSdk.ResourceLocks
import AgentSdk.BashOutput
import AgentSdk.Telemetry
import AgentSdk.RemoteEvents
import AgentSdk.SubAgents
import AgentSdk.McpTools
import AgentSdk.DockerRegistry
import AgentSdk.SecretStores
import AgentSdk.HookDenials
import AgentSdk.FunctionCallFound
import AgentSdk.EmulatedCalls
import AgentSdk.EmulatedConversation
import AgentSdk.AcceptedCalls
import AgentSdk.ConversationLifecycle
import AgentSdk.Worktrees
import AgentSdk.Creation
import AgentSdk.Webhook
import AgentSdk.Lib.Substitute
import AgentSdk.McpPlaceholders
import AgentSdk.VersionedSecrets
import AgentSdk.StreamContext
import AgentSdk.LostEvents
import AgentSdk.Splice
import AgentSdk.SplitCalls
import AgentSdk.SearchPages
import AgentSdk.StuckDetector
import AgentSdk.ResumeTranscript
import AgentSdk.Retention
import AgentSdk.TaskManager
import AgentSdk.ApplyPatch
import AgentSdk.AppliedHunks
import AgentSdk.PatchedFiles
import AgentSdk.FileEditor
import AgentSdk.EditorSteps
import AgentSdk.EditedText
import AgentSdk.FailedEdits
import AgentSdk.Lib.UndoStack
import AgentSdk.UndoHistory
import AgentSdk.PanePool
import AgentSdk.Lib.Regex
import AgentSdk.Lib.Words
import AgentSdk.EscapeFilter
import AgentSdk.FilteredOutput
import AgentSdk.EnvParser
import AgentSdk.BashEventPages
import AgentSdk.ConversationPages
import AgentSdk.CacheAccounting
import AgentSdk.Trash
import AgentSdk.Metrics
import AgentSdk.Fallback
import AgentSdk.LoadMemory
import AgentSdk.Truncate
import AgentSdk.GitChanges
import AgentSdk.Lib.Parallel
import AgentSdk.Workflow
import AgentSdk.PluginFailures
import AgentSdk.RuntimeTools
import AgentSdk.PathRules
import AgentSdk.Lib.JsonSchema
import AgentSdk.ToolSchema
import AgentSdk.ShownCalls
import AgentSdk.McpCalls
import AgentSdk.UsageLeaks
import AgentSdk.WorkflowLimit
