import ContextLedger.JsonInjective
import ContextLedger.FloatScale
import ContextLedger.Transition
import ContextLedger.Recording
import ContextLedger.Histories
import ContextLedger.RevocationOrder
import ContextLedger.AnswerStability
import ContextLedger.Receipts
import ContextLedger.ReceiptStability
import ContextLedger.TamperEvidence
import ContextLedger.CachePrivacy
import ContextLedger.CacheFreshness
import ContextLedger.ImpactTimes
import ContextLedger.GraphConvergence
import ContextLedger.GraphImpact
import ContextLedger.ActivityCounts
import ContextLedger.ConsumerOffsets
import ContextLedger.RelayOrder
import ContextLedger.RecordedResponses
import ContextLedger.AccessWithdrawal
import ContextLedger.InvestigatorPrivacy
import ContextLedger.McpPrivacy
import ContextLedger.TenantNoninterference
import ContextLedger.EmbeddingProvenance
import ContextLedger.EmbeddingAttempts
import ContextLedger.SnapshotMemory
import ContextLedger.PeriodAgreement
import ContextLedger.ConflictDetection
import ContextLedger.Fusion
import ContextLedger.SearchSoundness
import ContextLedger.DroppedConnections
import ContextLedger.ImpactGrouping
import ContextLedger.RetryAfter
import ContextLedger.PromptLines
import ContextLedger.Answers
import ContextLedger.InvestigatorRuns
import ContextLedger.TruncatedBodies
import ContextLedger.LinkRelations
import ContextLedger.LineageReports
import ContextLedger.ContradictionClosings
import ContextLedger.OAuthStates
import ContextLedger.RestPrivacy
import ContextLedger.VersionGuards
import ContextLedger.ActivityAccounts
