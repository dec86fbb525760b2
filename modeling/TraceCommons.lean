import TraceCommons.Lib.Drawdown
import TraceCommons.Lib.Fold
import TraceCommons.Gate.Amount
import TraceCommons.Lib.Conc
import TraceCommons.Payout.Accrual
import TraceCommons.Payout.AccrualLine
import TraceCommons.Payout.AccrualRuns
import TraceCommons.Payout.AccrualExact
import TraceCommons.Payout.AccrualTotal
import TraceCommons.Payout.AccrualReplay
import TraceCommons.Payout.Store
import TraceCommons.Payout.LinkRequest
import TraceCommons.Payout.Rail
import TraceCommons.Payout.Pass
import TraceCommons.Payout.PassSystem
import TraceCommons.Payout.Books
import TraceCommons.Payout.BookSteps
import TraceCommons.Payout.PassLogic
import TraceCommons.Payout.PassSafety
import TraceCommons.Payout.PayoutRuns
import TraceCommons.Payout.LinkLife
import TraceCommons.Payout.LinkProtocol
import TraceCommons.Lib.Allot
import TraceCommons.Referral.Store
import TraceCommons.Referral.Shares
import TraceCommons.Referral.Void
import TraceCommons.Referral.Safety
import TraceCommons.Referral.Plan
import TraceCommons.Referral.PlanRuns
import TraceCommons.Legacy.Carry
import TraceCommons.Legacy.CarryRules
import TraceCommons.Legacy.CarrySafety
import TraceCommons.Reward.Ledger
import TraceCommons.Reward.LedgerSafety
import TraceCommons.Gate.Decimal
import TraceCommons.Admission.Ledger
import TraceCommons.Admission.LedgerRuns
import TraceCommons.Lib.OrdMap
import TraceCommons.Trust.Rule
import TraceCommons.Trust.RuleCounts
import TraceCommons.Trust.RuleLaws
import TraceCommons.Trust.RuleLimits
import TraceCommons.Witness.Configuration
import TraceCommons.Witness.ConfigurationSafety
import TraceCommons.Daemon.Queue
import TraceCommons.Daemon.Pass
import TraceCommons.Daemon.System
import TraceCommons.Daemon.Moves
import TraceCommons.Daemon.Steps
import TraceCommons.Daemon.Hold
import TraceCommons.Daemon.Final
import TraceCommons.Audit.Log
import TraceCommons.Audit.Chain
import TraceCommons.Audit.Mirror
import TraceCommons.Audit.MirrorSafety
import TraceCommons.Audit.MirrorRuns
import TraceCommons.Lib.Splice
import TraceCommons.Redaction.EditMap
import TraceCommons.Contract.Canonical
import TraceCommons.Daemon.Cards
import TraceCommons.Daemon.OneCard
import TraceCommons.Daemon.FolderPolicy
import TraceCommons.Daemon.ArmFromNow
import TraceCommons.Daemon.TermsSweep
import TraceCommons.Daemon.Rekey
import TraceCommons.Lib.Span
import TraceCommons.Redaction.Report
import TraceCommons.Redaction.Secrets
import TraceCommons.Redaction.SecretCover
import TraceCommons.Insights.BigNat
import TraceCommons.Lib.BinomialTail
import TraceCommons.Insights.ExactInterval
import TraceCommons.Insights.ExactTail
import TraceCommons.Insights.FamilyCoverage
import TraceCommons.Redaction.ResidualScan
import TraceCommons.Redaction.Envelope
import TraceCommons.Redaction.Rescrub
import TraceCommons.Redaction.RescrubRisk
import TraceCommons.Dedup.Sweep
import TraceCommons.Redaction.TokenFilter
import TraceCommons.Trust.RuleTotals
import TraceCommons.Daemon.PreviewScheduler
import TraceCommons.Daemon.PinnedBytes
import TraceCommons.Gate.Chunker
import TraceCommons.Witness.AcceptedList
import TraceCommons.Contract.Settle
import TraceCommons.Invite.Cache
import TraceCommons.Audit.Verified
import TraceCommons.Insights.GridPoints
