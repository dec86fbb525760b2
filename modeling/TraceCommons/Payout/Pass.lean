import TraceCommons.Lib.Conc
import TraceCommons.Payout.Rail

/-! # The payout pass

`PayoutPass::run_once` on one rail, as a program over the store and the rail. The report, the send
budgets and the referral stream's state are its local variables: an early end keeps them, as the
source's `&mut` arguments do. Log lines and audit rows are left out; a line's reference hash is
its id. -/

namespace TraceCommons.Payout

open Conc

inductive PayoutMode
  | disabled | dryRun | live
  deriving DecidableEq

/-! ## Labels -/

def maxReceiptCandidates : Nat := 16

def payoutLinkUnreadable : String := "payout_link_unreadable"
def payoutOverCeiling : String := "payout_over_ceiling"
def payoutAmountOutOfRange : String := "payout_amount_out_of_range"
def payoutProgramTotalMismatch : String := "payout_program_total_mismatch"
def payoutRecoveryUnmatched : String := "payout_recovery_unmatched"
def payoutLinkCloseBlocked : String := "payout_link_close_blocked"
def payoutReceiptUnrecorded : String := "payout_receipt_unrecorded"
def payoutSendWindowExhausted : String := "payout_send_window_exhausted"
def payoutStoreFailed : String := "payout_store_failed"
def payoutRailSendingDisabled : String := "payout_rail_sending_disabled"
def payoutRateUnavailable : String := "payout_rate_unavailable"
def payoutReceiptConflict : String := "payout_receipt_conflict"
def payoutLineInvalid : String := "payout_line_invalid"
def payoutOwedInconsistent : String := "payout_owed_inconsistent"
def referralHoldPrefix : String := "referral_"
def referralOverCeiling : String := "referral_over_ceiling"
def referralOwedChanged : String := "referral_owed_changed"
def referralProgramTotalMismatch : String := "referral_program_total_mismatch"
def referralRecoveryUnmatched : String := "referral_recovery_unmatched"
def referralReceiptUnrecorded : String := "referral_receipt_unrecorded"
def referralAmountOutOfRange : String := "referral_amount_out_of_range"
def referralReceiptConflict : String := "referral_receipt_conflict"
def referralLineInvalid : String := "referral_line_invalid"
def referralOwedInconsistent : String := "referral_owed_inconsistent"
def referralProgramMismatch : String := "referral_program_mismatch"
def referralStreamHeld : String := "referral_stream_held"
def referralStreamUnsupported : String := "referral_stream_unsupported"
def referralSendingDisabled : String := "referral_sending_disabled"

def isReferralStreamHold (label : String) : Bool :=
  (stripPrefix referralHoldPrefix.toList label.toList).isSome

def holdAppliesToStream (stream : PayoutStream) (label : String) : Bool :=
  match stream with
  | .earned => !isReferralStreamHold label
  | .referral => isReferralStreamHold label || label = payoutLinkUnreadable

/-- The label a hold raised on `stream` is opened under. -/
def streamHoldLabel (stream : PayoutStream) (label : String) : String :=
  if stream = .earned || isReferralStreamHold label || label = payoutLinkUnreadable then label
  else if label = payoutProgramTotalMismatch then referralProgramTotalMismatch
  else if label = payoutRecoveryUnmatched then referralRecoveryUnmatched
  else if label = payoutReceiptUnrecorded then referralReceiptUnrecorded
  else if label = payoutAmountOutOfRange then referralAmountOutOfRange
  else if label = payoutReceiptConflict then referralReceiptConflict
  else if label = payoutLineInvalid then referralLineInvalid
  else if label = payoutOwedInconsistent then referralOwedInconsistent
  else referralStreamHeld

/-! ## Targets -/

def streamTarget (owed closedFinal confirmed : Nat) : Option Nat :=
  (checkedSub owed closedFinal).filter (confirmed < ·)

def saturatingAdd (bits a b : Nat) : Nat := min (a + b) (2 ^ bits - 1)

def cappedStreamTarget (targetFull programTotal perSendMax : Nat) : Nat :=
  min targetFull (saturatingAdd 128 programTotal perSendMax)

theorem streamTarget_eq_some {owed closedFinal confirmed t : Nat} :
    streamTarget owed closedFinal confirmed = some t ↔
      t + closedFinal = owed ∧ confirmed < t := by
  simp only [streamTarget, Option.filter_eq_some_iff, checkedSub_eq_some, decide_eq_true_eq]
  omega

theorem cappedStreamTarget_le (targetFull programTotal perSendMax : Nat) :
    cappedStreamTarget targetFull programTotal perSendMax ≤ targetFull :=
  min_le_left _ _

/-! ## Calls -/

inductive StoreOp
  | payoutControl
  | referralControl
  | tenantsWithLivePayoutLinks
  | payoutLinks (tenant : String) (states : List PayoutLinkState)
  | payoutAccountStanding (tenant : String) (account : Uuid)
  | openPayoutHoldLabels (tenant : String) (account : Uuid)
  | openPayoutHold (tenant : String) (account : Uuid) (label : String)
  | clearPayoutHold (tenant : String) (account : Uuid) (label : String)
  | payoutOwed (tenant : String) (account : Uuid)
  | payoutReferralOwed (tenant : String) (account : Uuid)
  | payoutClosedLinksFinalPaid (tenant : String) (account : Uuid)
  | payoutClosedLinksFinalPaidReferral (tenant : String) (account : Uuid)
  | payoutLinkStreamConfirmedTotal (tenant : String) (linkId : Uuid) (stream : PayoutStream)
  | payoutLiveLink (tenant : String) (account : Uuid)
  | transitionPayoutLink (tenant : String) (linkId : Uuid) (src dst : PayoutLinkState)
      (action : PayoutAuditAction)
  | closePayoutLinkStreams (tenant : String) (linkId : Uuid) (finalPaid : Nat)
      (finalPaidReferral : Option Nat) (successor : Option Uuid)
  | markPayoutLinkRecipientUnavailable (tenant : String) (linkId : Uuid)
  | pendingPayoutLineForStream (tenant : String) (linkId : Uuid) (stream : PayoutStream)
  | insertPendingPayoutLine (tenant : String) (write : PayoutLineWrite)
  | resolvePayoutLine (tenant : String) (lineId : Uuid) (resolution : PayoutLineResolution)
  | payoutReceiptIsClaimed (tenant : String) (receiptHash : String)

namespace StoreOp

@[reducible] def Result : StoreOp → Type
  | payoutControl => Bool
  | referralControl => Bool
  | tenantsWithLivePayoutLinks => List String
  | payoutLinks .. => List PayoutLink
  | payoutAccountStanding .. => PayoutAccountStanding
  | openPayoutHoldLabels .. => List String
  | openPayoutHold .. => Bool
  | clearPayoutHold .. => Bool
  | payoutOwed .. => PayoutOwed
  | payoutReferralOwed .. => PayoutReferralOwed
  | payoutClosedLinksFinalPaid .. => Nat
  | payoutClosedLinksFinalPaidReferral .. => Nat
  | payoutLinkStreamConfirmedTotal .. => Nat
  | payoutLiveLink .. => Option PayoutLink
  | transitionPayoutLink .. => PayoutLinkTransition
  | closePayoutLinkStreams .. => PayoutLinkClose
  | markPayoutLinkRecipientUnavailable .. => Bool
  | pendingPayoutLineForStream .. => Option PayoutLine
  | insertPendingPayoutLine .. => PendingPayoutLineInsert
  | resolvePayoutLine .. => PayoutLineResolve
  | payoutReceiptIsClaimed .. => Bool

/-- A read that may fail, which changes nothing. -/
def reading {α : Type} (db : Db) (r : Except DatabaseError α) : Except DatabaseError (α × Db) :=
  r.map fun a => (a, db)

def run (db : Db) : (o : StoreOp) → Except DatabaseError (o.Result × Db)
  | payoutControl => .ok (db.halted, db)
  | referralControl => .ok (db.referralHalted, db)
  | tenantsWithLivePayoutLinks => .ok (db.tenantsWithLivePayoutLinks, db)
  | payoutLinks t states => .ok (db.payoutLinks t states, db)
  | payoutAccountStanding t a => .ok (db.standing t a, db)
  | openPayoutHoldLabels t a => .ok (db.openPayoutHoldLabels t a, db)
  | openPayoutHold t a label => .ok (db.openPayoutHold t a label)
  | clearPayoutHold t a label => .ok (db.clearPayoutHold t a label)
  | payoutOwed t a => reading db (db.payoutOwed t a)
  | payoutReferralOwed t a => reading db (db.payoutReferralOwed t a)
  | payoutClosedLinksFinalPaid t a => reading db (db.payoutClosedLinksFinalPaid t a)
  | payoutClosedLinksFinalPaidReferral t a => reading db (db.payoutClosedLinksFinalPaidReferral t a)
  | payoutLinkStreamConfirmedTotal t l s => reading db (db.payoutLinkStreamConfirmedTotal t l s)
  | payoutLiveLink t a => .ok (db.payoutLiveLink t a, db)
  | transitionPayoutLink t l src dst action => db.transitionPayoutLink t l src dst action
  | closePayoutLinkStreams t l paid referral next => db.closePayoutLinkStreams t l paid referral next
  | markPayoutLinkRecipientUnavailable t l => .ok (db.markPayoutLinkRecipientUnavailable t l)
  | pendingPayoutLineForStream t l s => .ok (db.pendingPayoutLineForStream t l s, db)
  | insertPendingPayoutLine t w => db.insertPendingPayoutLine t w
  | resolvePayoutLine t l r => .ok (db.resolvePayoutLine t l r)
  | payoutReceiptIsClaimed t r => .ok (db.payoutReceiptIsClaimed t r, db)

end StoreOp

inductive RailOp
  | readTotal (program : String)
  | send (line : RailLine)
  | findReceipt (line : RailLine) (exclude : List String)
  | history (program : String)

namespace RailOp

@[reducible] def Result : RailOp → Type
  | readTotal _ => Nat
  | send _ => SendOutcome
  | findReceipt .. => ReceiptLookup
  | history _ => List RailRecord

def run (rail : Rail) (g : Ledger) : (o : RailOp) → o.Result × Ledger
  | readTotal program => (g.total program, g)
  | send line => g.send rail line
  | findReceipt line exclude => (g.findReceipt line exclude, g)
  | history program => (g.history program, g)

end RailOp

/-- The credential a rail call goes through: the pass's own, or the referral stream's. -/
inductive Credential
  | own | referral
  deriving DecidableEq

inductive PassOp
  | store (o : StoreOp)
  | rail (c : Credential) (o : RailOp)
  | preflight (c : Credential)
  | tryAcquirePayoutPassLock
  | releasePayoutPassLock
  | newUuid
  | releaseUnprovenLegacyCarries (tenant : String)
  | accrueRail (tenant : String)
  | referralBonus (tenant : String)

@[reducible] def PassOp.Reply : PassOp → Type
  | store o => Except DatabaseError o.Result
  | rail _ o => Except RailRefusal o.Result
  | preflight _ => Except RailRefusal RailCapacity
  | tryAcquirePayoutPassLock => Except DatabaseError Bool
  | releasePayoutPassLock => Unit
  | newUuid => Uuid
  | releaseUnprovenLegacyCarries _ => Except DatabaseError Unit
  | accrueRail _ => Except AccrualError (Nat × Nat)
  -- Whether the hook has the referral stream tripped.
  | referralBonus _ => Option Bool

/-! ## Settings and local state -/

structure PayoutPassSettings where
  mode : PayoutMode
  accountCeiling : Nat
  localSendLimit : Nat
  rateInForce : Bool
  deriving DecidableEq

structure ReferralStreamSettings where
  mode : PayoutMode
  accountCeiling : Nat
  sharesRailCredential : Bool
  deriving DecidableEq

/-- The referral stream a pass carries; `rail` says whether it has a rail object. -/
structure ReferralStream where
  rail : Bool
  settings : ReferralStreamSettings
  deriving DecidableEq

/-- A `PayoutPass`. `opens` is the recipient opener. -/
structure PayoutPass where
  rail : Rail
  opens : PayoutLink → Bool
  settings : PayoutPassSettings
  referral : Option ReferralStream
  referralBonus : Bool

inductive PayoutPassOutcome
  | completed | disabled | lockBusy | halted
  | stopped (label : String)
  | failed (label : String)
  deriving DecidableEq

structure PayoutPassReport where
  mode : PayoutMode
  outcome : PayoutPassOutcome
  tenants : Nat
  accrued : Nat
  sent : Nat
  confirmed : Nat
  noOp : Nat
  retried : Nat
  activated : Nat
  closed : Nat
  closeBlocked : Nat
  held : String → Nat
  skipped : String → Nat
  dryRunAccounts : Nat
  dryRunUnits : Nat
  referralMode : PayoutMode
  referralSent : Nat
  referralConfirmed : Nat
  referralStopped : Option String
  referralDryRunAccounts : Nat
  referralDryRunUnits : Nat

namespace PayoutPassReport

def new (mode : PayoutMode) : PayoutPassReport where
  mode := mode
  outcome := .completed
  tenants := 0
  accrued := 0
  sent := 0
  confirmed := 0
  noOp := 0
  retried := 0
  activated := 0
  closed := 0
  closeBlocked := 0
  held _ := 0
  skipped _ := 0
  dryRunAccounts := 0
  dryRunUnits := 0
  referralMode := .disabled
  referralSent := 0
  referralConfirmed := 0
  referralStopped := none
  referralDryRunAccounts := 0
  referralDryRunUnits := 0

def skip (r : PayoutPassReport) (label : String) : PayoutPassReport :=
  { r with skipped := Function.update r.skipped label (r.skipped label + 1) }

def hold (r : PayoutPassReport) (label : String) : PayoutPassReport :=
  { r with held := Function.update r.held label (r.held label + 1) }

def countSent (r : PayoutPassReport) : PayoutStream → PayoutPassReport
  | .earned => { r with sent := r.sent + 1 }
  | .referral => { r with referralSent := r.referralSent + 1 }

def countConfirmed (r : PayoutPassReport) : PayoutStream → PayoutPassReport
  | .earned => { r with confirmed := r.confirmed + 1 }
  | .referral => { r with referralConfirmed := r.referralConfirmed + 1 }

end PayoutPassReport

inductive Halt
  | stop (label : String)
  | halted
  | store
  deriving DecidableEq

structure SendBudget where
  perSendMax : Nat
  remaining : Nat
  deriving DecidableEq

def SendBudget.spend (b : SendBudget) : SendBudget := { b with remaining := b.remaining - 1 }

def SendBudget.ofCapacity (c : RailCapacity) (limit : Nat) : SendBudget where
  perSendMax := c.perSendMax
  remaining := c.sendsRemaining.elim limit (min · limit)

inductive ReferralRun
  | off
  | dryRun
  | live (budget : SendBudget)
  | liveShared
  | stopped
  deriving DecidableEq

structure PassLocals where
  report : PayoutPassReport
  budget : SendBudget
  referral : ReferralRun

/-- Which send budget a call spends: the earned stream's, or the referral credential's own. -/
inductive BudgetRef
  | earned | referral
  deriving DecidableEq

namespace PassLocals

def budgetOf (l : PassLocals) : BudgetRef → SendBudget
  | .earned => l.budget
  | .referral => match l.referral with
    | .live b => b
    | _ => ⟨0, 0⟩

def spend (l : PassLocals) : BudgetRef → PassLocals
  | .earned => { l with budget := l.budget.spend }
  | .referral => match l.referral with
    | .live b => { l with referral := .live b.spend }
    | _ => l

end PassLocals

abbrev PassM := Proc PassOp PassOp.Reply Halt PassLocals

/-- Which stream a call is about, and the credential it goes through. -/
structure On where
  stream : PayoutStream
  credential : Credential
  deriving DecidableEq

structure AccountLinks where
  waiting : Option PayoutLink
  active : Option PayoutLink
  closing : Option PayoutLink
  deriving DecidableEq

inductive ReceiptMatch
  | confirmed
  | unmatched
  | refused (refusal : RailRefusal)
  deriving DecidableEq

structure NewLine where
  targetFull : Nat
  confirmed : Nat
  owedCount : Nat
  deriving DecidableEq

/-- `rail_line`: a stored line as the rail sees it. -/
def railLine (program : String) (line : PayoutLine) : Option RailLine :=
  (checkedSub line.targetTotal line.delta).bind fun confirmed =>
    RailLine.new line.lineId program line.targetTotal confirmed

/-- `is_anchored_tenant`. -/
def isAnchoredTenant (tenant : String) : Bool :=
  ["near-", "nearai-"].any fun p => (stripPrefix p.toList tenant.toList).any fun rest =>
    rest.length = 64 && rest.all fun c => c.isDigit || ('a' ≤ c && c ≤ 'f')

/-! ## The pass -/

def storeCall (o : StoreOp) : PassM (Except DatabaseError o.Result) := Proc.call (PassOp.store o)

def railCall (c : Credential) (o : RailOp) : PassM (Except RailRefusal o.Result) :=
  Proc.call (PassOp.rail c o)

def preflight (c : Credential) : PassM (Except RailRefusal RailCapacity) :=
  Proc.call (PassOp.preflight c)

def newUuid : PassM Uuid := Proc.call PassOp.newUuid

def releaseUnprovenLegacyCarries (tenant : String) : PassM (Except DatabaseError Unit) :=
  Proc.call (PassOp.releaseUnprovenLegacyCarries tenant)

def accrueRailCall (tenant : String) : PassM (Except AccrualError (Nat × Nat)) :=
  Proc.call (PassOp.accrueRail tenant)

def referralBonusHook (tenant : String) : PassM (Option Bool) :=
  Proc.call (PassOp.referralBonus tenant)

/-- A store call; an error ends the run. -/
def store (o : StoreOp) : PassM o.Result := do
  match ← storeCall o with
  | .ok a => return a
  | .error _ => Proc.raise .store

def onReport (f : PayoutPassReport → PayoutPassReport) : PassM Unit :=
  Proc.setLocals fun l => { l with report := f l.report }

def skip (label : String) : PassM Unit := onReport (·.skip label)

def spend (b : BudgetRef) : PassM Unit := Proc.setLocals (·.spend b)

def budgetOf (b : BudgetRef) : PassM SendBudget := do return (← Proc.locals).budgetOf b

def checkHalt : PassM Unit := do
  if ← store .payoutControl then Proc.raise .halted else return

section

variable (tenant : String) (account : Uuid)

/-- Opens a hold on `stream`: the label as `streamHoldLabel` maps it. -/
def hold (stream : PayoutStream) (label : String) : PassM Unit := do
  if ← store (.openPayoutHold tenant account (streamHoldLabel stream label)) then
    onReport (·.hold (streamHoldLabel stream label))
  else return

def streamHeld (stream : PayoutStream) : PassM Bool := do
  let holds ← store (.openPayoutHoldLabels tenant account)
  return holds.any (holdAppliesToStream stream)

def standingHold (stream : PayoutStream) : PassM (Option String) := do
  match (← store (.payoutAccountStanding tenant account)).holdLabel with
  | some label => return some label
  | none =>
    if ← streamHeld tenant account stream then
      match stream with
      | .earned => return some "payout_account_held"
      | .referral => return some "referral_account_held"
    else return none

/-- Clears a ceiling hold that no longer applies. -/
def clearOverCeiling (label cleared : String) : PassM Unit := do
  if ← store (.clearPayoutHold tenant account label) then skip cleared else return

def reloadLive : PassM (Option PayoutLink) := store (.payoutLiveLink tenant account)

def endLine (stream : PayoutStream) (line : PayoutLine) (label : String) : PassM Unit := do
  let _ ← store (.resolvePayoutLine tenant line.lineId (.held label))
  hold tenant account stream label

def failLine (stream : PayoutStream) (line : PayoutLine) (label : String) : PassM Unit := do
  let _ ← store (.resolvePayoutLine tenant line.lineId (.failed label))
  hold tenant account stream label

/-- A refusal on a line, as its variant says. -/
def refused (stream : PayoutStream) (link : PayoutLink) (line : PayoutLine)
    (refusal : RailRefusal) :
    PassM Unit :=
  match refusal with
  | .retry _ => do
    let _ ← store (.resolvePayoutLine tenant line.lineId (.retry refusal.safeLabel))
    onReport fun r => { r with retried := r.retried + 1 }
  | .stopPass _ => Proc.raise (.stop refusal.safeLabel)
  | .holdLine _ => endLine tenant account stream line refusal.safeLabel
  | .recipientUnavailable => do
    let _ ← store (.resolvePayoutLine tenant line.lineId (.held refusal.safeLabel))
    let _ ← store (.markPayoutLinkRecipientUnavailable tenant link.linkId)
  | .failed _ => failLine tenant account stream line refusal.safeLabel

/-- A refusal on a read made before any line was written. -/
def refusedWithoutLine (stream : PayoutStream) (link : PayoutLink) (refusal : RailRefusal) :
    PassM Unit :=
  match refusal with
  | .retry _ => skip refusal.safeLabel
  | .stopPass _ => Proc.raise (.stop refusal.safeLabel)
  | .holdLine _ | .failed _ => hold tenant account stream refusal.safeLabel
  | .recipientUnavailable => do
    let _ ← store (.markPayoutLinkRecipientUnavailable tenant link.linkId)

/-- `match_receipt`, with so many candidates left: pages the rail's records for the one that
answers `line`, skipping any that another line claimed, and confirms it. -/
def matchReceiptFrom (tenant : String) (on : On) (line : PayoutLine) (railLine : RailLine) :
    Nat → List String → PassM ReceiptMatch
  | 0, _ => return .unmatched
  | n + 1, exclude => do
    match ← railCall on.credential (.findReceipt railLine exclude) with
    | .error refusal => return .refused refusal
    | .ok .notFound => return .unmatched
    | .ok (.found receipt delta) =>
      if ← store (.payoutReceiptIsClaimed tenant receipt) then
        matchReceiptFrom tenant on line railLine n (exclude ++ [receipt])
      else
        match ← store (.resolvePayoutLine tenant line.lineId (.confirmed receipt delta)) with
        | .resolved => do
          onReport (·.countConfirmed on.stream)
          return .confirmed
        | .receiptAlreadyClaimed =>
          matchReceiptFrom tenant on line railLine n (exclude ++ [receipt])
        | .notPending => return .confirmed

def matchReceipt (on : On) (line : PayoutLine) (railLine : RailLine) : PassM ReceiptMatch :=
  matchReceiptFrom tenant on line railLine maxReceiptCandidates []

/-- A send the rail says it landed. -/
def sendCommitted (on : On) (line : PayoutLine) (receipt : String) (delta : Nat)
    (totalAfter : Option Nat) : PassM Unit := do
  let finish : PassM Unit :=
    if totalAfter.any (· ≠ line.targetTotal) then
      hold tenant account on.stream payoutProgramTotalMismatch
    else return
  match ← store (.resolvePayoutLine tenant line.lineId (.confirmed receipt delta)) with
  | .resolved => do
    onReport (·.countConfirmed on.stream)
    finish
  | .receiptAlreadyClaimed => endLine tenant account on.stream line payoutReceiptConflict
  | .notPending =>
    if ← store (.payoutReceiptIsClaimed tenant receipt) then do
      skip "payout_line_not_pending"
      finish
    else hold tenant account on.stream payoutReceiptUnrecorded

/-- Sends one pending line, new or recovered, and records the outcome. -/
def sendLine (on : On) (link : PayoutLink) (program : String) (line : PayoutLine) (b : BudgetRef) :
    PassM Unit := do
  checkHalt
  match railLine program line with
  | none => failLine tenant account on.stream line payoutLineInvalid
  | some rl => do
    spend b
    onReport (·.countSent on.stream)
    match ← railCall on.credential (.send rl) with
    | .ok (.committed receipt delta totalAfter) =>
      sendCommitted tenant account on line receipt delta totalAfter
    | .ok (.alreadyAtOrAbove total) =>
      if total < line.targetTotal then
        endLine tenant account on.stream line payoutProgramTotalMismatch
      else
        match ← matchReceipt tenant on line rl with
        | .confirmed => return
        | .unmatched => endLine tenant account on.stream line payoutRecoveryUnmatched
        | .refused refusal => refused tenant account on.stream link line refusal
    | .error refusal => refused tenant account on.stream link line refusal

end

namespace PayoutPass

variable (p : PayoutPass) (tenant : String) (account : Uuid)

def referralMode : PayoutMode :=
  match p.referral with
  | none => .disabled
  | some r => match p.settings.mode, r.settings.mode with
    | .disabled, _ => .disabled
    | _, .disabled => .disabled
    | .live, .live => .live
    | _, _ => .dryRun

def earned : On := ⟨.earned, .own⟩

/-- The referral stream's rail, when it has one. -/
def referralRail : Option On :=
  if p.referral.any (·.rail) then some ⟨.referral, .referral⟩ else none

def referralCeiling : Nat := p.referral.elim 0 (·.settings.accountCeiling)

/-- Writes a new pending line and sends it: the zero read of the program total, the per-send and
wire bounds, the kill switch, then the line, committed before the send. -/
def newLine (on : On) (link : PayoutLink) (program : String) (next : NewLine) (b : BudgetRef) :
    PassM Unit := do
  let budget ← budgetOf b
  if budget.remaining < 2 then skip payoutSendWindowExhausted
  else if budget.perSendMax = 0 then skip "payout_per_send_max_zero"
  else do
    spend b
    match ← railCall on.credential (.readTotal program) with
    | .error refusal => refusedWithoutLine tenant account on.stream link refusal
    | .ok programTotal =>
      if programTotal ≠ next.confirmed then
        hold tenant account on.stream payoutProgramTotalMismatch
      else
        let target := cappedStreamTarget next.targetFull programTotal budget.perSendMax
        if p.rail.wireMax.any (· < target) then
          hold tenant account on.stream payoutAmountOutOfRange
        else do
          checkHalt
          let lineId ← newUuid
          let write : PayoutLineWrite := {
            lineId, linkId := link.linkId, accountId := account, targetTotal := target
            delta := target - programTotal, owedThroughAccrualCount := next.owedCount
            stream := on.stream
            referralProgram := if on.stream = .referral then some program else none }
          match ← store (.insertPendingPayoutLine tenant write) with
          | .linkHasPendingLine => skip "payout_line_pending"
          | .linkNotActive => skip "payout_link_not_active"
          | .referralOwedChanged => skip referralOwedChanged
          | .referralProgramMismatch => hold tenant account on.stream referralProgramMismatch
          | .inserted =>
            sendLine tenant account on link program (PayoutLine.ofWrite tenant write) b

/-- A pending line goes to recovery first; otherwise the stream's next line, if one is due. -/
def payOwed (on : On) (link : PayoutLink) (program : String) (owed owedCount : Nat)
    (closedFinal : StoreOp) (read : closedFinal.Result → Nat) (nothingOwed : String)
    (b : BudgetRef) :
    PassM Unit := do
  match ← store (.pendingPayoutLineForStream tenant link.linkId on.stream) with
  | some line =>
    if (← budgetOf b).remaining = 0 then skip payoutSendWindowExhausted
    else sendLine tenant account on link program line b
  | none =>
    let closed ← store closedFinal
    let confirmed ← store (.payoutLinkStreamConfirmedTotal tenant link.linkId on.stream)
    match streamTarget owed (read closed) confirmed with
    | none => if 0 < owed then skip nothingOwed else return
    | some targetFull =>
      p.newLine tenant account on link program ⟨targetFull, confirmed, owedCount⟩ b

def pay (link : PayoutLink) : PassM Unit := do
  if link.recipientUnavailable then skip "payout_recipient_unavailable"
  else
    match (← store (.payoutAccountStanding tenant account)).holdLabel with
    | some label => skip label
    | none =>
      let owed ← store (.payoutOwed tenant account)
      match owed.net with
      | none => hold tenant account .earned payoutOwedInconsistent
      | some owedNet =>
        if p.settings.accountCeiling < owedNet then hold tenant account .earned payoutOverCeiling
        else do
          clearOverCeiling tenant account payoutOverCeiling "payout_over_ceiling_cleared"
          if ← streamHeld tenant account .earned then skip "payout_account_held"
          else if !p.opens link then hold tenant account .earned payoutLinkUnreadable
          else
            p.payOwed tenant account earned link link.program owedNet
              owed.accrualCount (.payoutClosedLinksFinalPaid tenant account) id
              "payout_nothing_owed" .earned

/-- The referral program a send goes to: the stored one, or the rail's derivation. -/
def referralProgram (link : PayoutLink) : Option String :=
  (link.referralProgram.or (p.rail.referralProgramForLink link.linkId)).filter (· ≠ link.program)

def payReferral (link : PayoutLink) (b : BudgetRef) : PassM Unit := do
  match p.referralRail with
  | none => skip "referral_rail_unconfigured"
  | some on =>
    if link.recipientUnavailable then skip "referral_recipient_unavailable"
    else
      match (← store (.payoutAccountStanding tenant account)).holdLabel with
      | some label => skip label
      | none =>
        let owed ← store (.payoutReferralOwed tenant account)
        match owed.net with
        | none => hold tenant account on.stream referralOwedInconsistent
        | some owedNet =>
          if owed.bonusCount = 0 ∧ link.referralProgram = none then return
          else if p.referralCeiling < owedNet then
            hold tenant account on.stream referralOverCeiling
          else do
            clearOverCeiling tenant account referralOverCeiling "referral_over_ceiling_cleared"
            if ← streamHeld tenant account on.stream then skip "referral_account_held"
            else if !p.opens link then hold tenant account on.stream payoutLinkUnreadable
            else
              match p.referralProgram link with
              | none => skip referralStreamUnsupported
              | some program =>
                p.payOwed tenant account on link program owedNet
                  owed.bonusCount
                  (.payoutClosedLinksFinalPaidReferral tenant account) id
                  "referral_nothing_owed" b

/-- The rail's total of a closing link's program: by a zero read or, the recipient gone, from the
history. `none` when it cannot be told now. -/
def programTotal (on : On) (program : String) : PassM (Option Nat) := do
  match ← railCall on.credential (.readTotal program) with
  | .ok total => return some total
  | .error .recipientUnavailable =>
    match ← railCall on.credential (.history program) with
    | .ok entries =>
      return entries.foldlM
        (fun sum entry => checkedAdd 128 sum entry.delta) 0
    | .error (.stopPass label) => Proc.raise (.stop (RailRefusal.stopPass label).safeLabel)
    | .error _ => return none
  | .error (.stopPass label) => Proc.raise (.stop (RailRefusal.stopPass label).safeLabel)
  | .error _ => return none

/-- Resolves a closing link's pending line against its program's total, by reads only. False when
the link cannot close yet. -/
def settlePending (on : On) (program : String) (total : Nat) (line : PayoutLine) : PassM Bool := do
  if line.targetTotal ≤ total then
    match railLine program line with
    | none => return false
    | some rl =>
      match ← matchReceipt tenant on line rl with
      | .confirmed => return true
      | .unmatched => do
        endLine tenant account on.stream line payoutRecoveryUnmatched
        return true
      | .refused (.stopPass label) => Proc.raise (.stop (RailRefusal.stopPass label).safeLabel)
      | .refused _ => return false
  else
    match ← store (.resolvePayoutLine tenant line.lineId .noOp) with
    | .resolved => do
      onReport fun r => { r with noOp := r.noOp + 1 }
      return true
    | _ => return true

def settleStreamForClose (link : PayoutLink) (on : On) (program : String) : PassM (Option Nat) := do
  match ← programTotal on program with
  | none => return none
  | some total =>
    match ← store (.pendingPayoutLineForStream tenant link.linkId on.stream) with
    | none => return some total
    | some line =>
      if ← settlePending tenant account on program total line then return some total
      else return none

/-- Stops the referral stream for the rest of this run, changing no row. -/
def stopReferral (label : String) : PassM Unit :=
  Proc.setLocals fun l =>
    { l with report := { l.report with referralStopped := some label }, referral := .stopped }

/-- How a close reads the referral program: the credential, the budget it spends, and whether it
goes through the referral stream. -/
def closeReferralThrough (run : ReferralRun) : Credential × BudgetRef × Bool :=
  match p.referralRail, run with
  | some on, .live _ => (on.credential, .referral, true)
  | some on, .liveShared => (on.credential, .earned, true)
  | _, _ => (.own, .earned, false)

/-- The referral stream's part of a close. `none` when the link cannot close yet; otherwise the
total to record, if the link has a referral program. -/
def settleReferralForClose (link : PayoutLink) : PassM (Option (Option Nat)) := do
  match link.referralProgram with
  | none => return some none
  | some program =>
    let (credential, b, through) := p.closeReferralThrough (← Proc.locals).referral
    if (← budgetOf b).remaining = 0 then do
      skip payoutSendWindowExhausted
      return none
    else do
      spend b
      match ← (settleStreamForClose tenant account link ⟨.referral, credential⟩ program).attempt with
      | .ok (some total) => return some (some total)
      | .ok none => return none
      | .error (.stop label) =>
        if through then do
          stopReferral label
          return none
        else Proc.raise (.stop label)
      | .error halt => Proc.raise halt

/-- Resolves a closing link by reads only and closes it, activating `successor` in the same
transaction. False when it cannot close yet. -/
def closeLink (link : PayoutLink) (successor : Option PayoutLink) : PassM Bool := do
  if !p.opens link then do
    hold tenant account .earned payoutLinkUnreadable
    return false
  else do
    spend .earned
    match ← settleStreamForClose tenant account link earned link.program with
    | none => return false
    | some total =>
      match ← p.settleReferralForClose tenant account link with
      | none => return false
      | some referralTotal =>
        match ← store (.closePayoutLinkStreams tenant link.linkId total referralTotal
            (successor.map (·.linkId))) with
        | .closed => return true
        | _ => return false

def countReferralDryRun (link : PayoutLink) : PassM Unit := do
  match ← standingHold tenant account .referral with
  | some label => skip (streamHoldLabel .referral label)
  | none =>
    match (← store (.payoutReferralOwed tenant account)).net with
    | none => skip referralOwedInconsistent
    | some owed =>
      if p.referralCeiling < owed then skip referralOverCeiling
      else do
        let closed ← store (.payoutClosedLinksFinalPaidReferral tenant account)
        let confirmed ← store (.payoutLinkStreamConfirmedTotal tenant link.linkId .referral)
        match streamTarget owed closed confirmed with
        | none => return
        | some target => onReport fun r => { r with
            referralDryRunAccounts := r.referralDryRunAccounts + 1
            referralDryRunUnits := saturatingAdd 128 r.referralDryRunUnits (target - confirmed) }

/-- The earned part of `dry_run`. -/
def countEarnedDryRun (link : PayoutLink) : PassM Unit := do
  match ← standingHold tenant account .earned with
  | some label => skip label
  | none =>
    match (← store (.payoutOwed tenant account)).net with
    | none => skip payoutOwedInconsistent
    | some owed =>
      if p.settings.accountCeiling < owed then skip payoutOverCeiling
      else do
        let closed ← store (.payoutClosedLinksFinalPaid tenant account)
        let confirmed ← store (.payoutLinkStreamConfirmedTotal tenant link.linkId .earned)
        match ((checkedSub owed closed).bind (checkedSub · confirmed)).filter (0 < ·) with
        | none => return
        | some units => onReport fun r => { r with
            dryRunAccounts := r.dryRunAccounts + 1
            dryRunUnits := saturatingAdd 128 r.dryRunUnits units }

/-- `dry_run`: what this account would be sent, from stored rows only. -/
def countDryRun (links : AccountLinks) : PassM Unit := do
  match links.active.or links.waiting with
  | none => return
  | some link =>
    if p.referralMode ≠ .disabled then p.countReferralDryRun tenant account link
    p.countEarnedDryRun tenant account link

/-- Pays the referral stream of the link as it is now. A stop ends only this stream. -/
def runReferralLive (link : PayoutLink) (b : BudgetRef) : PassM Unit := do
  let live ← reloadLive tenant account
  match ← (p.payReferral tenant account (live.getD link) b).attempt with
  | .error (.stop label) => stopReferral label
  | .error halt => Proc.raise halt
  | .ok () => return

/-- The referral stream, after the earned one and independent of it. -/
def runReferral (link : PayoutLink) : PassM Unit := do
  match (← Proc.locals).referral with
  | .off | .stopped => return
  | .dryRun => p.countReferralDryRun tenant account link
  | .live _ => p.runReferralLive tenant account link .referral
  | .liveShared => p.runReferralLive tenant account link .earned

def payActive (active : Option PayoutLink) : PassM Unit := do
  match active with
  | none => return
  | some link => do
    p.pay tenant account link
    p.runReferral tenant account link

/-- Applies requests: an unlink, or a confirmed waiting successor, moves the live link to closing.
`none` when the link did not move. -/
def applyRequests (links : AccountLinks) :
    PassM (Option (Option PayoutLink × Option PayoutLink)) := do
  match links.active with
  | none => return some (none, links.closing)
  | some link =>
    if link.unlinkRequested || links.waiting.isSome then
      match ← store (.transitionPayoutLink tenant link.linkId .active .closing .linkClosing) with
      | .moved =>
        if links.closing.isNone then return some (none, some { link with state := .closing })
        else do
          skip "payout_link_not_moved"
          return none
      | _ => do
        skip "payout_link_not_moved"
        return none
    else return some (some link, links.closing)

def runAccount (links : AccountLinks) : PassM Unit := do
  match ← applyRequests tenant links with
  | none => return
  | some (_, some link) =>
    if (← budgetOf .earned).remaining = 0 then skip payoutSendWindowExhausted
    else if ← p.closeLink tenant account link links.waiting then do
      onReport fun r => { r with
        closed := r.closed + 1
        activated := r.activated + if links.waiting.isSome then 1 else 0 }
      p.payActive tenant account (← reloadLive tenant account)
    else do
      onReport fun r => { r with closeBlocked := r.closeBlocked + 1 }
      skip payoutLinkCloseBlocked
  | some (some link, none) => p.payActive tenant account (some link)
  | some (none, none) =>
    match links.waiting with
    | none => return
    | some link => do
      match ← store (.transitionPayoutLink tenant link.linkId .waiting .active .linkActivated) with
      | .moved => do
        onReport fun r => { r with activated := r.activated + 1 }
        p.payActive tenant account (← reloadLive tenant account)
      | _ => p.payActive tenant account (← reloadLive tenant account)

/-- An account's links by state; of several in one state, the last. -/
def accountLinks (links : List PayoutLink) (account : Uuid) : AccountLinks :=
  let own (s : PayoutLinkState) : Option PayoutLink :=
    (links.filter fun l => l.accountId = account && l.state = s).getLast?
  ⟨own .waiting, own .active, own .closing⟩

/-- The referral bonus hook, after accrual. -/
def runReferralBonus : PassM Unit := do
  if p.referralBonus then
    match ← referralBonusHook tenant with
    | some true => Proc.setLocals fun l => match l.referral with
      | .live _ | .liveShared =>
        { l with report := { l.report with referralMode := .dryRun }, referral := .dryRun }
      | _ => l
    | _ => return
  else return

/-- Each account of the tenant, in the order of its id. -/
def runAccounts : PassM Unit := do
  let links ← store (.payoutLinks tenant [.waiting, .active, .closing])
  let accounts := (links.map (·.accountId)).dedup.insertionSort (· ≤ ·)
  Proc.forEach (fun account =>
    if p.settings.mode = .live then p.runAccount tenant account (accountLinks links account)
    else p.countDryRun tenant account (accountLinks links account)) accounts

def runTenant : PassM Unit := do
  if p.settings.mode = .live ∧ isAnchoredTenant tenant = false then
    let _ ← releaseUnprovenLegacyCarries tenant
  match ← accrueRailCall tenant with
  -- Owed may be missing a reversal: nothing is sent in this tenant until accrual runs clean.
  | .error e => skip e.label
  | .ok (credits, reversals) => do
    onReport fun r => { r with accrued := r.accrued + (credits + reversals) }
    p.runReferralBonus tenant
    p.runAccounts tenant

/-- The label of a rail that reports sending off. -/
def stopLabel (c : RailCapacity) (fallback : String) : String :=
  c.stopLabel.elim fallback fun label => (RailRefusal.stopPass label).safeLabel

/-- The referral stream's state for this run. -/
def referralRun : PassM Unit := do
  let set (run : ReferralRun) : PassM Unit := Proc.setLocals fun l => { l with referral := run }
  match p.referralMode with
  | .disabled => set .off
  | .dryRun => set .dryRun
  | .live =>
    match ← storeCall .referralControl with
    | .error _ => stopReferral payoutStoreFailed
    | .ok true => Proc.setLocals fun l =>
        { l with report := { l.report with referralMode := .dryRun }, referral := .dryRun }
    | .ok false =>
      match p.referralRail with
      | none => stopReferral "referral_rail_unconfigured"
      | some on =>
        if p.referral.any (·.settings.sharesRailCredential) then set .liveShared
        else
          match ← preflight on.credential with
          | .error refusal => stopReferral refusal.safeLabel
          | .ok capacity =>
            if capacity.sendingEnabled then
              set (.live (.ofCapacity capacity p.settings.localSendLimit))
            else stopReferral (stopLabel capacity referralSendingDisabled)

/-- Capacity once per pass, before any line is written. -/
def readCapacity : PassM Unit := do
  if p.settings.mode = .live then
    match ← preflight .own with
    | .error refusal => Proc.raise (.stop refusal.safeLabel)
    | .ok capacity =>
      if capacity.sendingEnabled then
        Proc.setLocals fun l =>
          { l with budget := .ofCapacity capacity p.settings.localSendLimit }
      else Proc.raise (.stop (stopLabel capacity payoutRailSendingDisabled))
  else return

def runLocked : PassM Unit := do
  checkHalt
  let tenants ← store .tenantsWithLivePayoutLinks
  onReport fun r => { r with tenants := tenants.length }
  if tenants.isEmpty then return
  else do
    p.readCapacity
    p.referralRun
    Proc.forEach p.runTenant tenants

def outcomeOf : Except Halt Unit → PayoutPassOutcome
  | .ok () => .completed
  | .error (.stop label) => .stopped label
  | .error .halted => .halted
  | .error .store => .failed payoutStoreFailed

/-- One pass. The outcome says how it ended. -/
def runOnce : Prog PassOp PassOp.Reply PayoutPassReport :=
  let report := { PayoutPassReport.new p.settings.mode with referralMode := p.referralMode }
  if p.settings.mode = .disabled then .ret { report with outcome := .disabled }
  else if !p.settings.rateInForce then .ret { report with outcome := .stopped payoutRateUnavailable }
  else .call .tryAcquirePayoutPassLock fun
    | .error _ => .ret { report with outcome := .failed payoutStoreFailed }
    | .ok false => .ret { report with outcome := .lockBusy }
    | .ok true =>
      (p.runLocked ⟨report, ⟨0, 0⟩, .off⟩).bind fun r =>
        .call .releasePayoutPassLock fun _ => .ret { r.2.report with outcome := outcomeOf r.1 }

end PayoutPass

end TraceCommons.Payout
