import TraceCommons.Payout.AccrualRuns

/-! # The payout store of one rail

The rows of `trace_payout_links`, `trace_payout_lines`, `trace_payout_holds`,
`trace_payout_link_requests` and `trace_referral_bonus_accruals` on one rail, over all tenants,
and the `PayoutStore` methods the payout pass and the link routes call. A method is one
transaction: an error rolls it back. A unique index or a guard trigger that refuses a write is
checked where the write is made. -/

namespace TraceCommons.Payout

inductive PayoutStream
  | earned | referral
  deriving DecidableEq

inductive PayoutLinkState
  | waiting | active | closing | closed
  deriving DecidableEq

/-- The states that share the `trace_payout_links_one_live` index. -/
def PayoutLinkState.live : PayoutLinkState → Bool
  | .active | .closing => true
  | .waiting | .closed => false

inductive PayoutLineState
  | pending | confirmed | noOp | held | failed
  deriving DecidableEq

/-- A row of `trace_payout_links`. -/
structure PayoutLink where
  tenantId : String
  accountId : Uuid
  linkId : Uuid
  recipient : String
  program : String
  state : PayoutLinkState
  finalPaid : Option Nat
  referralProgram : Option String
  finalPaidReferral : Option Nat
  unlinkRequested : Bool
  recipientUnavailable : Bool
  deriving DecidableEq

/-- A row of `trace_payout_lines`. -/
structure PayoutLine where
  tenantId : String
  lineId : Uuid
  linkId : Uuid
  accountId : Uuid
  targetTotal : Nat
  delta : Nat
  owedThroughAccrualCount : Nat
  state : PayoutLineState
  receiptHash : Option String
  attempts : Nat
  lastErrorLabel : Option String
  stream : PayoutStream
  deriving DecidableEq

/-- An open row of `trace_payout_holds`. -/
structure PayoutHold where
  tenantId : String
  accountId : Uuid
  label : String
  deriving DecidableEq

inductive PayoutLinkAction
  | link | unlink
  deriving DecidableEq

/-- A row of `trace_payout_link_requests`. -/
structure PayoutLinkRequest where
  tenantId : String
  accountId : Uuid
  idempotencyKey : Uuid
  handleHash : String
  requestDigest : String
  action : PayoutLinkAction
  expectedCurrentVersion : Option Nat
  recipient : Option String
  provingAnchorHash : Option String
  createdAt : Time
  expiresAt : Time
  deriving DecidableEq

/-- A live `near_ai_login` row of `trace_near_account_anchors`. -/
structure LoginAnchor where
  tenantId : String
  accountId : Uuid
  anchorHash : String
  deriving DecidableEq

inductive ReferralBonusKind
  | bonus | reversal | void
  deriving DecidableEq

/-- A row of `trace_referral_bonus_accruals`, the table in the order its rows were stored. -/
structure ReferralBonusAccrual where
  tenantId : String
  bonusId : Uuid
  accountId : Uuid
  refereeRefHash : String
  kind : ReferralBonusKind
  sourceAccrualId : Option Uuid
  bps : Nat
  baseUnits : Int
  bonusUnits : Int
  rateVersion : String
  instrumentId : String
  createdAt : Time
  deriving DecidableEq

structure PayoutAccountStanding where
  present : Bool
  closed : Bool
  creditHeld : Bool
  carryInvalid : Bool
  deriving DecidableEq

def payoutAccountClosed : String := "payout_account_closed"
def payoutAccountCreditHold : String := "payout_account_credit_hold"
def payoutLegacyCarryInvalid : String := "payout_legacy_carry_invalid"

def PayoutAccountStanding.holdLabel (s : PayoutAccountStanding) : Option String :=
  if !s.present || s.closed then some payoutAccountClosed
  else if s.creditHeld then some payoutAccountCreditHold
  else if s.carryInvalid then some payoutLegacyCarryInvalid
  else none

inductive DatabaseError
  | constraint (label : String)
  | query (label : String)
  | postgres
  deriving DecidableEq

/-- The database as the payouts of one rail see it. The accrual side is per tenant. -/
structure Db where
  accrual : String → World
  links : List PayoutLink
  lines : List PayoutLine
  holds : List PayoutHold
  requests : List PayoutLinkRequest
  bonuses : List ReferralBonusAccrual
  anchors : List LoginAnchor
  standing : String → Uuid → PayoutAccountStanding
  halted : Bool
  referralHalted : Bool
  now : Time

/-- `parse_units`: a sum read back as `u128`. -/
def parseUnits (n : Nat) : Except DatabaseError Nat :=
  if n < 2 ^ 128 then .ok n else .error (.query "payout_amount_out_of_range")

theorem parseUnits_eq_ok {n m : Nat} (h : parseUnits n = .ok m) : n = m := by
  unfold parseUnits at h
  split at h
  · exact Except.ok.inj h
  · cases h

/-- `parse_signed_units`: `none` below zero. -/
def parseSignedUnits (n : Int) : Except DatabaseError (Option Nat) :=
  if n < 0 then (parseUnits n.natAbs).map fun _ => none else (parseUnits n.toNat).map some

/-- `parse_floor_zero`. -/
def parseFloorZero (n : Int) : Except DatabaseError Nat :=
  if n < 0 then .ok 0 else parseUnits n.toNat

structure PayoutOwed where
  credited : Nat
  reversed : Nat
  accrualCount : Nat
  deriving DecidableEq

def PayoutOwed.net (o : PayoutOwed) : Option Nat := checkedSub o.credited o.reversed

structure PayoutReferralOwed where
  net : Option Nat
  bonusCount : Nat
  deriving DecidableEq

structure ReferralOwed where
  owed : Nat
  sent : Nat
  deriving DecidableEq

def ReferralOwed.unsent (o : ReferralOwed) : Nat := o.owed - o.sent

inductive PayoutLinkTransition
  | moved | notInState | liveLinkTaken
  deriving DecidableEq

inductive PayoutLinkClose
  | closed | notClosing | pendingLineOpen | successorNotWaiting | referralTotalMismatch
  deriving DecidableEq

inductive PendingPayoutLineInsert
  | inserted | linkHasPendingLine | linkNotActive | referralProgramMismatch | referralOwedChanged
  deriving DecidableEq

structure PayoutLineWrite where
  lineId : Uuid
  linkId : Uuid
  accountId : Uuid
  targetTotal : Nat
  delta : Nat
  owedThroughAccrualCount : Nat
  stream : PayoutStream
  referralProgram : Option String
  deriving DecidableEq

inductive PayoutLineResolution
  | confirmed (receiptHash : String) (delta : Nat)
  | noOp
  | held (label : String)
  | failed (label : String)
  | retry (label : String)
  deriving DecidableEq

inductive PayoutLineResolve
  | resolved | notPending | receiptAlreadyClaimed
  deriving DecidableEq

inductive PayoutAuditAction
  | linkActivated | linkClosing | linkReleased
  deriving DecidableEq

/-- `PayoutAuditAction::fits_link_transition`. -/
def PayoutAuditAction.fitsLinkTransition : PayoutAuditAction → PayoutLinkState →
    PayoutLinkState → Bool
  | .linkActivated, .waiting, .active => true
  | .linkClosing, .active, .closing => true
  | .linkReleased, .active, .closing => true
  | _, _, _ => false

namespace PayoutLink

def isLink (tenant : String) (linkId : Uuid) (l : PayoutLink) : Bool :=
  l.tenantId = tenant ∧ l.linkId = linkId

def ofAccount (tenant : String) (account : Uuid) (l : PayoutLink) : Bool :=
  l.tenantId = tenant ∧ l.accountId = account

end PayoutLink

namespace PayoutLine

def ofLink (tenant : String) (linkId : Uuid) (l : PayoutLine) : Bool :=
  l.tenantId = tenant ∧ l.linkId = linkId

def ofWrite (tenant : String) (w : PayoutLineWrite) : PayoutLine where
  tenantId := tenant
  lineId := w.lineId
  linkId := w.linkId
  accountId := w.accountId
  targetTotal := w.targetTotal
  delta := w.delta
  owedThroughAccrualCount := w.owedThroughAccrualCount
  state := .pending
  receiptHash := none
  attempts := 0
  lastErrorLabel := none
  stream := w.stream

/-- What a resolution writes into a pending line. -/
def resolve (l : PayoutLine) : PayoutLineResolution → PayoutLine
  | .confirmed receipt delta =>
    { l with state := .confirmed, receiptHash := some receipt, delta, lastErrorLabel := none }
  | .noOp => { l with state := .noOp }
  | .held label => { l with state := .held, lastErrorLabel := some label }
  | .failed label => { l with state := .failed, lastErrorLabel := some label }
  | .retry label => { l with attempts := l.attempts + 1, lastErrorLabel := some label }

end PayoutLine

namespace Db

/-! ## Reads -/

variable (db : Db) (tenant : String) (account linkId : Uuid)

def ownedAccruals : List PayoutAccrual :=
  (db.accrual tenant).stored.filter (·.accountId = some account)

/-- The sum of the rail units of an account's accruals of one kind. -/
def accrued (kind : AccrualKind) : Nat :=
  (((db.ownedAccruals tenant account).filter (·.kind = kind)).map (·.railUnits)).sum

def payoutOwed : Except DatabaseError PayoutOwed := do
  let credited ← parseUnits (db.accrued tenant account .credit)
  let reversed ← parseUnits (db.accrued tenant account .reversal)
  return ⟨credited, reversed, (db.ownedAccruals tenant account).length⟩

theorem payoutOwed_eq_ok {db : Db} {t : String} {a : Uuid} {o : PayoutOwed}
    (h : db.payoutOwed t a = .ok o) :
    o.credited = db.accrued t a .credit ∧ o.reversed = db.accrued t a .reversal := by
  simp only [payoutOwed, bind_eq_ok] at h
  obtain ⟨c, hc, r, hr, h⟩ := h
  cases h
  exact ⟨(parseUnits_eq_ok hc).symm, (parseUnits_eq_ok hr).symm⟩

def closedLinks : List PayoutLink :=
  db.links.filter fun l => l.ofAccount tenant account && l.state = .closed

def payoutClosedLinksFinalPaid : Except DatabaseError Nat :=
  parseUnits ((db.closedLinks tenant account).map (·.finalPaid.getD 0)).sum

def payoutClosedLinksFinalPaidReferral : Except DatabaseError Nat :=
  parseUnits ((db.closedLinks tenant account).map (·.finalPaidReferral.getD 0)).sum

def payoutLiveLink : Option PayoutLink :=
  db.links.find? fun l => l.ofAccount tenant account && l.state = .active

def payoutLinks (states : List PayoutLinkState) : List PayoutLink :=
  db.links.filter fun l => l.tenantId = tenant && l.state ∈ states

def tenantsWithLivePayoutLinks : List String :=
  ((db.links.filter (·.state ≠ .closed)).map (·.tenantId)).dedup.insertionSort (· ≤ ·)

def pendingPayoutLineForStream (stream : PayoutStream) : Option PayoutLine :=
  db.lines.find? fun l => l.ofLink tenant linkId && l.state = .pending && l.stream = stream

def payoutLinkStreamConfirmedTotal (stream : PayoutStream) : Except DatabaseError Nat :=
  parseUnits ((db.lines.filter fun l => l.ofLink tenant linkId && l.state = .confirmed &&
    l.stream = stream).map (·.delta)).sum

def payoutReceiptIsClaimed (receipt : String) : Bool :=
  db.lines.any fun l => l.tenantId = tenant && l.receiptHash = some receipt

def openPayoutHoldLabels : List String :=
  ((db.holds.filter fun h => h.tenantId = tenant && h.accountId = account).map
    (·.label)).insertionSort (· ≤ ·)

def bonusRows : List ReferralBonusAccrual :=
  db.bonuses.filter fun b => b.tenantId = tenant && b.accountId = account

def payoutReferralOwed : Except DatabaseError PayoutReferralOwed := do
  let net ← parseSignedUnits ((db.bonusRows tenant account).map (·.bonusUnits)).sum
  return ⟨net, (db.bonusRows tenant account).length⟩

/-- The account's referral lines that were sent or may have been. -/
def referralSent : Nat :=
  ((db.lines.filter fun l => l.tenantId = tenant && l.accountId = account &&
    l.stream = .referral && (l.state = .confirmed || l.state = .pending)).map (·.delta)).sum

/-- `owed_on_tx`. -/
def owedOnTx : Except DatabaseError ReferralOwed := do
  let owed ← parseFloorZero ((db.bonusRows tenant account).map (·.bonusUnits)).sum
  let sent ← parseUnits (db.referralSent tenant account)
  return ⟨owed, sent⟩

/-! ## Writes -/

def updateLink (f : PayoutLink → PayoutLink) : Db :=
  { db with links := db.links.map fun l => if l.isLink tenant linkId then f l else l }

def updateLine (lineId : Uuid) (f : PayoutLine → PayoutLine) : Db :=
  { db with
    lines := db.lines.map fun l => if l.tenantId = tenant ∧ l.lineId = lineId then f l else l }

def findLink (state : PayoutLinkState) : Option PayoutLink :=
  db.links.find? fun l => l.isLink tenant linkId && l.state = state

/-- Another link of the account already sits in the slot active and closing share. -/
def liveTaken : Bool :=
  db.links.any fun l => l.ofAccount tenant account && l.linkId ≠ linkId && l.state.live

def hasPending : Bool := db.lines.any fun l => l.ofLink tenant linkId && l.state = .pending

def transitionPayoutLink (src dst : PayoutLinkState) (action : PayoutAuditAction) :
    Except DatabaseError (PayoutLinkTransition × Db) :=
  if !action.fitsLinkTransition src dst then .error (.constraint "payout_link_transition_invalid")
  else match db.findLink tenant linkId src with
    | none => .ok (.notInState, db)
    | some l =>
      if dst.live && db.liveTaken tenant l.accountId linkId then .ok (.liveLinkTaken, db)
      else .ok (.moved, db.updateLink tenant linkId fun l => { l with state := dst })

def closePayoutLinkStreams (finalPaid : Nat) (finalPaidReferral : Option Nat)
    (successor : Option Uuid) : Except DatabaseError (PayoutLinkClose × Db) :=
  match db.findLink tenant linkId .closing with
  | none => .ok (.notClosing, db)
  | some l =>
    if l.referralProgram.isSome ≠ finalPaidReferral.isSome then .ok (.referralTotalMismatch, db)
    else if db.hasPending tenant linkId then .ok (.pendingLineOpen, db)
    else
      let closed := db.updateLink tenant linkId fun l =>
        { l with state := .closed, finalPaid := some finalPaid, finalPaidReferral }
      match successor with
      | none => .ok (.closed, closed)
      | some next =>
        match closed.findLink tenant next .waiting with
        | none => .ok (.successorNotWaiting, db)
        | some s =>
          if s.accountId ≠ l.accountId then .ok (.successorNotWaiting, db)
          else if closed.liveTaken tenant l.accountId next then .error .postgres
          else .ok (.closed, closed.updateLink tenant next fun s => { s with state := .active })

/-- `mark_payout_link_recipient_unavailable`. -/
def markPayoutLinkRecipientUnavailable : Bool × Db :=
  if db.links.any fun l => l.isLink tenant linkId && l.state.live && !l.recipientUnavailable then
    (true, db.updateLink tenant linkId fun l => { l with recipientUnavailable := true })
  else (false, db)

/-- Writes the pending line onto the account's active link. -/
def insertLine (w : PayoutLineWrite) : Except DatabaseError (PendingPayoutLineInsert × Db) :=
  match db.findLink tenant w.linkId .active with
  | none => .ok (.linkNotActive, db)
  | some l =>
    if l.accountId ≠ w.accountId then .ok (.linkNotActive, db)
    else if (db.pendingPayoutLineForStream tenant w.linkId w.stream).isSome then
      .ok (.linkHasPendingLine, db)
    else if db.lines.any fun p => p.tenantId = tenant && p.lineId = w.lineId then .error .postgres
    else .ok (.inserted, { db with lines := db.lines ++ [PayoutLine.ofWrite tenant w] })

/-- The referral part of a line insert: the link's program is set once, a pending line comes
first, and nothing is written that would send more than is owed now. -/
def insertReferralLine (w : PayoutLineWrite) (program : String) :
    Except DatabaseError (PendingPayoutLineInsert × Db) :=
  match db.findLink tenant w.linkId .active with
  | none => .ok (.linkNotActive, db)
  | some l =>
    if l.accountId ≠ w.accountId then .ok (.linkNotActive, db)
    else if l.referralProgram.any (· ≠ program) then .ok (.referralProgramMismatch, db)
    -- The `trace_payout_links_referral_program_distinct` check.
    else if l.referralProgram = none ∧ program = l.program then .error .postgres
    else if (db.pendingPayoutLineForStream tenant w.linkId .referral).isSome then
      .ok (.linkHasPendingLine, db)
    else do
      let owed ← db.owedOnTx tenant w.accountId
      if owed.unsent < w.delta then return (.referralOwedChanged, db)
      let set := db.updateLink tenant w.linkId fun l => { l with referralProgram := some program }
      match ← set.insertLine tenant w with
      | (.inserted, db') => return (.inserted, db')
      | (refused, _) => return (refused, db)

def insertPendingPayoutLine (w : PayoutLineWrite) :
    Except DatabaseError (PendingPayoutLineInsert × Db) :=
  match w.stream, w.referralProgram with
  | .earned, none => db.insertLine tenant w
  | .referral, some program => db.insertReferralLine tenant w program
  | _, _ => .error (.query "payout_line_stream_invalid")

/-- The receipt a resolution claims is on another line of the rail, in any tenant. -/
def receiptTaken : PayoutLineResolution → Bool
  | .confirmed receipt _ => db.lines.any fun l => l.receiptHash = some receipt
  | _ => false

def resolvePayoutLine (lineId : Uuid) (r : PayoutLineResolution) : PayoutLineResolve × Db :=
  if !db.lines.any fun l => l.tenantId = tenant && l.lineId = lineId && l.state = .pending then
    (.notPending, db)
  else if db.receiptTaken r then (.receiptAlreadyClaimed, db)
  else (.resolved, db.updateLine tenant lineId fun l => l.resolve r)

def openPayoutHold (label : String) : Bool × Db :=
  if ⟨tenant, account, label⟩ ∈ db.holds then (false, db)
  else (true, { db with holds := db.holds ++ [⟨tenant, account, label⟩] })

def clearPayoutHold (label : String) : Bool × Db :=
  if ⟨tenant, account, label⟩ ∈ db.holds then
    (true, { db with holds := db.holds.filter (· ≠ ⟨tenant, account, label⟩) })
  else (false, db)

/-- `trace_legacy_payout_release_carry` on one carried link: a waiting one that never had a line
closes at nothing, an active one is marked for unlinking. -/
def releaseCarry : Db :=
  if (db.findLink tenant linkId .waiting).isSome && !db.lines.any (·.ofLink tenant linkId) then
    db.updateLink tenant linkId fun l => { l with state := .closed, finalPaid := some 0 }
  else if (db.findLink tenant linkId .active).isSome then
    db.updateLink tenant linkId fun l => { l with unlinkRequested := true }
  else db

end Db

end TraceCommons.Payout
