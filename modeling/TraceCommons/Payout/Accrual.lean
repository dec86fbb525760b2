import TraceCommons.Gate.Amount

/-!
# The accrual plan

`plan_rail_accruals` prices one tenant's settled Trace Credit on one rail: one
credit row for each positive line of a finalized batch, and one reversal row for
each reversed event of such a line, priced at the version its credit used,
against what is left of the line. `accrue_rail` reads the rows, plans, and
stores the credits, then the reversals, then the claims.

The loops of the source are folds here (`creditLine`, `reversalStep`), and its
hash maps are functions updated at a key.
-/

namespace TraceCommons.Payout

/-! ## Rows -/

inductive BatchStatus
  | dryRun | finalized | failed
  deriving DecidableEq

inductive SettlementState
  | pending | final | reversed
  deriving DecidableEq

/-- `TraceCreditEventRecord`, the columns accrual reads. -/
structure CreditEvent where
  creditEventId : Uuid
  creditAccountRef : String
  pointsDelta : String
  externalRef : Option String
  settlementState : SettlementState
  occurredAt : Time
  deriving DecidableEq

/-- `TraceCreditAccountSettlementLineItem`. -/
structure LineItem where
  creditAccountRef : String
  creditAccountHash : String
  settledCreditDeltaMicros : Int
  sourceCreditEventIds : List Uuid
  nearPayoutHoldReason : Option String
  deriving DecidableEq

/-- `TraceCreditSettlementBatchRecord`. -/
structure Batch where
  settlementBatchId : Uuid
  status : BatchStatus
  sourceCreditEventIds : List Uuid
  lineItems : List LineItem
  createdAt : Time
  deriving DecidableEq

inductive AccrualKind
  | credit | reversal
  deriving DecidableEq

/-- `PayoutAccrual`, and `PayoutAccrualWrite`, which has the same columns. `awardUnits` and
`railUnits` are magnitudes; `kind` gives the sign. -/
structure PayoutAccrual where
  railId : String
  kind : AccrualKind
  settlementBatchId : Uuid
  creditAccountHash : String
  reversalEventId : Option Uuid
  accountId : Option Uuid
  awardUnits : Nat
  railUnits : Nat
  rateVersion : String
  instrumentId : String
  deriving DecidableEq

/-- `PayoutRateEpoch`. -/
structure RateEpoch where
  rate : RailRate
  observedAt : Time

/-- The parts of `RailDescriptor` accrual uses. -/
structure RailDescriptor where
  railId : String
  instrumentId : String

/-- `LineKey`: a settlement line, by its batch and its credit account's hash. -/
abbrev LineKey := Uuid × String

def PayoutAccrual.key (a : PayoutAccrual) : LineKey := (a.settlementBatchId, a.creditAccountHash)

def lineKey (b : Batch) (l : LineItem) : LineKey := (b.settlementBatchId, l.creditAccountHash)

/-! ## Rates in force -/

/-- The order `epoch_in_force` compares epochs in: observation time, then version. -/
def RateEpoch.le (a b : RateEpoch) : Prop :=
  a.observedAt < b.observedAt ∨
    (a.observedAt = b.observedAt ∧ a.rate.version ≤ b.rate.version)

instance (a b : RateEpoch) : Decidable (a.le b) := inferInstanceAs (Decidable (_ ∨ _))

/-- The element left by a scan that replaces its choice where `swap` says so. -/
def selectEpoch (swap : RateEpoch → RateEpoch → Bool) : List RateEpoch → Option RateEpoch
  | [] => none
  | e :: es => some (es.foldl (fun m e => if swap m e then e else m) e)

/-- `Iterator::max_by_key`: of several greatest elements, the last. -/
def latestEpoch : List RateEpoch → Option RateEpoch := selectEpoch fun m e => m.le e

/-- `Iterator::min_by_key`: of several least elements, the first. -/
def firstEpoch : List RateEpoch → Option RateEpoch := selectEpoch fun m e => ¬ m.le e

/-- `epoch_in_force`: the latest epoch observed at or before `at`, or the first of all. -/
def epochInForce (epochs : List RateEpoch) (at_ : Time) : Option RateEpoch :=
  (latestEpoch (epochs.filter (·.observedAt ≤ at_))).or (firstEpoch epochs)

/-! ## Plans -/

inductive AccrualError
  | overflow | store | epochMissing
  deriving DecidableEq

def AccrualError.label : AccrualError → String
  | .overflow => "payout_accrual_overflow"
  | .store => "payout_accrual_store_failed"
  | .epochMissing => "payout_rate_epoch_missing"

/-- Why a row was left alone. -/
inductive SkipReason
  | batchInFuture | reversalUnsettled | reversalCreditMissing | reversalDuplicate | reversalZero
  | reversalUnpricedUnowned
  deriving DecidableEq

def payoutReversalUnpriced : String := "payout_reversal_unpriced"

structure PlannedHold where
  account : Uuid
  label : String
  reversalEventId : Option Uuid
  deriving DecidableEq

structure AccrualPlan where
  writes : List PayoutAccrual
  claims : List (String × Uuid)
  holds : List PlannedHold
  skipped : SkipReason → Nat

namespace AccrualPlan

def empty : AccrualPlan := ⟨[], [], [], fun _ => 0⟩

variable (p : AccrualPlan)

def skip (r : SkipReason) : AccrualPlan :=
  { p with skipped := Function.update p.skipped r (p.skipped r + 1) }

def write (w : PayoutAccrual) : AccrualPlan := { p with writes := p.writes ++ [w] }

def hold (h : PlannedHold) : AccrualPlan := { p with holds := p.holds ++ [h] }

/-- `hold_line_owner`. -/
def holdLineOwner (owner : Option Uuid) (reversalEventId : Uuid) : AccrualPlan :=
  match owner with
  | some account => p.hold ⟨account, payoutReversalUnpriced, some reversalEventId⟩
  | none => p.skip .reversalUnpricedUnowned

@[simp] theorem empty_writes : empty.writes = [] := rfl
@[simp] theorem skip_writes (r : SkipReason) : (p.skip r).writes = p.writes := rfl
@[simp] theorem hold_writes (h : PlannedHold) : (p.hold h).writes = p.writes := rfl
@[simp] theorem write_writes (w : PayoutAccrual) : (p.write w).writes = p.writes ++ [w] := rfl

@[simp] theorem holdLineOwner_writes (o : Option Uuid) (e : Uuid) :
    (p.holdLineOwner o e).writes = p.writes := by
  cases o <;> rfl

end AccrualPlan

/-- `AccrualInputs`: the rows accrual reads, all in one tenant. -/
structure AccrualInputs where
  batches : List Batch
  events : List CreditEvent
  principalAccounts : String → Option Uuid
  existing : List PayoutAccrual
  epochs : List RateEpoch
  now : Time

/-! ## Text the plan reads -/

def creditReversalExternalRefPrefix : String := "revocation_credit_reversal:"

def accountSettlementKeyPrefix : String := "account:"

/-- `settlement_key_account_id`. -/
def settlementKeyAccountId (settlementKey : String) : Option Uuid :=
  (stripPrefix accountSettlementKeyPrefix.toList settlementKey.toList).bind Uuid.parseStr

/-- `accrual_owner_for_line`. -/
def accrualOwnerForLine (creditAccountRef : String) : Option Uuid :=
  settlementKeyAccountId creditAccountRef

/-- `near_wallet_hold_label_holds_rail`: no rail built today pays a NEAR wallet. -/
def nearWalletHoldLabelHoldsRail (_rail : String) (_holdLabel : Option String) : Bool := false

/-- `reversed_event_id`: the event a ledger row says it reverses. -/
def reversedEventId (event : CreditEvent) : Option Uuid :=
  event.externalRef.bind fun raw =>
    (stripPrefix creditReversalExternalRefPrefix.toList (trim raw.toList)).bind Uuid.parseStr

/-- `magnitude_micros`: a ledger amount's magnitude in microcredits. -/
def magnitudeMicros (pointsDelta : String) : Option Nat :=
  let trimmed := trim pointsDelta.toList
  let magnitude := (stripPrefix ['-'] trimmed).getD trimmed
  (Microcredits.fromCreditDecimal magnitude).toOption

/-! ## Credits -/

/-- `LineCredit`: what a line's credit accrual priced it at on this rail. -/
structure LineCredit where
  version : String
  owner : Option Uuid
  railUnits : Nat
  deriving DecidableEq

def PayoutAccrual.lineCredit (a : PayoutAccrual) : LineCredit :=
  ⟨a.rateVersion, a.accountId, a.railUnits⟩

/-- Credits already stored, by line. Of several rows of one key a hash map keeps the last. -/
def creditedFrom (existing : List PayoutAccrual) (key : LineKey) : Option LineCredit :=
  ((existing.filter (·.kind = .credit)).reverse.find? (·.key = key)).map (·.lineCredit)

/-- What the loop over finalized lines has gathered. -/
structure CreditState where
  plan : AccrualPlan
  credited : LineKey → Option LineCredit
  lineOfEvent : Uuid → Option (Batch × LineItem)
  settledEvents : Finset Uuid
  refOfHash : String → Option String

section credits

variable (d : RailDescriptor) (inputs : AccrualInputs)

def creditWrite (b : Batch) (l : LineItem) (e : RateEpoch) (units : Nat) : PayoutAccrual :=
  { railId := d.railId, kind := .credit, settlementBatchId := b.settlementBatchId,
    creditAccountHash := l.creditAccountHash, reversalEventId := none,
    accountId := accrualOwnerForLine l.creditAccountRef,
    awardUnits := l.settledCreditDeltaMicros.toNat, railUnits := units,
    rateVersion := e.rate.version, instrumentId := d.instrumentId }

/-- Every finalized line locates its events, also one that accrues nothing. -/
def locateEvents (b : Batch) (l : LineItem) (m : Uuid → Option (Batch × LineItem)) :
    Uuid → Option (Batch × LineItem) :=
  l.sourceCreditEventIds.foldl (fun m e => Function.update m e (some (b, l))) m

def creditLine (b : Batch) (st : CreditState) (l : LineItem) : Except AccrualError CreditState := do
  let st := { st with lineOfEvent := locateEvents b l st.lineOfEvent }
  if l.settledCreditDeltaMicros ≤ 0 then
    return st
  let st := { st with
    refOfHash := Function.update st.refOfHash l.creditAccountHash (some l.creditAccountRef) }
  let owner := accrualOwnerForLine l.creditAccountRef
  let st :=
    if nearWalletHoldLabelHoldsRail d.railId l.nearPayoutHoldReason then
      match owner with
      | some account =>
        { st with plan := st.plan.hold ⟨account, "payout_near_wallet_unresolved", none⟩ }
      | none => st
    else st
  if (st.credited (lineKey b l)).isSome then
    return st
  let some epoch := epochInForce inputs.epochs b.createdAt | throw .epochMissing
  let some units := epoch.rate.price l.settledCreditDeltaMicros.toNat | throw .overflow
  return { st with
    plan := st.plan.write (creditWrite d b l epoch units)
    credited := Function.update st.credited (lineKey b l)
      (some ⟨epoch.rate.version, owner, units⟩) }

def creditBatch (st : CreditState) (b : Batch) : Except AccrualError CreditState :=
  b.lineItems.foldlM (creditLine d inputs b)
    { st with settledEvents := st.settledEvents ∪ b.sourceCreditEventIds.toFinset }

/-- Finalized batches behind the database clock. -/
def dueBatches : List Batch :=
  inputs.batches.filter fun b => b.status = .finalized ∧ b.createdAt < inputs.now

/-- The plan after the batches at or after the clock have been counted. -/
def futureSkips : AccrualPlan :=
  inputs.batches.foldl
    (fun p b => if b.status = .finalized ∧ inputs.now ≤ b.createdAt then p.skip .batchInFuture else p)
    .empty

def creditPhase : Except AccrualError CreditState :=
  (dueBatches inputs).foldlM (creditBatch d inputs)
    ⟨futureSkips inputs, creditedFrom inputs.existing, fun _ => none, ∅, fun _ => none⟩

end credits

/-! ## Reversals -/

/-- What the loop over reversal rows has gathered. -/
structure ReversalState where
  plan : AccrualPlan
  sourcesReversed : Finset Uuid
  takenBack : LineKey → Nat × Nat

/-- `(occurred_at, credit_event_id)` order. -/
def ledgerLe (a b : CreditEvent × Uuid) : Prop :=
  a.1.occurredAt < b.1.occurredAt ∨
    (a.1.occurredAt = b.1.occurredAt ∧ a.1.creditEventId ≤ b.1.creditEventId)

instance : DecidableRel ledgerLe := fun _ _ => inferInstanceAs (Decidable (_ ∨ _))

/-- A ledger row that reverses an event, with that event. -/
def reversalRow (e : CreditEvent) : Option (CreditEvent × Uuid) :=
  if e.settlementState = .reversed then (reversedEventId e).map (e, ·) else none

def ledgerReversals (events : List CreditEvent) : List (CreditEvent × Uuid) :=
  (events.filterMap reversalRow).insertionSort ledgerLe

/-- Ledger rows by id; of several rows of one id a hash map keeps the last. -/
def eventsById (events : List CreditEvent) (id : Uuid) : Option CreditEvent :=
  events.reverse.find? (·.creditEventId = id)

/-- Reversal accruals already stored, by their ledger rows. -/
def reversedFrom (existing : List PayoutAccrual) : Finset Uuid :=
  (existing.filterMap (·.reversalEventId)).toFinset

/-- Adds one draw to what a line has had taken back. -/
def takeBack (taken : LineKey → Nat × Nat) (key : LineKey) (award units : Nat) :
    Option (LineKey → Nat × Nat) := do
  let a ← checkedAdd 128 (taken key).1 award
  let u ← checkedAdd 128 (taken key).2 units
  return Function.update taken key (a, u)

def takenFrom (existing : List PayoutAccrual) : Except AccrualError (LineKey → Nat × Nat) :=
  (existing.filter (·.kind = .reversal)).foldlM
    (fun taken row =>
      match takeBack taken row.key row.awardUnits row.railUnits with
      | some taken => pure taken
      | none => throw .overflow)
    fun _ => (0, 0)

/-- `rate_for_version`: the rate of the first epoch of that version. -/
def rateForVersion (epochs : List RateEpoch) (version : String) : Option RailRate :=
  (epochs.map (·.rate)).find? (·.version = version)

section reversals

variable (d : RailDescriptor) (inputs : AccrualInputs)

/-- `hold_reversal`. -/
def holdReversal (p : AccrualPlan) (event : CreditEvent) : AccrualPlan :=
  p.holdLineOwner
    ((settlementKeyAccountId event.creditAccountRef).or
      (inputs.principalAccounts event.creditAccountRef))
    event.creditEventId

/-- The amount a reversal row takes back: the reversed event's own, or without it the row's. -/
def reversalAmount (event : CreditEvent) (source : Uuid) : Option Nat :=
  magnitudeMicros (((eventsById inputs.events source).map (·.pointsDelta)).getD event.pointsDelta)

def reversalWrite (b : Batch) (l : LineItem) (c : LineCredit) (eventId : Uuid)
    (award units : Nat) : PayoutAccrual :=
  { railId := d.railId, kind := .reversal, settlementBatchId := b.settlementBatchId,
    creditAccountHash := l.creditAccountHash, reversalEventId := some eventId,
    accountId := c.owner, awardUnits := award, railUnits := units,
    rateVersion := c.version, instrumentId := d.instrumentId }

/-- What a reversal of amount `award` takes back of a line, in award and rail units. -/
def reversalShare (l : LineItem) (c : LineCredit) (taken : Nat × Nat) (sources : Finset Uuid)
    (award : Nat) : Except AccrualError (Nat × Nat) := do
  let leftAward := l.settledCreditDeltaMicros.toNat - taken.1
  let leftRail := c.railUnits - taken.2
  if l.sourceCreditEventIds.all (· ∈ sources) then
    return (leftAward, leftRail)
  let award := min award leftAward
  let some rate := rateForVersion inputs.epochs c.version | throw .epochMissing
  let some units := rate.price award | throw .overflow
  return (award, min units leftRail)

def reversalStep (cs : CreditState) (st : ReversalState) (row : CreditEvent × Uuid) :
    Except AccrualError ReversalState := do
  let (event, source) := row
  if event.creditEventId ∈ reversedFrom inputs.existing then
    return st
  match cs.lineOfEvent source with
  | none =>
    if source ∉ cs.settledEvents then
      return { st with plan := st.plan.skip .reversalUnsettled }
    return { st with plan := holdReversal inputs st.plan event }
  | some (b, l) =>
    match cs.credited (lineKey b l) with
    | none => return { st with plan := st.plan.skip .reversalCreditMissing }
    | some c =>
      if source ∈ st.sourcesReversed then
        return { st with plan := st.plan.skip .reversalDuplicate }
      let sources := insert source st.sourcesReversed
      match reversalAmount inputs event source with
      | none =>
        return { st with
          plan := st.plan.holdLineOwner c.owner event.creditEventId
          sourcesReversed := sources }
      | some award =>
        if l.settledCreditDeltaMicros < 0 then
          throw .overflow
        let (award, units) ←
          reversalShare inputs l c (st.takenBack (lineKey b l)) sources award
        if award = 0 then
          return { st with plan := st.plan.skip .reversalZero, sourcesReversed := sources }
        let some taken := takeBack st.takenBack (lineKey b l) award units | throw .overflow
        return ⟨st.plan.write (reversalWrite d b l c event.creditEventId award units), sources, taken⟩

/-- Sources whose reversal rows are stored already. -/
def sourcesReversedFrom : Finset Uuid :=
  (((ledgerReversals inputs.events).filter
    (fun row => row.1.creditEventId ∈ reversedFrom inputs.existing)).map (·.2)).toFinset

def reversalPhase (cs : CreditState) (taken : LineKey → Nat × Nat) :
    Except AccrualError ReversalState :=
  (ledgerReversals inputs.events).foldlM (reversalStep d inputs cs)
    ⟨cs.plan, sourcesReversedFrom inputs, taken⟩

/-- Unowned accruals whose principal now has an account, in hash order. -/
def plannedClaims (cs : CreditState) (writes : List PayoutAccrual) : List (String × Uuid) :=
  let unowned := (inputs.existing ++ writes).filter (·.accountId = none)
  let hashes := ((unowned.map (·.creditAccountHash)).dedup).insertionSort (· ≤ ·)
  hashes.filterMap fun hash =>
    (cs.refOfHash hash).bind fun principal => (inputs.principalAccounts principal).map (hash, ·)

/-- `plan_rail_accruals`. -/
def planRailAccruals : Except AccrualError AccrualPlan := do
  if inputs.epochs.isEmpty then
    return .empty
  let taken ← takenFrom inputs.existing
  let cs ← creditPhase d inputs
  let st ← reversalPhase d inputs cs taken
  return { st.plan with claims := plannedClaims inputs cs st.plan.writes }

end reversals

end TraceCommons.Payout
