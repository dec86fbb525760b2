import TraceCommons.Gate.Amount
import TraceCommons.Lib.Table

/-! # The account admission ledger

`reserve_account_admission` charges an account's budget for one submission, and
`transition_account_admission` moves the submission on or gives the charge back. Each call is one
transaction under the account's row lock. A call that does not commit leaves the rows as they
were. -/

namespace TraceCommons.Admission

/-! ## Policies and periods -/

inductive PolicyPeriod
  | lifetime
  | fixed (seconds : Nat)
  deriving DecidableEq

def isVersionChar (c : Char) : Bool := c.isAlphanum || c = '-' || c = '_' || c = '.'

/-- A policy `parse_bounded_policy` accepts, as far as admission reads it. -/
structure BoundedPolicy where
  version : List Char
  processingCostBound : Nat
  boundedAllowance : Nat
  period : PolicyPeriod
  versionChars : ∀ c ∈ version, isVersionChar c
  costPositive : 0 < processingCostBound
  costAllowed : processingCostBound ≤ boundedAllowance
  sumFits : boundedAllowance + processingCostBound < 2 ^ 63
  deriving DecidableEq

/-- The name of the period by `account_policy_period`, at a reading of the clock in seconds. -/
def rawPeriodId (p : PolicyPeriod) (clock : Int) : List Char :=
  match p with
  | .lifetime => "lifetime".toList
  | .fixed seconds =>
    "fixed:".toList ++ Nat.toDigits 10 seconds ++ ':' :: (clock.fdiv seconds).repr.toList

/-- The delay by `account_policy_period`; its statement reads the clock a second time. -/
def retryAfterSeconds (p : PolicyPeriod) (clock : Int) : Option Int :=
  match p with
  | .lifetime => none
  | .fixed seconds => some (seconds - clock.tmod seconds)

def periodId (p : BoundedPolicy) (raw : List Char) : List Char := p.version ++ ':' :: raw

/-- `substring(period_id FROM position(':' IN period_id)+1)`. -/
def bucketOf (periodId : List Char) : List Char :=
  if ':' ∈ periodId then (periodId.dropWhile (· ≠ ':')).drop 1 else periodId

/-! ## Rows -/

inductive Authority
  | bounded | invited
  deriving DecidableEq

structure TrustRow where
  account : Uuid
  authority : Authority
  version : Int
  deriving DecidableEq

structure Budget where
  account : Uuid
  periodId : List Char
  policyVersion : List Char
  costLimit : Nat
  costBound : Nat
  costUsed : Nat
  deriving DecidableEq

def Budget.key (b : Budget) : Uuid × List Char := (b.account, b.periodId)

inductive Status
  | reserved | processing | completed | released
  deriving DecidableEq

structure Submission where
  submissionId : Uuid
  account : Uuid
  bodyHash : List Char
  attested : Bool
  trustVersion : Int
  periodId : List Char
  status : Status
  leaseId : Uuid
  leaseExpiresAt : Time
  lastCostBound : Nat
  lastCharged : Bool
  costPositive : 0 < lastCostBound
  deriving DecidableEq

/-- The budget row a submission's last reservation was counted in. -/
def Submission.budgetKey (s : Submission) : Uuid × List Char := (s.account, s.periodId)

structure Ledger where
  trust : List TrustRow := []
  budgets : List Budget := []
  submissions : List Submission := []
  deriving DecidableEq

namespace Ledger

variable (l : Ledger)

def submission? (id : Uuid) : Option Submission := l.submissions.find? (·.submissionId = id)

/-- The submission's row if this lease is its current one. -/
def leased? (id lease : Uuid) : Option Submission :=
  l.submissions.find? fun s => s.submissionId = id ∧ s.leaseId = lease

def trust? (account : Uuid) : Option TrustRow := l.trust.find? (·.account = account)

/-- `account_period_spend`. -/
def periodSpend (account : Uuid) (raw : List Char) : Nat :=
  ((l.budgets.filter fun b => b.account = account ∧ bucketOf b.periodId = raw).map (·.costUsed)).sum

end Ledger

/-! ## Reserving -/

structure Reservation where
  account : Uuid
  principalRef : String
  expectedTrustVersion : Option Int
  submissionId : Uuid
  bodyHash : List Char
  leaseId : Uuid
  policy : BoundedPolicy
  leaseSeconds : Int
  attested : Bool

def isLowerHexDigit (c : Char) : Bool := c.isDigit || ('a' ≤ c && c ≤ 'f')

def Reservation.argsValid (r : Reservation) : Bool :=
  r.principalRef ≠ "" ∧ r.bodyHash.length = 64 ∧ r.bodyHash.all isLowerHexDigit ∧
    1 ≤ r.leaseSeconds ∧ r.leaseSeconds ≤ 86400

/-- What a reservation reads outside the ledger: the account's and the device's rows, the grants,
the effective allowance and the clock, once for each statement that reads it. -/
structure Reads where
  accountLive : Bool
  deviceLive : Bool
  activeGrant : Bool
  allowance : Int
  periodClock : Int
  delayClock : Int
  priorClock : Time
  leaseClock : Time

inductive AdmissionDecision
  | reserved | completed | busy | exhausted | conflict | refused
  deriving DecidableEq

inductive AuthorityLabel
  | bounded | attested | invited
  deriving DecidableEq

structure AdmissionResult where
  decision : AdmissionDecision
  authority : Option AuthorityLabel := none
  retryAfterSeconds : Option Int := none
  periodSpend : Option Nat := none
  deriving DecidableEq

inductive DatabaseError
  | refused
  deriving DecidableEq

variable (l : Ledger) (r : Reservation) (e : Reads)

/-- The trust row a reservation goes on with: a new row is bounded, and an invited row without an
active grant becomes bounded under the next version. -/
def currentTrust : Except DatabaseError (Option TrustRow) :=
  let t := (l.trust? r.account).getD ⟨r.account, .bounded, 1⟩
  if t.version ≤ 0 then .ok none
  else if r.expectedTrustVersion.any (· ≠ t.version) then .ok none
  else match t.authority, e.activeGrant with
    | .invited, false =>
      if 2 ^ 63 ≤ t.version + 1 then .error .refused
      else .ok (some { t with authority := .bounded, version := t.version + 1 })
    | .bounded, true => .ok none
    | _, _ => .ok (some t)

/-- What the row of an earlier reservation answers by itself. -/
def priorDecision (clock : Time) (prior : Submission) : Option AdmissionDecision :=
  if prior.account ≠ r.account ∨ prior.bodyHash ≠ r.bodyHash then some .conflict
  else if prior.status = .completed then some .completed
  else if prior.status ≠ .released ∧ clock < prior.leaseExpiresAt then some .busy
  else none

def ensureBudget (account : Uuid) (period : List Char) (p : BoundedPolicy) : List Budget :=
  if l.budgets.any (·.key = (account, period)) then l.budgets
  else l.budgets ++ [⟨account, period, p.version, p.boundedAllowance, p.processingCostBound, 0⟩]

inductive Debit
  | refused
  | exhausted (spend : Nat)
  | paid (budgets : List Budget)

def debit (account : Uuid) (raw : List Char) (p : BoundedPolicy) (limit : Int) :
    Except DatabaseError Debit :=
  let period := periodId p raw
  let l' := { l with budgets := ensureBudget l account period p }
  match l'.budgets.find? (·.key = (account, period)) with
  | none => .error .refused
  | some b =>
    if b.costLimit ≠ p.boundedAllowance ∨ b.costBound ≠ p.processingCostBound ∨
        b.policyVersion ≠ p.version then .ok .refused
    else
      let totalUsed := l'.periodSpend account raw
      let next := totalUsed + p.processingCostBound
      if 2 ^ 63 ≤ totalUsed ∨ 2 ^ 63 ≤ next then .error .refused
      else if limit < next then .ok (.exhausted totalUsed)
      else .ok (.paid (Table.set Budget.key
        { b with costUsed := b.costUsed + p.processingCostBound } l'.budgets))

def Reservation.rawPeriodId : List Char := Admission.rawPeriodId r.policy.period e.periodClock

def Reservation.periodId : List Char := Admission.periodId r.policy (r.rawPeriodId e)

def Reservation.row (attested charged : Bool) (version : Int) : Submission where
  submissionId := r.submissionId
  account := r.account
  bodyHash := r.bodyHash
  attested := attested
  trustVersion := version
  periodId := r.periodId e
  status := .reserved
  leaseId := r.leaseId
  leaseExpiresAt := e.leaseClock + r.leaseSeconds
  lastCostBound := r.policy.processingCostBound
  lastCharged := charged
  costPositive := r.policy.costPositive

/-- The debit and the writes of a reservation. -/
def admitAs (trust : TrustRow) (attested : Bool) :
    (charged : Bool) → Except DatabaseError (AdmissionResult × Ledger)
  | true =>
    match debit l r.account (r.rawPeriodId e) r.policy e.allowance with
    | .error err => .error err
    | .ok .refused => .ok ({ decision := .refused }, l)
    | .ok (.exhausted spend) =>
      .ok ({
        decision := .exhausted
        authority := some .bounded
        retryAfterSeconds := retryAfterSeconds r.policy.period e.delayClock
        periodSpend := some spend }, l)
    | .ok (.paid budgets) =>
      .ok ({ decision := .reserved, authority := some .bounded }, {
        trust := Table.put TrustRow.account trust l.trust
        budgets
        submissions := Table.put Submission.submissionId (r.row e attested true trust.version)
          l.submissions })
  | false =>
    .ok ({ decision := .reserved, authority := some (if attested then .attested else .invited) }, {
      l with
      trust := Table.put TrustRow.account trust l.trust
      submissions := Table.put Submission.submissionId (r.row e attested false trust.version)
        l.submissions })

/-- The rest of a reservation once no earlier row answers it. The admitting authority is the one
of the submission's first reservation; only an account that is not invited and not attested is
charged. -/
def admission (trust : TrustRow) : Except DatabaseError (AdmissionResult × Ledger) :=
  let attested := ((l.submission? r.submissionId).map (·.attested)).getD r.attested
  admitAs l r e trust attested (trust.authority ≠ .invited ∧ ¬ attested)

/-- `reserve_account_admission`. -/
def reserveAccountAdmission : Except DatabaseError (AdmissionResult × Ledger) :=
  if ¬ r.argsValid ∨ ¬ e.accountLive ∨ ¬ e.deviceLive then .ok ({ decision := .refused }, l)
  else match currentTrust l r e with
    | .error err => .error err
    | .ok none => .ok ({ decision := .refused }, l)
    | .ok (some trust) =>
      match (l.submission? r.submissionId).bind (priorDecision r e.priorClock) with
      | some d => .ok ({ decision := d }, l)
      | none => admission l r e trust

/-! ## Moving on -/

inductive Next
  | processing | completed | released | releasedWithoutEffect
  deriving DecidableEq

structure Transition where
  account : Uuid
  submissionId : Uuid
  leaseId : Uuid
  next : Next

structure TransitionReads where
  accountExists : Bool
  accountClosed : Bool
  deviceLive : Bool
  activeGrant : Bool
  clock : Time

/-- A charge goes back to the row it was debited from, unless that row holds less. -/
def refund (budgets : List Budget) (s : Submission) : Option (List Budget) :=
  match budgets.find? (fun b => b.key = (s.account, s.periodId) ∧ s.lastCostBound ≤ b.costUsed) with
  | none => none
  | some b =>
    let row := { b with costUsed := b.costUsed - s.lastCostBound }
    some (Table.set Budget.key row budgets)

/-- `released` ends a reserved attempt, `released_without_effect` one that is processing. -/
def Next.releases : Next → Status → Bool
  | .released, .reserved | .releasedWithoutEffect, .processing => true
  | _, _ => false

def advance (l : Ledger) (trust : TrustRow) (prior : Submission) (next : Next)
    (e : TransitionReads) : Bool × Ledger :=
  if next = .processing ∧ prior.status = .reserved then
    if e.accountClosed ∨ ¬ e.deviceLive ∨ ¬ e.clock < prior.leaseExpiresAt ∨
        trust.version ≠ prior.trustVersion ∨
        decide (trust.authority = .invited) ≠ e.activeGrant then (false, l)
    else
      let row := { prior with status := .processing }
      (true, { l with submissions := Table.set Submission.submissionId row l.submissions })
  else if next = .completed ∧ (prior.status = .processing ∨ prior.status = .completed) then
    let row := { prior with status := .completed }
    (true, { l with submissions := Table.set Submission.submissionId row l.submissions })
  else if next.releases prior.status then
    let row := { prior with status := .released, lastCharged := false }
    match if prior.lastCharged then refund l.budgets prior else some l.budgets with
    | none => (false, l)
    | some budgets =>
      (true, { l with
        budgets
        submissions := Table.set Submission.submissionId row l.submissions })
  else (false, l)

/-- `transition_account_admission`. -/
def transitionAccountAdmission (l : Ledger) (t : Transition) (e : TransitionReads) :
    Bool × Ledger :=
  if ¬ e.accountExists then (false, l)
  else match l.trust? t.account with
    | none => (false, l)
    | some trust =>
      match l.leased? t.submissionId t.leaseId with
      | none => (false, l)
      | some prior =>
        if prior.account ≠ t.account then (false, l) else advance l trust prior t.next e

/-! ## Runs -/

/-- One line of the account's statement: a reservation that was answered `reserved`, or a charge
given back. -/
inductive Entry
  | reserved (submission lease : Uuid) (row : Uuid × List Char) (cost : Nat) (charged : Bool)
  | refunded (submission : Uuid) (row : Uuid × List Char) (cost : Nat)
  deriving DecidableEq

namespace Entry

def submission : Entry → Uuid
  | .reserved id .. => id
  | .refunded id .. => id

/-- The lease a reservation of this submission gave out. -/
def leaseOf (id : Uuid) : Entry → Option Uuid
  | .reserved id' lease .. => if id' = id then some lease else none
  | .refunded .. => none

def debited (row : Uuid × List Char) : Entry → Nat
  | .reserved _ _ row' cost charged => if row' = row ∧ charged then cost else 0
  | .refunded .. => 0

def credited (row : Uuid × List Char) : Entry → Nat
  | .reserved .. => 0
  | .refunded _ row' cost => if row' = row then cost else 0

end Entry

/-- The ledger with its statement, newest entry first. -/
structure State where
  ledger : Ledger := {}
  journal : List Entry := []

/-- The calls, and a change of the trust rows by an invite redeemed or a grant revoked. -/
inductive Event
  | reserve (r : Reservation) (e : Reads)
  | transition (t : Transition) (e : TransitionReads)
  | trust (rows : List TrustRow)

def Reservation.entry (r : Reservation) (e : Reads) (result : AdmissionResult) : List Entry :=
  if result.decision = .reserved then
    [.reserved r.submissionId r.leaseId (r.account, r.periodId e) r.policy.processingCostBound
      (result.authority = some .bounded)]
  else []

def Transition.entry (t : Transition) (l : Ledger) : List Entry :=
  match l.submission? t.submissionId with
  | some s =>
    if s.lastCharged ∧ (t.next = .released ∨ t.next = .releasedWithoutEffect) then
      [.refunded s.submissionId s.budgetKey s.lastCostBound]
    else []
  | none => []

def step (s : State) : Event → State
  | .reserve r e =>
    match reserveAccountAdmission s.ledger r e with
    | .error _ => s
    | .ok (result, l) => ⟨l, r.entry e result ++ s.journal⟩
  | .transition t e =>
    match transitionAccountAdmission s.ledger t e with
    | (true, l) => ⟨l, t.entry s.ledger ++ s.journal⟩
    | (false, l) => ⟨l, s.journal⟩
  | .trust rows => { s with ledger := { s.ledger with trust := rows } }

def run (events : List Event) : State := events.foldl step {}

end TraceCommons.Admission
