import TraceCommons.Admission.Ledger
import TraceCommons.Lib.OrdMap

/-! # Earned account trust

The growth policy and the tiered rule. `evaluate` reads the facts of one account: an accepted
submission counts in the week of its first acceptance unless a withdrawal, a revocation or a
quarantine nets it out, the latest penalty comes at or after it, or neither its gate nor its
attestation qualifies. A week counts up to a cap, and the tier is the highest row of the policy's
table that the counts reach. -/

namespace TraceCommons.Trust

/-! ## Dates -/

/-- Nanoseconds since the epoch. -/
abbrev DateTime := Int

def nanosPerSecond : Int := 1000000000

/-- `chrono::Duration::seconds` in nanoseconds, `none` where it panics. -/
def durationSeconds (seconds : Int) : Option Int :=
  if seconds.natAbs ≤ 9223372036854775 then some (seconds * nanosPerSecond) else none

/-- A date `chrono` can represent, `none` where the arithmetic panics. -/
def dateTime (nanos : Int) : Option DateTime :=
  if -8334601228800 * nanosPerSecond ≤ nanos ∧ nanos < 8210266876800 * nanosPerSecond
  then some nanos else none

def timestamp (t : DateTime) : Int := t.fdiv nanosPerSecond

/-- `contributor_cap::epoch_index` at seven days. -/
def epochIndex (seconds : Int) : Int := seconds.ediv (7 * 86400)

/-! ## Policies -/

structure GrowthTier where
  units : Nat
  activeWeeks : Nat
  ageSeconds : Int
  multiplier : Int
  attestedUnits : Nat
  deriving DecidableEq

/-- No threshold of the lower tier is above that of the upper one. -/
def GrowthTier.below (lower upper : GrowthTier) : Bool :=
  lower.units ≤ upper.units ∧ lower.activeWeeks ≤ upper.activeWeeks ∧
    lower.ageSeconds ≤ upper.ageSeconds ∧ lower.multiplier ≤ upper.multiplier ∧
    lower.attestedUnits ≤ upper.attestedUnits

structure RawGrowth where
  windowSeconds : Int
  weeklyCap : Nat
  attestedUnitWeight : Option Nat
  requireGatePass : Bool
  qMinMicros : Option Int
  penaltyCooldownSeconds : Int
  evaluationMaxAgeSeconds : Int
  allowanceCeiling : Int
  evaluatorVersions : List String
  creditQualityCalibrationVersions : List Int
  dedupSignalVersions : List String
  tiers : List GrowthTier
  deriving DecidableEq

def safeLabel (value : String) : Bool :=
  value ≠ "" ∧ value.length ≤ 64 ∧
    value.toList.all fun c => c.isAlphanum || c = '-' || c = '_' || c = '.' || c = '+'

def labelsOk (labels : List String) : Bool :=
  labels ≠ [] ∧ labels.length ≤ 64 ∧ labels.all safeLabel

namespace RawGrowth

variable (raw : RawGrowth)

/-- Absent is 1: an attested unit counts as much as any other. -/
def weight : Nat := raw.attestedUnitWeight.getD 1

def qualityOk : Bool :=
  match raw.qMinMicros with
  | some q => 0 ≤ q ∧ q ≤ 1000000 ∧ raw.creditQualityCalibrationVersions ≠ []
  | none => raw.creditQualityCalibrationVersions = []

/-- Tier 0 asks for nothing and multiplies by one. -/
def firstOk : Bool :=
  raw.tiers.head?.any fun t =>
    t.units = 0 ∧ t.activeWeeks = 0 ∧ t.ageSeconds = 0 ∧ t.multiplier = 1 ∧ t.attestedUnits = 0

/-- The rows of `windows(2)`. -/
def tiersRise : List GrowthTier → Bool
  | lower :: upper :: rest => lower.below upper && tiersRise (upper :: rest)
  | _ => true

def topMultiplier : Int := (raw.tiers.getLast?.map (·.multiplier)).getD 1

/-- What `parse_growth_policy` asks of a growth object over its base policy. -/
def accepts (base : Admission.BoundedPolicy) : Bool :=
  0 < raw.windowSeconds ∧ 0 < raw.weeklyCap ∧ 0 < raw.weight ∧
  raw.weight * raw.weeklyCap < 2 ^ 32 ∧ raw.qualityOk ∧
  raw.creditQualityCalibrationVersions.length ≤ 64 ∧ 0 ≤ raw.penaltyCooldownSeconds ∧
  0 < raw.evaluationMaxAgeSeconds ∧ base.boundedAllowance ≤ raw.allowanceCeiling ∧
  raw.allowanceCeiling + base.processingCostBound < 2 ^ 63 ∧
  labelsOk raw.evaluatorVersions ∧ labelsOk raw.dedupSignalVersions ∧
  raw.tiers ≠ [] ∧ raw.tiers.length ≤ 8 ∧ raw.firstOk ∧
  (raw.tiers.all fun t => t.attestedUnits ≤ t.units) ∧ tiersRise raw.tiers ∧
  base.boundedAllowance * raw.topMultiplier < 2 ^ 63

end RawGrowth

/-- A policy the parser accepted. -/
structure GrowthPolicy extends RawGrowth where
  base : Admission.BoundedPolicy
  accepted : toRawGrowth.accepts base

inductive PolicyError
  | refused
  deriving DecidableEq

/-- `parse_growth_policy`, once the base policy is parsed and the growth object read. -/
def parseGrowthPolicy (base : Admission.BoundedPolicy) (raw : RawGrowth) :
    Except PolicyError GrowthPolicy :=
  if h : raw.accepts base then .ok { raw with base, accepted := h } else .error .refused

/-- `i64::saturating_mul`. -/
def saturatingMul (a b : Int) : Int := max (-2 ^ 63) (min (2 ^ 63 - 1) (a * b))

/-- `GrowthPolicy::effective_allowance`. -/
def GrowthPolicy.effectiveAllowance (p : GrowthPolicy) (tier : Nat) : Int :=
  min (saturatingMul p.base.boundedAllowance ((p.tiers[tier]?.map (·.multiplier)).getD 1))
    p.allowanceCeiling

/-! ## Facts -/

inductive SourceKind
  | acceptedSubmission | acceptedSubmissionStatus | gateEvaluation | attestedSubmission
  | abusePenalty | submissionWithdrawn | submissionRevoked | submissionQuarantined
  | other (label : String)
  deriving DecidableEq

inductive Outcome
  | accepted | acceptedSelfReviewed | acceptedApproverUnknown | acceptedStatusInactive
  | evaluatedPassed | attestedProviderTee | penalized | withdrawn | revoked | quarantined
  | other (label : String)
  deriving DecidableEq

structure EvaluationFact where
  sourceKind : SourceKind
  sourceId : Uuid
  submissionId : Uuid
  outcome : Outcome
  evaluatorVersion : Option String
  occurredAt : DateTime
  creditQualityMicros : Option Int
  creditQualityCalibrationVersion : Option Int
  dedupSignalVersion : Option String
  firstInCluster : Option Bool
  deriving DecidableEq

namespace EvaluationFact

variable (f : EvaluationFact)

def isPenalty : Bool := f.sourceKind = .abusePenalty ∧ f.outcome = .penalized

/-- A status that says the acceptance was not an independent reviewer's. -/
def isNonqualifyingStatus : Bool :=
  f.sourceKind = .acceptedSubmissionStatus ∧ (f.outcome = .acceptedSelfReviewed ∨
    f.outcome = .acceptedApproverUnknown ∨ f.outcome = .acceptedStatusInactive)

/-- The rank of a fact that nets its submission out. -/
def nettingRank : Option Nat :=
  match f.sourceKind, f.outcome with
  | .submissionWithdrawn, .withdrawn => some 0
  | .submissionRevoked, .revoked => some 1
  | .submissionQuarantined, .quarantined => some 2
  | _, _ => none

end EvaluationFact

def acceptedFactQualifies (p : GrowthPolicy) (f : EvaluationFact) : Bool :=
  f.outcome = .accepted ∧ (f.sourceKind = .acceptedSubmission ∨
    p.requireGatePass ∧ f.sourceKind = .acceptedSubmissionStatus)

def attestedFactQualifies (f : EvaluationFact) : Bool :=
  f.sourceKind = .attestedSubmission ∧ f.outcome = .attestedProviderTee ∧
    f.firstInCluster = some true

def legacyDedupSignalVersion : String := "events.v1+fnv1a-2shingle.v1"

def qualityQualifies (p : GrowthPolicy) (f : EvaluationFact) : Bool :=
  match p.qMinMicros with
  | none => true
  | some qMin => f.creditQualityMicros.any (qMin ≤ ·) &&
    f.creditQualityCalibrationVersion.any (· ∈ p.creditQualityCalibrationVersions)

def gateFactQualifies (p : GrowthPolicy) (f : EvaluationFact) : Bool :=
  f.sourceKind = .gateEvaluation ∧ f.outcome = .evaluatedPassed ∧
  f.evaluatorVersion.any (· ∈ p.evaluatorVersions) ∧ qualityQualifies p f ∧
  f.dedupSignalVersion.getD legacyDedupSignalVersion ∈ p.dedupSignalVersions ∧
  f.firstInCluster = some true

/-! ## The rule -/
variable (p : GrowthPolicy) (facts : List EvaluationFact)

/-- The submissions whose status rules them out, read only by a policy that requires the gate. -/
def statusExclusions : List Uuid :=
  if p.requireGatePass then
    (facts.filter (·.isNonqualifyingStatus)).map (·.submissionId)
  else []

def acceptances : List EvaluationFact :=
  facts.filter fun f => acceptedFactQualifies p f ∧ f.submissionId ∉ statusExclusions p facts

/-- The first acceptance of each submission. -/
def acceptedAt : OrdMap Uuid DateTime :=
  (acceptances p facts).foldl
    (fun m f => m.insertMin f.submissionId f.occurredAt) {}

def latestPenalty : Option DateTime := ((facts.filter (·.isPenalty)).map (·.occurredAt)).max?

/-- The earliest fact at or after the acceptance that nets the submission out. -/
def netting (submission : Uuid) (accepted : DateTime) : Option (DateTime ×ₗ Nat) :=
  ((facts.filter fun f => f.submissionId = submission ∧ accepted ≤ f.occurredAt).filterMap
    fun f => f.nettingRank.map fun rank => toLex (f.occurredAt, rank)).min?

/-- What becomes of an accepted submission. -/
inductive Standing
  | skipped
  | netted (rank : Nat)
  | unit (attested : Bool)
  deriving DecidableEq

def isAttested (submission : Uuid) : Bool :=
  facts.any fun f => f.submissionId = submission ∧ attestedFactQualifies f

def isGated (submission : Uuid) : Bool :=
  facts.any fun f => f.submissionId = submission ∧ gateFactQualifies p f

def standing (windowStart : DateTime) (submission : Uuid) (accepted : DateTime) : Standing :=
  if accepted ≤ windowStart ∨ (latestPenalty facts).any (accepted ≤ ·) then .skipped
  else match netting facts submission accepted with
    | some n => .netted (ofLex n).2
    | none =>
      if ¬ isGated p facts submission ∧ (p.requireGatePass ∨ ¬ isAttested facts submission)
      then .skipped
      else .unit (isAttested facts submission)

/-- The `u32` counters of the loop: by week the plain and the attested units. -/
structure Tally where
  perWeek : OrdMap Int (Nat × Nat) := {}
  nettedWithdrawn : Nat := 0
  nettedRevoked : Nat := 0
  nettedQuarantined : Nat := 0

def countUnit (attested : Bool) (week : Nat × Nat) : Nat × Nat :=
  if attested then (week.1, (week.2 + 1) % 2 ^ 32) else ((week.1 + 1) % 2 ^ 32, week.2)

def Tally.add (t : Tally) (accepted : DateTime) : Standing → Tally
  | .skipped => t
  | .netted 0 => { t with nettedWithdrawn := (t.nettedWithdrawn + 1) % 2 ^ 32 }
  | .netted 1 => { t with nettedRevoked := (t.nettedRevoked + 1) % 2 ^ 32 }
  | .netted _ => { t with nettedQuarantined := (t.nettedQuarantined + 1) % 2 ^ 32 }
  | .unit attested => { t with
      perWeek := t.perWeek.upsert (epochIndex (timestamp accepted)) fun week =>
        countUnit attested (week.getD (0, 0)) }

def tally (windowStart : DateTime) : Tally :=
  (acceptedAt p facts).entries.foldl
    (fun t e => t.add e.2 (standing p facts windowStart e.1 e.2)) {}

/-- A week's units, each attested one at the policy's weight, as a saturating `u32`. -/
def weighted (week : Nat × Nat) : Nat :=
  min (2 ^ 32 - 1) (week.1 + min (2 ^ 32 - 1) (week.2 * p.weight))

/-- The capped units of all weeks, before they are put in a `u32`. -/
def unitsTotal (perWeek : OrdMap Int (Nat × Nat)) : Nat :=
  (perWeek.entries.map fun e => min (weighted p e.2) p.weeklyCap).sum

def unitsCapped (perWeek : OrdMap Int (Nat × Nat)) : Nat :=
  (perWeek.entries.map fun e => weighted p e.2 - p.weeklyCap).sum % 2 ^ 32

def attestedTotal (perWeek : OrdMap Int (Nat × Nat)) : Nat :=
  (perWeek.entries.map fun e => min e.2.2 p.weeklyCap).sum

def weeksTotal (perWeek : OrdMap Int (Nat × Nat)) : Nat :=
  (perWeek.entries.filter fun e => 0 < weighted p e.2).length

def ageSeconds (asOf : DateTime) : Int :=
  match ((acceptances p facts).map (·.occurredAt)).min? with
  | none => 0
  | some first => max ((asOf - first).tdiv nanosPerSecond) 0

/-- The highest row of the table that the counts reach. -/
def reachedTier (units activeWeeks : Nat) (age : Int) (attested : Nat) : Nat :=
  ((p.tiers.zipIdx.filter fun row => row.1.units ≤ units ∧ row.1.activeWeeks ≤ activeWeeks ∧
    row.1.ageSeconds ≤ age ∧ row.1.attestedUnits ≤ attested).map (·.2)).max?.getD 0

/-- Whether the latest penalty's cooldown is still running. -/
def penaltyActive (asOf : DateTime) : Option Bool :=
  match latestPenalty facts with
  | none => some false
  | some at_ => do
    let cooldown ← durationSeconds p.penaltyCooldownSeconds
    let ends ← dateTime (at_ + cooldown)
    return asOf < ends

def windowStart (asOf : DateTime) : Option DateTime := do
  let window ← durationSeconds p.windowSeconds
  dateTime (asOf - window)

structure Evaluation where
  growthPolicyVersion : List Char
  asOf : DateTime
  tier : Nat
  effectiveAllowance : Int
  units : Nat
  unitsCapped : Nat
  attestedUnits : Nat
  activeWeeks : Nat
  ageWeeks : Nat
  ageSeconds : Int
  nettedWithdrawn : Nat
  nettedRevoked : Nat
  nettedQuarantined : Nat
  penaltyActive : Bool
  factsDigest : String
  deriving DecidableEq

/-- The encoding of a fact's tuple and the hash, which are other crates'. -/
structure Digests where
  encode : EvaluationFact → String
  hash : List String → String

/-- `facts_digest`. -/
def factsDigest (d : Digests) (facts : List EvaluationFact) : String :=
  d.hash ((facts.map d.encode).mergeSort (· ≤ ·))

/-- `u32::try_from`, or the largest `u32`. -/
def ageWeeks (age : Int) : Nat :=
  let weeks := age.tdiv (7 * 86400)
  if 0 ≤ weeks ∧ weeks < 2 ^ 32 then weeks.toNat else 2 ^ 32 - 1

/-- The evaluation, once the dates are there. -/
def report (d : Digests) (p : GrowthPolicy) (facts : List EvaluationFact) (asOf : DateTime)
    (penalty : Bool) (start : DateTime) : Evaluation :=
  let age := ageSeconds p facts asOf
  let t := tally p facts start
  let units := unitsTotal p t.perWeek % 2 ^ 32
  let attested := attestedTotal p t.perWeek % 2 ^ 32
  let activeWeeks := weeksTotal p t.perWeek % 2 ^ 32
  let tier := if penalty then 0 else reachedTier p units activeWeeks age attested
  { growthPolicyVersion := p.base.version
    asOf
    tier
    effectiveAllowance := p.effectiveAllowance tier
    units
    unitsCapped := unitsCapped p t.perWeek
    attestedUnits := attested
    activeWeeks
    ageWeeks := ageWeeks age
    ageSeconds := age
    nettedWithdrawn := t.nettedWithdrawn
    nettedRevoked := t.nettedRevoked
    nettedQuarantined := t.nettedQuarantined
    penaltyActive := penalty
    factsDigest := factsDigest d facts }

/-- The rule, over facts that have all occurred. -/
def evaluateFacts (d : Digests) (p : GrowthPolicy) (facts : List EvaluationFact)
    (asOf : DateTime) : Option Evaluation := do
  let penalty ← penaltyActive p facts asOf
  let start ← windowStart p asOf
  return report d p facts asOf penalty start

def occurred (facts : List EvaluationFact) (asOf : DateTime) : List EvaluationFact :=
  facts.filter (·.occurredAt ≤ asOf)

/-- `evaluate`; `none` where a date runs out of `chrono`'s range. -/
def evaluate (d : Digests) (p : GrowthPolicy) (facts : List EvaluationFact) (asOf : DateTime) :
    Option Evaluation :=
  evaluateFacts d p (occurred facts asOf) asOf

end TraceCommons.Trust
