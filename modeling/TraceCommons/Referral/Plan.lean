import TraceCommons.Payout.Pass
import TraceCommons.Referral.Store

/-! # Planning a referee's bonus rows

`plan_referral_bonus`: from a referee's accruals on the rail and the bonus rows already stored,
the bonus and reversal rows to write. A hash map built by inserting in order keeps the last entry
of a key. -/

namespace TraceCommons.Referral

open Payout

/-- `floor(base * bps / 10000)` without overflow. -/
def bonusUnits (base bps : Nat) : Nat :=
  base / 10000 * min bps 10000 + base % 10000 * min bps 10000 / 10000

theorem bonusUnits_eq (base bps : Nat) : bonusUnits base bps = base * min bps 10000 / 10000 := by
  have hsplit : base * min bps 10000 =
      base % 10000 * min bps 10000 + base / 10000 * min bps 10000 * 10000 := by
    conv_lhs => rw [← Nat.div_add_mod base 10000]
    ring
  rw [hsplit, Nat.add_mul_div_right _ _ (by norm_num), Nat.add_comm]
  rfl

/-- An accrual of the referee, with its batch's creation time. -/
structure ReferralRefereeAccrual where
  accrualId : Uuid
  kind : AccrualKind
  settlementBatchId : Uuid
  creditAccountHash : String
  accountId : Option Uuid
  railUnits : Nat
  rateVersion : String
  instrumentId : String
  batchCreatedAt : Time
  deriving DecidableEq

/-- A stored bonus row; units are magnitudes. -/
structure ReferralBonusRecord where
  kind : ReferralBonusKind
  sourceAccrualId : Option Uuid
  bps : Nat
  baseUnits : Nat
  bonusUnits : Nat
  deriving DecidableEq

structure ReferralAttribution where
  accountId : Uuid
  referrerAccountId : Uuid
  refereeRefHash : String
  appliedAt : Time
  voided : Bool
  deriving DecidableEq

structure BonusInputs where
  attribution : ReferralAttribution
  accruals : List ReferralRefereeAccrual
  existing : List ReferralBonusRecord
  bps : Nat
  earnUntil : Time
  refereeHeld : Bool
  mirrorVoided : Bool

/-- `skipped` has one label a skip. -/
structure BonusPlan where
  writes : List ReferralBonusWrite
  voided : Bool
  skipped : List String
  deriving DecidableEq

def ReferralRefereeAccrual.line (a : ReferralRefereeAccrual) : Uuid × String :=
  (a.settlementBatchId, a.creditAccountHash)

def accrualById (accruals : List ReferralRefereeAccrual) (id : Uuid) :
    Option ReferralRefereeAccrual :=
  (accruals.filter (·.accrualId = id)).getLast?

def creditOfLine (accruals : List ReferralRefereeAccrual) (line : Uuid × String) : Option Uuid :=
  ((accruals.filter fun a => a.kind = .credit && a.line = line).getLast?).map (·.accrualId)

/-- The bps and units of the bonus row a credit produced. -/
def bonusOfCredit (existing : List ReferralBonusRecord) (credit : Uuid) : Option (Nat × Nat) :=
  ((existing.filter fun r => r.kind = .bonus && r.sourceAccrualId = some credit).getLast?).map
    fun r => (r.bps, r.bonusUnits)

/-- The credit whose bonus a stored reversal row took from. -/
def creditOfReversal (accruals : List ReferralRefereeAccrual) (r : ReferralBonusRecord) :
    Option Uuid := do
  let reversal ← accrualById accruals (← r.sourceAccrualId)
  creditOfLine accruals reversal.line

/-- What stored reversal rows have taken of a credit's bonus. -/
def takenBack (accruals : List ReferralRefereeAccrual) (existing : List ReferralBonusRecord)
    (credit : Uuid) : Nat :=
  (existing.filter fun r => r.kind = .reversal &&
    creditOfReversal accruals r = some credit).foldl
      (fun taken r => saturatingAdd 128 taken r.bonusUnits) 0

/-- The plan so far, with the maps it updates as it goes. -/
structure Planning where
  writes : List ReferralBonusWrite
  skipped : List String
  bonusOf : Uuid → Option (Nat × Nat)
  taken : Uuid → Nat

namespace BonusInputs

variable (inp : BonusInputs)

def priced (id : Uuid) : Bool := inp.existing.any (·.sourceAccrualId = some id)

def voided : Bool :=
  inp.attribution.voided || inp.mirrorVoided || inp.existing.any (·.kind = .void)

/-- Why a credit of the referee that is not priced yet gives no bonus. -/
def creditRefusal (a : ReferralRefereeAccrual) : Option String :=
  if a.batchCreatedAt < inp.attribution.appliedAt ∨ inp.earnUntil ≤ a.batchCreatedAt then
    some "referral_outside_window"
  else if inp.refereeHeld then some "referral_referee_held"
  else if a.railUnits = 0 then some "referral_base_zero"
  else none

def write (a : ReferralRefereeAccrual) (kind : ReferralBonusKind) (bps units : Nat) :
    ReferralBonusWrite where
  accountId := inp.attribution.referrerAccountId
  refereeRefHash := inp.attribution.refereeRefHash
  kind := kind
  sourceAccrualId := some a.accrualId
  bps := bps
  baseUnits := a.railUnits
  bonusUnits := units
  rateVersion := a.rateVersion
  instrumentId := a.instrumentId

def planCredit (s : Planning) (a : ReferralRefereeAccrual) : Planning :=
  match a.accountId with
  | none => { s with skipped := s.skipped ++ ["referral_accrual_unowned"] }
  | some owner =>
    if owner ≠ inp.attribution.accountId then s
    else if inp.priced a.accrualId then s
    else match inp.creditRefusal a with
      | some label => { s with skipped := s.skipped ++ [label] }
      | none =>
        let units := Referral.bonusUnits a.railUnits inp.bps
        { s with
          writes := s.writes ++ [inp.write a .bonus inp.bps units]
          bonusOf := Function.update s.bonusOf a.accrualId (some (inp.bps, units)) }

def planReversal (s : Planning) (a : ReferralRefereeAccrual) : Planning :=
  if a.accountId ≠ some inp.attribution.accountId then s
  else if inp.priced a.accrualId then s
  else match (creditOfLine inp.accruals a.line).bind fun c => (s.bonusOf c).map ((c, ·)) with
    | none => { s with skipped := s.skipped ++ ["referral_reversal_without_bonus"] }
    | some (credit, bps, creditBonus) =>
      if a.railUnits = 0 then { s with skipped := s.skipped ++ ["referral_base_zero"] }
      else
        -- The cap only guards stored oddities.
        let units := min (Referral.bonusUnits a.railUnits bps) (creditBonus - s.taken credit)
        { s with
          writes := s.writes ++ [inp.write a .reversal bps units]
          taken := Function.update s.taken credit (saturatingAdd 128 (s.taken credit) units) }

/-- The accruals in the order of their batches. -/
def ordered (kind : AccrualKind) : List ReferralRefereeAccrual :=
  (inp.accruals.insertionSort fun a b => toLex (a.batchCreatedAt, a.accrualId) ≤
    toLex (b.batchCreatedAt, b.accrualId)).filter (·.kind = kind)

/-- The maps as they are before the first credit. -/
def start : Planning :=
  ⟨[], [], bonusOfCredit inp.existing, takenBack inp.accruals inp.existing⟩

/-- Credits first, so a reversal later in the same run finds its bonus. -/
def planned : Planning :=
  (inp.ordered .reversal).foldl inp.planReversal
    ((inp.ordered .credit).foldl inp.planCredit inp.start)

def planReferralBonus : BonusPlan :=
  if inp.voided then ⟨[], true, []⟩ else ⟨inp.planned.writes, false, inp.planned.skipped⟩

end BonusInputs

def Planning.NoVoid (s : Planning) : Prop := ∀ w ∈ s.writes, w.kind ≠ .void

namespace BonusInputs

variable {inp : BonusInputs} {s : Planning}

theorem planCredit_noVoid (h : s.NoVoid) (a : ReferralRefereeAccrual) :
    (inp.planCredit s a).NoVoid := by
  unfold planCredit
  split
  · exact h
  split
  · exact h
  split
  · exact h
  split
  · exact h
  · exact List.forall_mem_append.2 ⟨h, List.forall_mem_singleton.2 nofun⟩

theorem planReversal_noVoid (h : s.NoVoid) (a : ReferralRefereeAccrual) :
    (inp.planReversal s a).NoVoid := by
  unfold planReversal
  split
  · exact h
  split
  · exact h
  split
  · exact h
  split
  · exact h
  · exact List.forall_mem_append.2 ⟨h, List.forall_mem_singleton.2 nofun⟩

/-- Void rows are written by the voids alone. -/
theorem planReferralBonus_noVoid : ∀ w ∈ inp.planReferralBonus.writes, w.kind ≠ .void := by
  unfold planReferralBonus
  split
  · exact List.forall_mem_nil _
  have hcredits : ((inp.ordered .credit).foldl inp.planCredit inp.start).NoVoid :=
    List.foldlRecOn (motive := Planning.NoVoid) _ _ (List.forall_mem_nil _) fun _ h a _ =>
      planCredit_noVoid h a
  exact List.foldlRecOn (motive := Planning.NoVoid) _ _ hcredits fun _ h a _ =>
    planReversal_noVoid h a

end BonusInputs

end TraceCommons.Referral
