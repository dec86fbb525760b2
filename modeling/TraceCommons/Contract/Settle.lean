import TraceCommons.Contract.Canonical

/-! # Settlement decisions

A settle decision holds the operations that pay the awards of the committed score. They are sorted
by instrument, so that a comparison entry by entry with the awards, which are sorted too, finds out
whether each award is paid by one operation. -/

namespace TraceCommons.Contract

inductive InstrumentSettlementOutcome
  | completed (resultRefHash : Text) (externalReceiptHash : Option Text)
  | forfeited (reason : Text)

structure InstrumentSettlement where
  instrumentId : InstrumentId
  atomicUnits : Fin (2 ^ 128)
  operationRefHash : Text
  outcome : InstrumentSettlementOutcome

inductive IndexMembershipDecision
  | excluded (reason : Text)
  | included (commandHash : Text) (entryCount : Fin (2 ^ 32))

structure ScoreDecision where
  bundleId : Text
  awards : InstrumentAwards

/-- The operations are sorted and pay no instrument twice. -/
structure SettleDecision where
  indexMembership : IndexMembershipDecision
  settlementOperations : List InstrumentSettlement
  sorted : settlementOperations.Pairwise fun a b => a.instrumentId < b.instrumentId

def InstrumentSettlement.key (op : InstrumentSettlement) : InstrumentId ×ₗ Text :=
  toLex (op.instrumentId, op.operationRefHash)

def sortOperations (ops : List InstrumentSettlement) : List InstrumentSettlement :=
  ops.insertionSort fun a b => a.key ≤ b.key

theorem sortOperations_sorted (ops : List InstrumentSettlement) :
    (sortOperations ops).Pairwise fun a b => a.instrumentId ≤ b.instrumentId :=
  (pairwise_insertionSort_key InstrumentSettlement.key ops).imp fun h => Prod.Lex.monotone_fst _ _ h

/-- The hash of an index command is one. -/
def IndexMembershipDecision.hashed : IndexMembershipDecision → Bool
  | excluded _ => true
  | included commandHash _ => isSha256 commandHash.list

namespace SettleDecision

def fromParts (m : IndexMembershipDecision) (ops : List InstrumentSettlement) :
    Except ContractError SettleDecision :=
  if ¬ m.hashed then .error .malformedHash
  else if h : anyWindow (fun a b => a.instrumentId = b.instrumentId) (sortOperations ops) then
    .error .duplicateInstrumentId
  else
    .ok ⟨m, sortOperations ops,
      pairwise_lt_of_anyWindow (sortOperations_sorted ops) (by simpa using h)⟩

def matchesScore (d : SettleDecision) (score : ScoreDecision) : Except ContractError Unit :=
  let awards := score.awards.awards.list
  let operationsMatch := (awards.zip d.settlementOperations).all fun p =>
    p.1.instrumentId = p.2.instrumentId ∧ p.1.atomicUnits = p.2.atomicUnits
  if awards.length ≠ d.settlementOperations.length ∨ ¬ operationsMatch then
    .error .settlementOperationMismatch
  else .ok ()

def new (m : IndexMembershipDecision) (score : ScoreDecision) (ops : List InstrumentSettlement) :
    Except ContractError SettleDecision := do
  let decision ← fromParts m ops
  decision.matchesScore score
  return decision

end SettleDecision

def InstrumentAward.leg (award : InstrumentAward) : InstrumentId × Fin (2 ^ 128) :=
  (award.instrumentId, award.atomicUnits)

def InstrumentSettlement.leg (op : InstrumentSettlement) : InstrumentId × Fin (2 ^ 128) :=
  (op.instrumentId, op.atomicUnits)

/-- The operations, in some order, pay the awards one for one. -/
def InstrumentAwards.PaidBy (a : InstrumentAwards) (ops : List InstrumentSettlement) : Prop :=
  ∃ paid : List InstrumentSettlement, paid.Perm ops ∧
    a.awards.list.map (·.leg) = paid.map (·.leg)

theorem anyWindow_eq_false {α : Type} {f : α → α → Bool} {l : List α}
    (h : l.Pairwise fun a b => f a b = false) : anyWindow f l = false := by
  induction l with
  | nil => rfl
  | cons a l ih =>
    obtain ⟨ha, hl⟩ := List.pairwise_cons.1 h
    cases l with
    | nil => rfl
    | cons b l => rw [anyWindow, ha b (.head _), ih hl, Bool.or_false]

variable {m : IndexMembershipDecision} {score : ScoreDecision} {d : SettleDecision}
  {ops : List InstrumentSettlement}

namespace SettleDecision

/-- The decision has the operations, whatever their order. -/
theorem fromParts_eq_ok : fromParts m ops = .ok d ↔
    m.hashed ∧ d.indexMembership = m ∧ d.settlementOperations.Perm ops := by
  have hperm : (sortOperations ops).Perm ops := List.perm_insertionSort _ ops
  constructor
  · intro h
    unfold fromParts at h
    split at h
    · cases h
    rename_i hm
    split at h <;> cases h
    exact ⟨not_not.1 hm, rfl, hperm⟩
  rintro ⟨hm, rfl, hd⟩
  have hne : (sortOperations ops).Pairwise fun a b => a.instrumentId ≠ b.instrumentId :=
    (d.sorted.imp ne_of_lt).perm (hd.trans hperm.symm) fun h => h.symm
  have hsorted : sortOperations ops = d.settlementOperations := by
    refine List.Perm.eq_of_pairwise (fun _ _ _ _ hab hba => absurd hba hab.not_gt)
      (hne.imp₂ (fun _ _ hne hle => lt_of_le_of_ne hle hne) (sortOperations_sorted ops)) d.sorted
      (hperm.trans hd.symm)
  have hwindow : anyWindow (fun a b => a.instrumentId = b.instrumentId) (sortOperations ops) =
      false := anyWindow_eq_false (hne.imp decide_eq_false)
  rw [fromParts, if_neg (not_not.2 hm), dif_neg (by rw [hwindow]; exact Bool.false_ne_true)]
  cases d
  cases hsorted
  rfl

theorem matchesScore_eq_ok : d.matchesScore score = .ok () ↔
    score.awards.awards.list.map (·.leg) = d.settlementOperations.map (·.leg) := by
  rw [← List.forall₂_eq_eq_eq, List.forall₂_map_left_iff, List.forall₂_map_right_iff,
    List.forall₂_iff_zip, matchesScore]
  simp [InstrumentAward.leg, InstrumentSettlement.leg]

theorem new_eq_ok : new m score ops = .ok d ↔
    fromParts m ops = .ok d ∧ d.matchesScore score = .ok () := by
  constructor
  · intro h
    obtain ⟨_, hd, h⟩ := bind_eq_ok.1 h
    obtain ⟨_, hmatch, h⟩ := bind_eq_ok.1 h
    cases h
    exact ⟨hd, hmatch⟩
  · rintro ⟨hd, hmatch⟩
    exact bind_eq_ok.2 ⟨d, hd, bind_eq_ok.2 ⟨(), hmatch, rfl⟩⟩

/-- Operations that pay the awards are sorted as the awards are. -/
theorem exists_ok_iff : (∃ d, fromParts m ops = .ok d ∧ d.matchesScore score = .ok ()) ↔
    m.hashed ∧ score.awards.PaidBy ops := by
  simp only [fromParts_eq_ok, matchesScore_eq_ok]
  constructor
  · rintro ⟨d, ⟨hm, -, hperm⟩, hlegs⟩
    exact ⟨hm, d.settlementOperations, hperm, hlegs⟩
  · rintro ⟨hm, paid, hperm, hlegs⟩
    have hsorted : (paid.map (·.leg)).Pairwise fun a b => a.1 < b.1 :=
      hlegs ▸ List.pairwise_map.2 score.awards.sorted
    rw [List.pairwise_map] at hsorted
    exact ⟨⟨m, paid, hsorted⟩, ⟨hm, rfl, hperm⟩, hlegs⟩

end SettleDecision

/-- A settlement pays its score exactly, whatever the order of its operations. -/
theorem settlement_pays_score (m : IndexMembershipDecision) (score : ScoreDecision)
    (ops : List InstrumentSettlement) :
    ((∃ d, SettleDecision.new m score ops = .ok d) ↔ m.hashed ∧ score.awards.PaidBy ops) ∧
    ((∃ d, SettleDecision.fromParts m ops = .ok d ∧ d.matchesScore score = .ok ()) ↔
      m.hashed ∧ score.awards.PaidBy ops) ∧
    (∀ ops' d, ops'.Perm ops →
      (SettleDecision.new m score ops' = .ok d ↔ SettleDecision.new m score ops = .ok d)) ∧
    ∀ d, SettleDecision.new m score ops = .ok d → d.matchesScore score = .ok () ∧
      (ops.map (·.instrumentId)).Nodup ∧
      ∀ award ∈ score.awards.awards.list, ∃ op ∈ ops, op.leg = award.leg := by
  simp only [SettleDecision.new_eq_ok]
  refine ⟨SettleDecision.exists_ok_iff, SettleDecision.exists_ok_iff, fun ops' d hperm => ?_, ?_⟩
  · rw [SettleDecision.fromParts_eq_ok, SettleDecision.fromParts_eq_ok, hperm.congr_right]
  · rintro d ⟨hd, hmatch⟩
    obtain ⟨-, -, hperm⟩ := SettleDecision.fromParts_eq_ok.1 hd
    have hids : (d.settlementOperations.map (·.instrumentId)).Nodup :=
      List.pairwise_map.2 (d.sorted.imp ne_of_lt)
    refine ⟨hmatch, (hperm.map _).nodup_iff.1 hids, fun award haward => ?_⟩
    have hleg := List.mem_map_of_mem (f := (·.leg)) haward
    rw [SettleDecision.matchesScore_eq_ok.1 hmatch] at hleg
    obtain ⟨op, hop, hleg⟩ := List.mem_map.1 hleg
    exact ⟨op, hperm.mem_iff.1 hop, hleg⟩

/-- A score without awards needs no operation, but the hash of an index command is checked. -/
theorem settlement_refused_unhashed :
    let score : ScoreDecision := ⟨⟨[], by decide⟩, ⟨⟨[], by decide⟩, .nil⟩⟩
    score.awards.PaidBy [] ∧
      ¬ ∃ d, SettleDecision.new (.included ⟨[], by decide⟩ 0) score [] = .ok d := by
  refine ⟨⟨[], .nil, rfl⟩, fun ⟨d, hd⟩ => ?_⟩
  have hhashed := (SettleDecision.fromParts_eq_ok.1 (SettleDecision.new_eq_ok.1 hd).1).1
  exact absurd hhashed (by decide)

end TraceCommons.Contract
