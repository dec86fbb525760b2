import TraceCommons.Trust.RuleLaws

/-! # Where the counters of the trust rule end

The weeks are added up in a `u32` that wraps, although a week by itself saturates. With one
attested submission a week the units of `n` weeks are known exactly, so that one can say where the
sum runs over. -/

namespace TraceCommons.Trust

open List

/-- The units of all weeks, over any set of weeks outside which there is nothing. -/
theorem unitsTotal_eq_sum (p : GrowthPolicy) (perWeek : OrdMap Int (Nat × Nat))
    (weeks : Finset Int) (h : ∀ w, w ∉ weeks → week perWeek w = (0, 0)) :
    unitsTotal p perWeek = ∑ w ∈ weeks, min (weightOf p (week perWeek w)) p.weeklyCap := by
  let keys := (perWeek.entries.map Prod.fst).toFinset
  have hkeys : ∀ w, (perWeek.get? w).isSome → w ∈ keys ∪ weeks := by
    intro w hw
    obtain ⟨c, hc⟩ := Option.isSome_iff_exists.1 hw
    refine Finset.mem_union_left _ (mem_toFinset.2 (mem_map.2 ⟨(w, c), ?_, rfl⟩))
    exact OrdMap.mem_entries.2 hc
  have hzero : min (weighted p (0, 0)) p.weeklyCap = 0 := by simp [weighted]
  rw [unitsTotal, sum_weeks _ (g := fun c => min _ _) hzero _ hkeys,
    ← Finset.sum_subset Finset.subset_union_right]
  · exact Finset.sum_congr rfl fun w _ => min_weighted p _
  · intro w _ hw
    rw [h w hw]
    exact hzero

/-- One attested unit fills a week, and the product of the weight and the cap just fits in a `u32`;
the cooldown is the longest an `i64` holds. -/
def fullWeekPolicy : GrowthPolicy where
  windowSeconds := 50000000000
  weeklyCap := 65535
  attestedUnitWeight := some 65537
  requireGatePass := false
  qMinMicros := none
  penaltyCooldownSeconds := 2 ^ 63 - 1
  evaluationMaxAgeSeconds := 1
  allowanceCeiling := 30
  evaluatorVersions := ["gate"]
  creditQualityCalibrationVersions := []
  dedupSignalVersions := ["dedup"]
  tiers := [⟨0, 0, 0, 1, 0⟩]
  base :=
    { version := ['v'], processingCostBound := 10, boundedAllowance := 30, period := .lifetime
      versionChars := List.all_eq_true.1 (by decide)
      costPositive := Nat.succ_pos 9, costAllowed := Nat.le_add_right 10 20
      sumFits := (by decide : 40 < 2 ^ 63) }
  accepted := by decide +kernel

/-- A fact about a submission, with nothing in the fields of the gate. -/
def plainFact (kind : SourceKind) (outcome : Outcome) (id : Uuid) (occurredAt : DateTime) :
    EvaluationFact where
  sourceKind := kind
  sourceId := id
  submissionId := id
  outcome := outcome
  evaluatorVersion := none
  occurredAt := occurredAt
  creditQualityMicros := none
  creditQualityCalibrationVersion := none
  dedupSignalVersion := none
  firstInCluster := some true

def weekStart (i : Nat) : DateTime := (i : Int) * (7 * 86400) * nanosPerSecond

/-- One submission a week, accepted and attested. -/
def weekly (n : Nat) : List EvaluationFact :=
  (List.range n).flatMap fun i =>
    [plainFact .acceptedSubmission .accepted i (weekStart i),
      plainFact .attestedSubmission .attestedProviderTee i (weekStart i)]

theorem mem_weekly {n : Nat} {g : EvaluationFact} : g ∈ weekly n ↔ ∃ i < n,
    g = plainFact .acceptedSubmission .accepted i (weekStart i) ∨
      g = plainFact .attestedSubmission .attestedProviderTee i (weekStart i) := by
  simp [weekly]

theorem weekOf_weekStart (i : Nat) : weekOf (i, weekStart i) = i := by
  unfold weekOf weekStart epochIndex timestamp
  rw [Int.mul_fdiv_cancel _ (by decide)]
  exact Int.mul_ediv_cancel _ (by decide)

section Weekly

variable {n : Nat} {facts : List EvaluationFact}

/-- The facts of `weekly n`, and others that neither accept, penalize nor attest. -/
def Extends (n : Nat) (facts : List EvaluationFact) : Prop :=
  (∀ g ∈ weekly n, g ∈ facts) ∧ ∀ g ∈ facts, g ∈ weekly n ∨ g.nettingRank.isSome

theorem Extends.mem_acceptances (h : Extends n facts) {g : EvaluationFact} :
    g ∈ acceptances fullWeekPolicy facts ↔
      ∃ i < n, g = plainFact .acceptedSubmission .accepted i (weekStart i) := by
  have hex : statusExclusions fullWeekPolicy facts = [] := rfl
  simp only [acceptances, mem_filter]
  constructor
  · rintro ⟨hg, hq⟩
    rcases h.2 g hg with hw | hrank
    · obtain ⟨i, hi, rfl | rfl⟩ := mem_weekly.1 hw
      · exact ⟨i, hi, rfl⟩
      · simp [acceptedFactQualifies, plainFact] at hq
    · have hneg : g.isNegative fullWeekPolicy := by simp [EvaluationFact.isNegative, hrank]
      rw [(not_qualifies_of_isNegative hneg).1] at hq
      cases hq
  · rintro ⟨i, hi, rfl⟩
    exact ⟨h.1 _ (mem_weekly.2 ⟨i, hi, .inl rfl⟩), rfl⟩

theorem Extends.entries_perm (h : Extends n facts) :
    (acceptedAt fullWeekPolicy facts).entries.Perm
      ((range n).map fun i => (i, weekStart i)) := by
  have hnodup : ((range n).map fun i => (i, weekStart i)).Nodup :=
    nodup_range.map fun i j he => congrArg Prod.fst he
  refine (perm_ext_iff_of_nodup (OrdMap.nodup_entries _) hnodup).2 ?_
  rintro ⟨id, _⟩
  rw [OrdMap.mem_entries, acceptedAt, OrdMap.get?_foldl_insertMin, min?_eq_some_iff]
  simp only [mem_map, mem_filter, h.mem_acceptances, decide_eq_true_eq, mem_range, Prod.mk.injEq]
  constructor
  · rintro ⟨⟨g, ⟨⟨i, hi, rfl⟩, rfl⟩, rfl⟩, -⟩
    exact ⟨i, hi, rfl, rfl⟩
  rintro ⟨i, hi, rfl, rfl⟩
  refine ⟨⟨_, ⟨⟨i, hi, rfl⟩, rfl⟩, rfl⟩, ?_⟩
  rintro b ⟨g, ⟨⟨j, hj, rfl⟩, rfl⟩, rfl⟩
  exact le_refl _

variable {start : DateTime}

theorem Extends.standing_eq (h : Extends n facts) (hstart : start < 0) {i : Nat} (hi : i < n)
    {attested : Bool} :
    standing fullWeekPolicy facts start i (weekStart i) = .unit attested ↔
      attested = true ∧ netting facts i (weekStart i) = none := by
  have hatt : isAttested facts i = true := by
    refine any_eq_true.2 ⟨_, h.1 _ (mem_weekly.2 ⟨i, hi, .inr rfl⟩), ?_⟩
    simp [plainFact, attestedFactQualifies]
  have hpen : ∀ g ∈ facts, g.isPenalty → g.occurredAt < weekStart i := by
    intro g hg hp
    rcases h.2 g hg with hw | hrank
    · obtain ⟨j, -, rfl | rfl⟩ := mem_weekly.1 hw
      · simp [EvaluationFact.isPenalty, plainFact] at hp
      · simp [EvaluationFact.isPenalty, plainFact] at hp
    · simp only [EvaluationFact.isPenalty, decide_eq_true_eq] at hp
      simp [EvaluationFact.nettingRank, hp.1] at hrank
  have hpos : start < weekStart i := by
    refine lt_of_lt_of_le hstart (Int.mul_nonneg (Int.mul_nonneg (Int.natCast_nonneg i) ?_) ?_)
    · decide
    · decide
  rw [standing_eq_unit, hatt]
  constructor
  · rintro ⟨-, hnet, -, ha⟩
    exact ⟨ha.symm, hnet⟩
  · rintro ⟨rfl, hnet⟩
    exact ⟨⟨hpos, hpen⟩, hnet, .inr ⟨rfl, rfl⟩, rfl⟩

/-- The units of a week, if submission `i` is the only one of week `i` and counts if it is live. -/
theorem unitsIn_of_perm {entries : List (Uuid × DateTime)} {st : Uuid × DateTime → Standing}
    {t : Nat → DateTime} {live : Nat → Bool}
    (hperm : entries.Perm ((range n).map fun i => (i, t i)))
    (hweek : ∀ i, weekOf (i, t i) = i)
    (hst : ∀ i < n, ∀ attested, st (i, t i) = .unit attested ↔ attested = true ∧ live i)
    (attested : Bool) (w : Int) :
    unitsIn st entries attested w =
      if attested then (range n).countP fun i : Nat => (i : Int) = w ∧ live i else 0 := by
  rw [unitsIn, hperm.countP_eq, countP_map]
  cases attested with
  | false =>
    refine countP_eq_zero.2 fun i hi hc => ?_
    have hc := (of_decide_eq_true hc).2
    exact Bool.false_ne_true ((hst i (mem_range.1 hi) _).1 hc).1
  | true =>
    refine countP_congr fun i hi => ?_
    simp [hweek, hst i (mem_range.1 hi)]

/-- A week holds one attested unit, unless its submission was netted out. -/
theorem Extends.week_eq (h : Extends n facts) (hn : n < 2 ^ 32) (hstart : start < 0) (w : Int) :
    week (tally fullWeekPolicy facts start).perWeek w =
      (0, (range n).countP fun i : Nat =>
        (i : Int) = w ∧ (netting facts i (weekStart i)).isNone) := by
  have hlen := h.entries_perm.length_eq
  rw [length_map, length_range] at hlen
  have hst : ∀ i < n, ∀ attested, standing fullWeekPolicy facts start i (weekStart i) =
      .unit attested ↔ attested = true ∧ (netting facts i (weekStart i)).isNone := by
    intro i hi _
    rw [h.standing_eq hstart hi, Option.isNone_iff_eq_none]
  have hunits : ∀ attested w, unitsIn (fun e => standing fullWeekPolicy facts start e.1 e.2)
      (acceptedAt fullWeekPolicy facts).entries attested w = if attested then
        (range n).countP fun i : Nat => (i : Int) = w ∧ (netting facts i (weekStart i)).isNone
      else 0 := unitsIn_of_perm h.entries_perm weekOf_weekStart hst
  rw [week_tally _ _ _ _ (by rwa [hlen]), hunits, hunits]
  rfl

/-- The capped units, if only submissions below `m` were netted out. -/
theorem Extends.unitsTotal_eq (h : Extends n facts) (hn : n < 2 ^ 32) (hstart : start < 0) {m : Nat}
    (hnet : ∀ i < n, (netting facts i (weekStart i)).isNone ↔ m ≤ i) :
    unitsTotal fullWeekPolicy (tally fullWeekPolicy facts start).perWeek = (n - m) * 65535 := by
  have hcount : ∀ j, (range n).countP (fun i : Nat => (i : Int) = (j : Nat) ∧
      (netting facts i (weekStart i)).isNone) = if m ≤ j ∧ j < n then 1 else 0 := by
    intro j
    have hsame : (range n).countP (fun i : Nat => (i : Int) = j ∧
        (netting facts i (weekStart i)).isNone) =
        (range n).countP (fun i => decide (m ≤ j) && i == j) := by
      refine countP_congr fun i hi => ?_
      simp only [decide_eq_true_eq, Bool.and_eq_true, beq_iff_eq, Int.natCast_inj,
        hnet i (mem_range.1 hi)]
      constructor
      · rintro ⟨rfl, h⟩
        exact ⟨h, rfl⟩
      · rintro ⟨h, rfl⟩
        exact ⟨rfl, h⟩
    rw [hsame]
    by_cases hm : m ≤ j
    · simp only [hm]
      exact nodup_range.count.trans (by simp)
    · simp [hm]
  have houtside : ∀ w, w ∉ (Finset.Ico m n).image (fun i : Nat => (i : Int)) →
      week (tally fullWeekPolicy facts start).perWeek w = (0, 0) := by
    intro w hw
    rw [h.week_eq hn hstart]
    refine Prod.ext rfl (countP_eq_zero.2 fun i hi hc => hw ?_)
    have hc := of_decide_eq_true hc
    refine Finset.mem_image.2 ⟨i, Finset.mem_Ico.2 ⟨?_, mem_range.1 hi⟩, hc.1⟩
    exact (hnet i (mem_range.1 hi)).1 hc.2
  rw [unitsTotal_eq_sum _ _ _ houtside, Finset.sum_image fun i _ j _ he => Int.natCast_inj.1 he]
  have hterm : ∀ j ∈ Finset.Ico m n, min (weightOf fullWeekPolicy
      (week (tally fullWeekPolicy facts start).perWeek j)) fullWeekPolicy.weeklyCap =
        65535 := by
    intro j hj
    rw [h.week_eq hn hstart, hcount, if_pos (Finset.mem_Ico.1 hj)]
    rfl
  rw [Finset.sum_const_nat hterm, Nat.card_Ico]

theorem netting_isNone {id : Uuid} {at_ : DateTime} : (netting facts id at_).isNone ↔
    ∀ g ∈ facts, g.submissionId = id → at_ ≤ g.occurredAt → g.nettingRank = none := by
  rw [Option.isNone_iff_eq_none, netting, min?_eq_none_iff, filterMap_eq_nil_iff]
  simp only [mem_filter, decide_eq_true_eq, Option.map_eq_none_iff]
  exact ⟨fun h g hg hid hle => h g ⟨hg, hid, hle⟩, fun h g ⟨hg, hid, hle⟩ => h g hg hid hle⟩

theorem nettingRank_weekly {g : EvaluationFact} (hg : g ∈ weekly n) : g.nettingRank = none := by
  obtain ⟨i, -, rfl | rfl⟩ := mem_weekly.1 hg
  · rfl
  · rfl

/-- Without a penalty and with a window that starts before the epoch, the units are those of the
weeks. -/
theorem Extends.evaluate_units (d : Digests) (h : Extends n facts) (hn : n < 2 ^ 32)
    {asOf : DateTime} (hocc : ∀ g ∈ facts, g.occurredAt ≤ asOf)
    (hwindow : windowStart fullWeekPolicy asOf = some start) (hstart : start < 0) {m : Nat}
    (hnet : ∀ i < n, (netting facts i (weekStart i)).isNone ↔ m ≤ i) :
    ∃ r, evaluate d fullWeekPolicy facts asOf = some r ∧ r.units = (n - m) * 65535 % 2 ^ 32 := by
  have hall : occurred facts asOf = facts :=
    filter_eq_self.2 fun g hg => decide_eq_true (hocc g hg)
  have hpen : latestPenalty facts = none := by
    rw [latestPenalty, max?_eq_none_iff, map_eq_nil_iff, filter_eq_nil_iff]
    intro g hg hp
    simp only [EvaluationFact.isPenalty, decide_eq_true_eq] at hp
    rcases h.2 g hg with hw | hrank
    · obtain ⟨j, -, rfl | rfl⟩ := mem_weekly.1 hw
      · cases hp.1
      · cases hp.1
    · simp [EvaluationFact.nettingRank, hp.1] at hrank
  have hactive : penaltyActive fullWeekPolicy facts asOf = some false := by
    rw [penaltyActive, hpen]
  refine ⟨report d _ _ asOf false _, ?_, congrArg (· % 2 ^ 32) (h.unitsTotal_eq hn hstart hnet)⟩
  rw [evaluate, hall]
  exact evaluateFacts_eq_some.2 ⟨false, start, hactive, hwindow, rfl⟩

end Weekly

/-- Over 65538 weeks the sum wraps to 65534, and withdrawing one submission raises it to the
largest `u32`. A policy whose cooldown is out of range has no evaluation after a penalty. -/
theorem trust_rises_past_u32 :
    (∃ r r', evaluate ⟨fun _ => "", fun _ => ""⟩ fullWeekPolicy (weekly 65538) (weekStart 65538) =
        some r ∧
      evaluate ⟨fun _ => "", fun _ => ""⟩ fullWeekPolicy
        (plainFact .submissionWithdrawn .withdrawn 0 0 :: weekly 65538) (weekStart 65538) =
        some r' ∧
      r.units = 65534 ∧ r'.units = 4294967295) ∧
    ((evaluate ⟨fun _ => "", fun _ => ""⟩ fullWeekPolicy [] 0).isSome ∧
      evaluate ⟨fun _ => "", fun _ => ""⟩ fullWeekPolicy
        [plainFact .abusePenalty .penalized 0 0] 0 = none) := by
  have hocc : ∀ g ∈ weekly 65538, g.occurredAt ≤ weekStart 65538 := by
    intro g hg
    obtain ⟨i, hi, he⟩ := mem_weekly.1 hg
    have hat : g.occurredAt = weekStart i := by rcases he with rfl | rfl <;> rfl
    rw [hat]
    refine Int.mul_le_mul_of_nonneg_right (Int.mul_le_mul_of_nonneg_right ?_ ?_) ?_
    · exact Int.ofNat_le.2 hi.le
    · decide
    · decide
  have hplain : Extends 65538 (weekly 65538) := ⟨fun _ => id, fun _ => .inl⟩
  have hwithdrawn : Extends 65538
      (plainFact .submissionWithdrawn .withdrawn 0 0 :: weekly 65538) := by
    refine ⟨fun g hg => .tail _ hg, fun g hg => ?_⟩
    rcases mem_cons.1 hg with rfl | hg
    · exact .inr rfl
    · exact .inl hg
  have hwindow : windowStart fullWeekPolicy (weekStart 65538) =
      some (-10362617600 * nanosPerSecond) := by decide
  obtain ⟨r, hr, hunits⟩ := hplain.evaluate_units ⟨fun _ => "", fun _ => ""⟩ (by decide) hocc
    hwindow (by decide) (m := 0) fun i _ => iff_of_true
      (netting_isNone.2 fun g hg _ _ => nettingRank_weekly hg) (Nat.zero_le i)
  obtain ⟨r', hr', hunits'⟩ := hwithdrawn.evaluate_units ⟨fun _ => "", fun _ => ""⟩ (by decide)
    (forall_mem_cons.2 ⟨by decide, hocc⟩) hwindow (by decide) (m := 1) fun i _ => by
      rw [netting_isNone]
      constructor
      · intro h
        by_contra hi
        obtain rfl : i = 0 := by omega
        exact absurd (h _ (.head _) rfl (by decide)) (by decide)
      · intro hi g hg hid
        rcases mem_cons.1 hg with rfl | hg
        · obtain rfl : i = 0 := hid.symm
          exact absurd hi (by decide)
        · exact fun _ => nettingRank_weekly hg
  exact ⟨⟨r, r', hr, hr', hunits, hunits'⟩, by decide +kernel, by decide +kernel⟩

/-- Withdrawing the one submission of a week. -/
theorem trust_follows_evidence_withdrawn :
    ∃ r', evaluate ⟨fun _ => "", fun _ => ""⟩ fullWeekPolicy
        (weekly 1 ++ [plainFact .submissionWithdrawn .withdrawn 0 0]) (weekStart 1) = some r' ∧
      r'.units ≤ 65535 ∧ r'.tier ≤ 0 := by
  obtain ⟨r, hr, hbefore⟩ := (Option.any_eq_true _ _).1 (by decide +kernel :
    (evaluate ⟨fun _ => "", fun _ => ""⟩ fullWeekPolicy (weekly 1 ++ []) (weekStart 1)).any
      fun r => r.units = 65535 ∧ r.tier = 0)
  obtain ⟨hunits, htier⟩ := of_decide_eq_true hbefore
  have hfits : Fits fullWeekPolicy (weekly 1 ++ []) (weekStart 1) := by
    refine ⟨by decide, fun start hstart => ?_⟩
    have hwindow : windowStart fullWeekPolicy (weekStart 1) =
      some (-49999395200 * nanosPerSecond) := by decide
    obtain rfl := Option.some.inj (hstart.symm.trans hwindow)
    decide +kernel
  obtain ⟨r', hr', hle, -, -, -, htier', -⟩ :=
    (trust_follows_evidence ⟨fun _ => "", fun _ => ""⟩ fullWeekPolicy (weekStart 1)).1 (weekly 1) []
      (plainFact .submissionWithdrawn .withdrawn 0 0) r (by decide) hfits hr nofun
  exact ⟨r', hr', hunits ▸ hle, htier ▸ htier'⟩

end TraceCommons.Trust
