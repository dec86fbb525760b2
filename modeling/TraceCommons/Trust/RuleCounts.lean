import TraceCommons.Trust.Rule

/-! # The counters of the trust rule

The loop over the accepted submissions leaves, for each week, the number of its plain and of its
attested units. What the tier reads is monotone in the weight of every week and in its attested
units. -/

namespace TraceCommons.Trust

open List

variable (p : GrowthPolicy)

theorem GrowthPolicy.checks : 0 < p.weeklyCap ∧ 0 < p.weight ∧ p.weight * p.weeklyCap < 2 ^ 32 ∧
      RawGrowth.tiersRise p.tiers ∧ p.firstOk ∧
      p.base.boundedAllowance * p.topMultiplier < 2 ^ 63 := by
  have h := p.accepted
  simp only [RawGrowth.accepts, decide_eq_true_eq] at h
  obtain ⟨-, hcap, hweight, hfits, -, -, -, -, -, -, -, -, -, -, hfirst, -, hrise, htop⟩ := h
  exact ⟨hcap, hweight, hfits, hrise, hfirst, htop⟩

theorem GrowthPolicy.weeklyCap_lt : p.weeklyCap < 2 ^ 32 := by
  obtain ⟨-, hweight, hfits, -⟩ := p.checks
  exact lt_of_le_of_lt (Nat.le_mul_of_pos_left _ hweight) hfits

/-! ## Weeks -/

/-- The exact weight of a week's counters. -/
def weightOf (p : GrowthPolicy) (week : Nat × Nat) : Nat := week.1 + week.2 * p.weight

theorem min_weighted (week : Nat × Nat) :
    min (weighted p week) p.weeklyCap = min (weightOf p week) p.weeklyCap := by
  have := p.weeklyCap_lt
  unfold weighted weightOf
  omega

theorem weighted_pos (week : Nat × Nat) : 0 < weighted p week ↔ 0 < weightOf p week := by
  unfold weighted weightOf
  omega

/-- The counters of a week, zero if it has none. -/
def week (perWeek : OrdMap Int (Nat × Nat)) (w : Int) : Nat × Nat := (perWeek.get? w).getD (0, 0)

/-- A sum over the weeks whose term is zero for an empty week. -/
theorem sum_weeks (perWeek : OrdMap Int (Nat × Nat)) {g : Nat × Nat → Nat} (hg : g (0, 0) = 0)
    (weeks : Finset Int) (h : ∀ w, (perWeek.get? w).isSome → w ∈ weeks) :
    (perWeek.entries.map fun e => g e.2).sum = ∑ w ∈ weeks, g (week perWeek w) := by
  rw [perWeek.sum_entries g h]
  refine Finset.sum_congr rfl fun w _ => ?_
  cases hw : perWeek.get? w with
  | none => simp [week, hw, hg]
  | some c => simp [week, hw]

theorem weeksTotal_eq_sum (perWeek : OrdMap Int (Nat × Nat)) : weeksTotal p perWeek =
      (perWeek.entries.map fun e => if 0 < weighted p e.2 then 1 else 0).sum := by
  unfold weeksTotal
  induction perWeek.entries with
  | nil => rfl
  | cons e l ih =>
    rw [map_cons, sum_cons, ← ih]
    by_cases he : 0 < weighted p e.2
    · simp [he, Nat.add_comm]
    · simp [he]

section Totals

variable {p} {m m' : OrdMap Int (Nat × Nat)}

/-- A total over the weeks is monotone if its term for each week is. -/
theorem sum_weeks_mono {g : Nat × Nat → Nat} (hg : g (0, 0) = 0)
    (h : ∀ w, g (week m w) ≤ g (week m' w)) :
    (m.entries.map fun e => g e.2).sum ≤ (m'.entries.map fun e => g e.2).sum := by
  let weeks := (m.entries.map Prod.fst).toFinset ∪ (m'.entries.map Prod.fst).toFinset
  have hmem : ∀ (n : OrdMap Int (Nat × Nat)) w, (n.get? w).isSome →
      w ∈ (n.entries.map Prod.fst).toFinset := by
    intro n w hw
    obtain ⟨c, hc⟩ := Option.isSome_iff_exists.1 hw
    exact mem_toFinset.2 (mem_map.2 ⟨(w, c), OrdMap.mem_entries.2 hc, rfl⟩)
  rw [sum_weeks m hg _ fun w hw => Finset.mem_union_left _ (hmem m w hw),
    sum_weeks m' hg _ fun w hw => Finset.mem_union_right _ (hmem m' w hw)]
  exact Finset.sum_le_sum fun w _ => h w

theorem unitsTotal_mono (h : ∀ w, weightOf p (week m w) ≤ weightOf p (week m' w)) :
    unitsTotal p m ≤ unitsTotal p m' := by
  refine sum_weeks_mono (g := fun c => min _ _) (by simp [weighted]) ?_
  intro w
  have := h w
  simp only [min_weighted]
  omega

theorem attestedTotal_mono (h : ∀ w, (week m w).2 ≤ (week m' w).2) :
    attestedTotal p m ≤ attestedTotal p m' := by
  refine sum_weeks_mono (g := fun c => min c.2 _) (by simp) ?_
  intro w
  have := h w
  omega

theorem weeksTotal_mono (h : ∀ w, weightOf p (week m w) ≤ weightOf p (week m' w)) :
    weeksTotal p m ≤ weeksTotal p m' := by
  rw [weeksTotal_eq_sum, weeksTotal_eq_sum]
  refine sum_weeks_mono (g := fun c => if 0 < weighted p c then 1 else 0) (by simp [weighted]) ?_
  intro w
  have := h w
  simp only [weighted_pos]
  split
  next hpos => rw [if_pos (hpos.trans_le this)]
  · exact Nat.zero_le _

theorem attestedTotal_le : attestedTotal p m ≤ unitsTotal p m := by
  refine sum_le_sum fun e _ => ?_
  obtain ⟨-, hweight, -⟩ := p.checks
  have := Nat.le_mul_of_pos_right e.2.2 hweight
  rw [min_weighted, weightOf]
  omega

theorem weeksTotal_le : weeksTotal p m ≤ unitsTotal p m := by
  rw [weeksTotal_eq_sum]
  refine sum_le_sum fun e _ => ?_
  obtain ⟨_, -⟩ := p.checks
  split
  · omega
  · exact Nat.zero_le _

end Totals

/-! ## The loop -/

def weekOf (e : Uuid × DateTime) : Int := epochIndex (timestamp e.2)

/-- The units of a kind that fall in a week. -/
def unitsIn (st : Uuid × DateTime → Standing) (entries : List (Uuid × DateTime)) (attested : Bool)
    (w : Int) : Nat :=
  entries.countP fun e => weekOf e = w ∧ st e = .unit attested

/-- A pair of counters as `u32`. -/
def wrap (c : Nat × Nat) : Nat × Nat := (c.1 % 2 ^ 32, c.2 % 2 ^ 32)

theorem countUnit_wrap (attested : Bool) (c : Nat × Nat) :
    countUnit attested (wrap c) = wrap (if attested then (c.1, c.2 + 1) else (c.1 + 1, c.2)) := by
  cases attested <;> simp only [countUnit, wrap, Nat.mod_add_mod, if_true, Bool.false_eq_true,
    if_false]

theorem week_add {t : Tally} {e : Uuid × DateTime} {s : Standing} {w : Int} {c : Nat × Nat}
    (h : week t.perWeek w = wrap c) :
    week (t.add e.2 s).perWeek w =
      wrap (c.1 + (if weekOf e = w ∧ s = .unit false then 1 else 0),
        c.2 + if weekOf e = w ∧ s = .unit true then 1 else 0) := by
  cases s with
  | skipped => simpa [Tally.add] using h
  | netted rank =>
    have hkept : (t.add e.2 (.netted rank)).perWeek = t.perWeek := by
      unfold Tally.add
      split <;> first | rfl | contradiction
    rw [hkept]
    simpa using h
  | unit attested =>
    by_cases hw : weekOf e = w
    · have hnew : week (t.add e.2 (.unit attested)).perWeek w =
          countUnit attested (week t.perWeek w) := by
        rw [← hw]
        simp [Tally.add, week, weekOf]
      rw [hnew, h, countUnit_wrap]
      cases attested with
      | false => simp [hw]
      | true => simp [hw]
    · have hold : week (t.add e.2 (.unit attested)).perWeek w = week t.perWeek w := by
        have hne : w ≠ epochIndex (timestamp e.2) := Ne.symm hw
        simp [Tally.add, week, if_neg hne]
      rw [hold]
      simpa [hw] using h

theorem week_foldl (st : Uuid × DateTime → Standing) (entries : List (Uuid × DateTime)) (w : Int)
    {t : Tally} {c : Nat × Nat} (h : week t.perWeek w = wrap c) :
    week (entries.foldl (fun t e => t.add e.2 (st e)) t).perWeek w =
      wrap (c.1 + unitsIn st entries false w, c.2 + unitsIn st entries true w) := by
  induction entries generalizing t c with
  | nil => exact h
  | cons e entries ih =>
    rw [foldl_cons, ih (week_add h)]
    simp only [unitsIn, countP_cons, decide_eq_true_eq]
    refine congrArg _ (Prod.ext ?_ ?_)
    · omega
    · omega

theorem entries_length_le (facts : List EvaluationFact) :
    (acceptedAt p facts).entries.length ≤ facts.length :=
  (OrdMap.length_foldl_insertMin_le _ _ _).trans (length_filter_le _ _)

/-- The counters after the loop are the units of the week, as long as a `u32` counts the accepted
submissions. -/
theorem week_tally (facts : List EvaluationFact) (start : DateTime) (w : Int)
    (hentries : (acceptedAt p facts).entries.length < 2 ^ 32) :
    week (tally p facts start).perWeek w =
      (unitsIn (fun e => standing p facts start e.1 e.2) (acceptedAt p facts).entries false w,
        unitsIn (fun e => standing p facts start e.1 e.2) (acceptedAt p facts).entries true w) := by
  have hcount : ∀ attested, unitsIn (fun e => standing p facts start e.1 e.2)
      (acceptedAt p facts).entries attested w < 2 ^ 32 := fun attested =>
    lt_of_le_of_lt countP_le_length hentries
  have hempty : week (OrdMap.mk [] (by simp)) w = wrap (0, 0) := rfl
  rw [tally, week_foldl _ _ w hempty, wrap, Nat.zero_add,
    Nat.zero_add, Nat.mod_eq_of_lt (hcount _), Nat.mod_eq_of_lt (hcount _)]

/-! ## The tier -/

theorem reachedTier_mono {p : GrowthPolicy} {units units' weeks weeks' attested attested' : Nat}
    {age age' : Int} (hu : units ≤ units') (hw : weeks ≤ weeks') (ha : age ≤ age')
    (ht : attested ≤ attested') :
    reachedTier p units weeks age attested ≤ reachedTier p units' weeks' age' attested' := by
  unfold reachedTier
  cases hmax : (map (·.2) (p.tiers.zipIdx.filter fun row => row.1.units ≤ units ∧
      row.1.activeWeeks ≤ weeks ∧ row.1.ageSeconds ≤ age ∧
      row.1.attestedUnits ≤ attested)).max? with
  | none => exact Nat.zero_le _
  | some tier =>
    obtain ⟨hmem, -⟩ := max?_eq_some_iff.1 hmax
    obtain ⟨row, hrow, rfl⟩ := mem_map.1 hmem
    obtain ⟨hrow, hreached⟩ := mem_filter.1 hrow
    have hreached := of_decide_eq_true hreached
    have hmem' : row.2 ∈ map (·.2) (p.tiers.zipIdx.filter fun row => row.1.units ≤ units' ∧
        row.1.activeWeeks ≤ weeks' ∧ row.1.ageSeconds ≤ age' ∧
        row.1.attestedUnits ≤ attested') := by
      refine mem_map.2 ⟨row, mem_filter.2 ⟨hrow, decide_eq_true ?_⟩, rfl⟩
      exact ⟨hreached.1.trans hu, hreached.2.1.trans hw, hreached.2.2.1.trans ha,
        hreached.2.2.2.trans ht⟩
    obtain ⟨_, htier'⟩ := Option.isSome_iff_exists.1 (isSome_max?_of_mem hmem')
    rw [htier']
    exact (max?_eq_some_iff.1 htier').2 _ hmem'

theorem reachedTier_lt (units weeks : Nat) (age : Int) (attested : Nat) :
    reachedTier p units weeks age attested < p.tiers.length := by
  obtain ⟨-, -, -, -, hfirst, -⟩ := p.checks
  have hpos : 0 < p.tiers.length := by
    cases htiers : p.tiers with
    | nil => simp [RawGrowth.firstOk, htiers] at hfirst
    | cons t l => exact Nat.succ_pos _
  unfold reachedTier
  cases hmax : (map (·.2) (p.tiers.zipIdx.filter fun row => row.1.units ≤ units ∧
      row.1.activeWeeks ≤ weeks ∧ row.1.ageSeconds ≤ age ∧
      row.1.attestedUnits ≤ attested)).max? with
  | none => exact hpos
  | some tier =>
    obtain ⟨hmem, -⟩ := max?_eq_some_iff.1 hmax
    obtain ⟨_, hrow, rfl⟩ := mem_map.1 hmem
    have := snd_lt_of_mem_zipIdx (mem_filter.1 hrow).1
    simpa using this

theorem multiplier_pairwise {tiers : List GrowthTier} (h : RawGrowth.tiersRise tiers) :
    tiers.Pairwise fun lower upper => lower.multiplier ≤ upper.multiplier := by
  rw [← isChain_iff_pairwise]
  induction tiers with
  | nil => exact .nil
  | cons lower tiers ih =>
    cases tiers with
    | nil => exact .singleton _
    | cons upper rest =>
      simp only [RawGrowth.tiersRise, Bool.and_eq_true, GrowthTier.below, decide_eq_true_eq] at h
      exact .cons_cons h.1.2.2.2.1 (ih h.2)

theorem effectiveAllowance_mono {tier tier' : Nat} (h : tier ≤ tier')
    (hlt : tier' < p.tiers.length) : p.effectiveAllowance tier ≤ p.effectiveAllowance tier' := by
  obtain ⟨-, -, -, hrise, -⟩ := p.checks
  have hmul : p.tiers[tier].multiplier ≤ p.tiers[tier'].multiplier := by
    rcases Nat.eq_or_lt_of_le h with rfl | hlt'
    · exact le_refl _
    · exact pairwise_iff_getElem.1 (multiplier_pairwise hrise) _ _ _ _ hlt'
  have hprod := Int.mul_le_mul_of_nonneg_left hmul (Int.natCast_nonneg p.base.boundedAllowance)
  unfold GrowthPolicy.effectiveAllowance saturatingMul
  rw [getElem?_eq_getElem hlt, getElem?_eq_getElem (h.trans_lt hlt)]
  simp only [Option.map_some, Option.getD_some]
  omega

/-! ## Reports -/

/-- What a report never raises when it is at most another. -/
structure Evaluation.AtMost (r' r : Evaluation) : Prop where
  units : r'.units ≤ r.units
  attestedUnits : r'.attestedUnits ≤ r.attestedUnits
  activeWeeks : r'.activeWeeks ≤ r.activeWeeks
  tier : r'.tier ≤ r.tier
  effectiveAllowance : r'.effectiveAllowance ≤ r.effectiveAllowance

/-- Reports compare as the weeks, the ages and the penalties do, if the larger count of units is
exact. -/
theorem report_mono {d : Digests} {p : GrowthPolicy} {facts facts' : List EvaluationFact}
    {asOf start : DateTime} {penalty penalty' : Bool}
    (hweight : ∀ w, weightOf p (week (tally p facts' start).perWeek w) ≤
      weightOf p (week (tally p facts start).perWeek w))
    (hattested : ∀ w, (week (tally p facts' start).perWeek w).2 ≤
      (week (tally p facts start).perWeek w).2)
    (hfits : unitsTotal p (tally p facts start).perWeek < 2 ^ 32)
    (hpenalty : penalty = true → penalty' = true)
    (hage : ageSeconds p facts' asOf ≤ ageSeconds p facts asOf) :
    (report d p facts' asOf penalty' start).AtMost (report d p facts asOf penalty start) := by
  have hu := unitsTotal_mono hweight
  have ha := attestedTotal_mono (p := p) hattested
  have hw := weeksTotal_mono hweight
  have ha' := attestedTotal_le (p := p) (m := (tally p facts start).perWeek)
  have hw' := weeksTotal_le (p := p) (m := (tally p facts start).perWeek)
  have hmod : ∀ {a b : Nat}, a ≤ b → b < 2 ^ 32 → a % 2 ^ 32 ≤ b % 2 ^ 32 := by
    intro a b hab hb
    rwa [Nat.mod_eq_of_lt hb, Nat.mod_eq_of_lt (hab.trans_lt hb)]
  have hunits := hmod hu hfits
  have hatt := hmod ha (ha'.trans_lt hfits)
  have hweeks := hmod hw (hw'.trans_lt hfits)
  have htier : (report d p facts' asOf penalty' start).tier ≤
      (report d p facts asOf penalty start).tier := by
    cases hp : penalty' with
    | true => exact Nat.zero_le _
    | false =>
      have : penalty = false := by
        cases penalty with
        | false => rfl
        | true => exact absurd (hpenalty rfl) (by simp [hp])
      rw [this]
      exact reachedTier_mono hunits hweeks hage hatt
  refine ⟨hunits, hatt, hweeks, htier, effectiveAllowance_mono p htier ?_⟩
  split
  · exact lt_of_le_of_lt (Nat.zero_le _) (reachedTier_lt p 0 0 0 0)
  · exact reachedTier_lt p _ _ _ _

end TraceCommons.Trust
