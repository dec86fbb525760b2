import TraceCommons.Trust.RuleLimits

/-! # What the weekly cap leaves

Every accepted submission that counts earns one unit, or the policy's weight if it is attested. The
cap splits what a week has earned into the units the tier reads and the units it reports as capped.
The split loses nothing exactly when no `u32` on the way runs over: the parser bounds the product
of the weight and the cap, which bounds neither the weight of a week nor a sum over the weeks. -/

namespace TraceCommons.Trust

open List

/-- Whether an accepted submission counts: it is in the window, after every penalty, not netted
out, and its gate or its attestation qualifies. -/
def Counted (p : GrowthPolicy) (facts : List EvaluationFact) (start : DateTime)
    (e : Uuid × DateTime) : Prop :=
  start < e.2 ∧ (∀ g ∈ facts, g.isPenalty → g.occurredAt < e.2) ∧ netting facts e.1 e.2 = none ∧
    (isGated p facts e.1 ∨ p.requireGatePass = false ∧ isAttested facts e.1)

instance (p : GrowthPolicy) (facts : List EvaluationFact) (start : DateTime)
    (e : Uuid × DateTime) : Decidable (Counted p facts start e) :=
  inferInstanceAs (Decidable (_ ∧ _))

/-- What the accepted submissions have earned, before any cap. -/
def earned (p : GrowthPolicy) (facts : List EvaluationFact) (start : DateTime) : Nat :=
  ((acceptedAt p facts).entries.map fun e =>
    if Counted p facts start e then if isAttested facts e.1 then p.weight else 1 else 0).sum

/-- What the cap takes from all weeks, before it is put in a `u32`. -/
def cappedTotal (p : GrowthPolicy) (perWeek : OrdMap Int (Nat × Nat)) : Nat :=
  (perWeek.entries.map fun e => weighted p e.2 - p.weeklyCap).sum

/-- No week saturates and neither sum over the weeks wraps. -/
structure Exact (p : GrowthPolicy) (perWeek : OrdMap Int (Nat × Nat)) : Prop where
  week : ∀ e ∈ perWeek.entries, weightOf p e.2 < 2 ^ 32
  units : unitsTotal p perWeek < 2 ^ 32
  capped : cappedTotal p perWeek < 2 ^ 32

/-! ## The weeks hold what was earned -/

def Standing.weight (p : GrowthPolicy) : Standing → Nat
  | .unit attested => if attested then p.weight else 1
  | _ => 0

variable (p : GrowthPolicy)

theorem weight_standing (facts : List EvaluationFact) (start : DateTime)
    (e : Uuid × DateTime) : (standing p facts start e.1 e.2).weight p =
      if Counted p facts start e then if isAttested facts e.1 then p.weight else 1 else 0 := by
  have hunit := fun attested => @standing_eq_unit p facts start e.2 e.1 attested
  split
  next hc =>
    rw [(hunit _).2 ⟨⟨hc.1, hc.2.1⟩, hc.2.2.1, hc.2.2.2, rfl⟩]
    rfl
  next hc =>
    cases hst : standing p _ _ e.1 e.2 with
    | skipped => rfl
    | netted rank => rfl
    | unit attested =>
      obtain ⟨⟨hin, hpenalty⟩, hnet, hqualified, -⟩ := (hunit _).1 hst
      exact absurd ⟨hin, hpenalty, hnet, hqualified⟩ hc

theorem weightOf_cons (st : Uuid × DateTime → Standing) (e : Uuid × DateTime)
    (entries : List (Uuid × DateTime)) (w : Int) :
    weightOf p (unitsIn st (e :: entries) false w, unitsIn st (e :: entries) true w) =
      weightOf p (unitsIn st entries false w, unitsIn st entries true w) +
        if weekOf e = w then (st e).weight p else 0 := by
  by_cases hw : weekOf e = w
  · cases hst : st e with
    | skipped | netted => simp [unitsIn, hst, Standing.weight]
    | unit attested =>
      simp only [unitsIn, countP_cons, hw, hst, Standing.weight, weightOf]
      cases attested with
      | false =>
        simp only [and_self, decide_true, Standing.unit.injEq, Bool.false_eq_true,
          and_false, decide_false, if_false, Nat.add_zero]
        omega
      | true =>
        simp only [and_self, decide_true, if_true, Standing.unit.injEq, Bool.true_eq_false,
          and_false, decide_false, Bool.false_eq_true, if_false, Nat.add_mul]
        omega
  · simp [unitsIn, hw]

theorem sum_weightOf (st : Uuid × DateTime → Standing) {weeks : Finset Int}
    {entries : List (Uuid × DateTime)} (h : ∀ e ∈ entries, weekOf e ∈ weeks) :
    ∑ w ∈ weeks, weightOf p (unitsIn st entries false w, unitsIn st entries true w) =
      (entries.map fun e => (st e).weight p).sum := by
  induction entries with
  | nil => simp [unitsIn, weightOf]
  | cons e entries ih =>
    obtain ⟨he, hrest⟩ := forall_mem_cons.1 h
    simp only [weightOf_cons, Finset.sum_add_distrib, ih hrest, Finset.sum_ite_eq, he]
    exact Nat.add_comm _ _

/-- The weeks of the tally weigh what the submissions have earned. -/
theorem sum_weeks_tally (facts : List EvaluationFact) (start : DateTime)
    (hlen : facts.length < 2 ^ 32) :
    ((tally p facts start).perWeek.entries.map fun e => weightOf p e.2).sum =
      earned p facts start := by
  let st := fun e : Uuid × DateTime => standing p facts start e.1 e.2
  let weeks := ((tally p facts start).perWeek.entries.map Prod.fst).toFinset ∪
    ((acceptedAt p facts).entries.map weekOf).toFinset
  have hkeys : ∀ w, ((tally p facts start).perWeek.get? w).isSome → w ∈ weeks := by
    intro w hw
    obtain ⟨c, hc⟩ := Option.isSome_iff_exists.1 hw
    refine Finset.mem_union_left _ (mem_toFinset.2 (mem_map.2 ⟨(w, c), ?_, rfl⟩))
    exact OrdMap.mem_entries.2 hc
  have haccepted : ∀ e ∈ (acceptedAt p facts).entries, weekOf e ∈ weeks := fun e he =>
    Finset.mem_union_right _ (mem_toFinset.2 (mem_map_of_mem he))
  calc ((tally p facts start).perWeek.entries.map fun e => weightOf p e.2).sum
      = ∑ w ∈ weeks, weightOf p (week (tally p facts start).perWeek w) :=
        sum_weeks _ (by simp [weightOf]) _ hkeys
    _ = ∑ w ∈ weeks, weightOf p (unitsIn st (acceptedAt p facts).entries false w,
          unitsIn st (acceptedAt p facts).entries true w) :=
        Finset.sum_congr rfl fun w _ => by
          rw [week_tally p _ _ w ((entries_length_le p _).trans_lt hlen)]
    _ = ((acceptedAt p facts).entries.map fun e => (st e).weight p).sum :=
        sum_weightOf p st haccepted
    _ = earned p facts start :=
        congrArg sum (map_congr_left fun e _ => weight_standing p _ _ e)

/-! ## The cap splits them -/

section Split

variable {p} {m : OrdMap Int (Nat × Nat)}

theorem unitsTotal_add_cappedTotal :
    unitsTotal p m + cappedTotal p m = (m.entries.map fun e => weighted p e.2).sum := by
  rw [unitsTotal, cappedTotal, ← sum_map_add]
  refine congrArg sum (map_congr_left fun e _ => ?_)
  omega

theorem weighted_le (week : Nat × Nat) : weighted p week ≤ weightOf p week := by
  unfold weighted weightOf
  omega

theorem weighted_eq_iff (week : Nat × Nat) :
    weighted p week = weightOf p week ↔ weightOf p week < 2 ^ 32 := by
  unfold weighted weightOf
  omega

theorem sum_weighted_le :
    (m.entries.map fun e => weighted p e.2).sum ≤ (m.entries.map fun e => weightOf p e.2).sum :=
  sum_le_sum fun e _ => weighted_le e.2

theorem sum_weighted_eq_iff :
    (m.entries.map fun e => weighted p e.2).sum = (m.entries.map fun e => weightOf p e.2).sum ↔
      ∀ e ∈ m.entries, weightOf p e.2 < 2 ^ 32 := by
  constructor
  · intro h e he
    by_contra hover
    have hne := mt (weighted_eq_iff (p := p) e.2).1 hover
    refine absurd h (Nat.ne_of_lt (sum_lt_sum _ _ (fun e _ => weighted_le e.2) ⟨e, he, ?_⟩))
    exact Nat.lt_of_le_of_ne (weighted_le e.2) hne
  · intro h
    exact congrArg sum (map_congr_left fun e he => (weighted_eq_iff e.2).2 (h e he))

theorem unitsTotal_le_mul : unitsTotal p m ≤ p.weeklyCap * weeksTotal p m := by
  rw [weeksTotal_eq_sum, ← sum_map_mul_left]
  refine sum_le_sum fun e _ => ?_
  split
  next => rw [Nat.mul_one]; exact Nat.min_le_right _ _
  next h => omega

/-- The two `u32` sums add up to what was earned exactly if nothing runs over. -/
theorem split_eq_iff :
    unitsTotal p m % 2 ^ 32 + unitsCapped p m = (m.entries.map fun e => weightOf p e.2).sum ↔
      Exact p m := by
  have hsum := unitsTotal_add_cappedTotal (p := p) (m := m)
  have hle := sum_weighted_le (p := p) (m := m)
  have hcapped : unitsCapped p m = cappedTotal p m % 2 ^ 32 := rfl
  constructor
  · intro h
    refine ⟨sum_weighted_eq_iff.1 (by omega), ?_, ?_⟩
    · omega
    · omega
  · intro h
    rw [hcapped, Nat.mod_eq_of_lt h.units, Nat.mod_eq_of_lt h.capped, hsum]
    exact sum_weighted_eq_iff.2 h.week

end Split

/-- A submission starts at most one week. -/
theorem length_perWeek_le (facts : List EvaluationFact) (start : DateTime) :
    (tally p facts start).perWeek.entries.length ≤ (acceptedAt p facts).entries.length := by
  have hadd : ∀ (t : Tally) (e : Uuid × DateTime) (s : Standing),
      (t.add e.2 s).perWeek.entries.length ≤ t.perWeek.entries.length + 1 := by
    intro t e s
    unfold Tally.add
    split <;> first | exact Nat.le_succ _ | exact OrdMap.length_upsertEntries_le _ _ _
  suffices ∀ (entries : List (Uuid × DateTime)) (t : Tally),
      (entries.foldl _ t).perWeek.entries.length
        ≤ t.perWeek.entries.length + entries.length by
    simpa [tally] using this _ {}
  intro entries
  induction entries with
  | nil => exact fun _ => Nat.le_refl _
  | cons e entries ih =>
    intro t
    have hstep := hadd t e (standing p facts start e.1 e.2)
    have hrest := ih (t.add e.2 (standing p facts start e.1 e.2))
    rw [foldl_cons, length_cons]
    omega

/-- The weekly cap loses no unit exactly if no week's weight and neither sum over the weeks leaves a
`u32`; the units stay within the cap of the active weeks in any case, and the attested ones within
the units as long as these fit. -/
theorem weekly_cap_accounting (d : Digests) (p : GrowthPolicy) (facts : List EvaluationFact)
    (asOf : DateTime) (r : Evaluation) (hlen : facts.length < 2 ^ 31)
    (h : evaluate d p facts asOf = some r) :
    ∃ start, windowStart p asOf = some start ∧
      (r.units + r.unitsCapped = earned p (occurred facts asOf) start ↔
        Exact p (tally p (occurred facts asOf) start).perWeek) ∧
      r.units ≤ p.weeklyCap * r.activeWeeks ∧
      (unitsTotal p (tally p (occurred facts asOf) start).perWeek < 2 ^ 32 →
        r.attestedUnits ≤ r.units) := by
  obtain ⟨_, start, -, hstart, rfl⟩ := evaluateFacts_eq_some.1 h
  have hoccurred : (occurred facts asOf).length < 2 ^ 32 :=
    ((length_filter_le _ _).trans_lt hlen).trans (by decide)
  have hweeks : weeksTotal p (tally p (occurred facts asOf) start).perWeek < 2 ^ 32 :=
    calc weeksTotal p (tally p (occurred facts asOf) start).perWeek
        ≤ (tally p (occurred facts asOf) start).perWeek.entries.length := length_filter_le _ _
      _ ≤ (acceptedAt p (occurred facts asOf)).entries.length := length_perWeek_le _ _ _
      _ ≤ (occurred facts asOf).length := entries_length_le _ _
      _ < 2 ^ 32 := hoccurred
  refine ⟨start, hstart, ?_, ?_, fun hfits => ?_⟩
  · rw [← sum_weeks_tally p _ _ hoccurred]
    exact split_eq_iff
  · simp only [report, Nat.mod_eq_of_lt hweeks]
    exact (Nat.mod_le _ _).trans unitsTotal_le_mul
  · simp only [report, Nat.mod_eq_of_lt hfits]
    exact (Nat.mod_le _ _).trans attestedTotal_le

/-- A policy whose attested units weigh half the range of a `u32` and whose cap is one unit. -/
def heavyPolicy : GrowthPolicy :=
  { fullWeekPolicy with
    weeklyCap := 1
    attestedUnitWeight := some (2 ^ 31)
    accepted := by decide +kernel }

def crowded : List EvaluationFact :=
  (List.range 3).flatMap fun i =>
    [plainFact .acceptedSubmission .accepted i (weekStart 0),
      plainFact .attestedSubmission .attestedProviderTee i (weekStart 0)]

/-- Three attested submissions earn `3 * 2 ^ 31` units: in one week they saturate it, and over three
weeks the capped units wrap. -/
theorem weekly_cap_loses_units :
    (∃ r start, evaluate ⟨fun _ => "", fun _ => ""⟩ heavyPolicy crowded (weekStart 3) = some r ∧
      windowStart heavyPolicy (weekStart 3) = some start ∧
      earned heavyPolicy (occurred crowded (weekStart 3)) start = 6442450944 ∧
      r.units + r.unitsCapped = 4294967295) ∧
    ∃ r start, evaluate ⟨fun _ => "", fun _ => ""⟩ heavyPolicy (weekly 3) (weekStart 3) = some r ∧
      windowStart heavyPolicy (weekStart 3) = some start ∧
      earned heavyPolicy (occurred (weekly 3) (weekStart 3)) start = 6442450944 ∧
      r.units + r.unitsCapped = 2147483648 := by
  have hwindow : windowStart heavyPolicy (weekStart 3) =
      some (weekStart 3 - 50000000000 * nanosPerSecond) := by decide
  have hrun : ∀ facts n, (evaluate ⟨fun _ => "", fun _ => ""⟩ heavyPolicy facts (weekStart 3)).any
      (fun r => r.units + r.unitsCapped = n) = true →
      earned heavyPolicy (occurred facts (weekStart 3))
        (weekStart 3 - 50000000000 * nanosPerSecond) = 6442450944 →
      ∃ r start, evaluate ⟨fun _ => "", fun _ => ""⟩ heavyPolicy facts (weekStart 3) = some r ∧
        windowStart heavyPolicy (weekStart 3) = some start ∧
        earned heavyPolicy (occurred facts (weekStart 3)) start = 6442450944 ∧
        r.units + r.unitsCapped = n := by
    intro facts n hany hearned
    obtain ⟨r, hr, hn⟩ := (Option.any_eq_true _ _).1 hany
    exact ⟨r, _, hr, hwindow, hearned, of_decide_eq_true hn⟩
  exact ⟨hrun crowded _ (by decide +kernel) (by decide +kernel),
    hrun (weekly 3) _ (by decide +kernel) (by decide +kernel)⟩

/-- One attested submission, of which the cap leaves 65535 units. -/
theorem weekly_cap_accounting_weekly : ∃ r start,
    evaluate ⟨fun _ => "", fun _ => ""⟩ fullWeekPolicy (weekly 1) (weekStart 1) = some r ∧
    (r.units + r.unitsCapped = earned fullWeekPolicy (occurred (weekly 1) (weekStart 1)) start ↔
      Exact fullWeekPolicy
        (tally fullWeekPolicy (occurred (weekly 1) (weekStart 1)) start).perWeek) ∧
    r.units = 65535 ∧ r.unitsCapped = 2 := by
  obtain ⟨r, hr, hunits⟩ := (Option.any_eq_true _ _).1 (by decide +kernel :
    (evaluate ⟨fun _ => "", fun _ => ""⟩ fullWeekPolicy (weekly 1) (weekStart 1)).any
      fun r => r.units = 65535 ∧ r.unitsCapped = 2)
  obtain ⟨start, -, hexact, -⟩ := weekly_cap_accounting _ _ _ _ r (by decide) hr
  exact ⟨r, start, hr, hexact, of_decide_eq_true hunits⟩

end TraceCommons.Trust
