import TraceCommons.Insights.GridPoints

/-! # Coverage of a family of intervals

Six shares, two tails each: whatever the joint distribution of the counts, the chance that any
interval of an evaluation misses its parameter is at most a twentieth, as each tail's is at most one
in two hundred and forty. -/

namespace TraceCommons.Insights

open MeasureTheory ProbabilityTheory Binomial Set
open scoped unitInterval

/-! ## One share -/

section Share

variable {n x : ℕ}

/-- The share is in the interval of its count. -/
def CoversShare (n x : ℕ) (q : ℝ) : Prop :=
  ∃ lower upper, exactComponentInterval x n = .ok (lower, upper) ∧
    (lower : ℝ) ≤ exactGrid * q ∧ exactGrid * q ≤ upper

theorem below_eq_one (hx : n < x) (q : ℝ) : below n x q = 1 := by
  have hsum := congrArg (Polynomial.eval q) (bernsteinPolynomial.sum ℝ n)
  rw [Polynomial.eval_one, ← belowPoly, eval_belowPoly] at hsum
  rw [← hsum]
  refine (Finset.sum_subset (Finset.range_subset_range.2 hx) fun k _ hk => ?_).symm
  rw [Finset.mem_range, Nat.not_lt] at hk
  rw [Nat.choose_eq_zero_of_lt hk, Nat.cast_zero, zero_mul, zero_mul]

theorem tail_of_miss (hn : 0 < n) (hn' : n ≤ maxTasks) (p : I) (h : ¬ CoversShare n x p) :
    1 - below n x p ≤ 1 / bonferroniOneSidedDenominator ∨
      below n (x + 1) p ≤ 1 / bonferroniOneSidedDenominator := by
  rcases Nat.lt_or_ge n x with hlarge | hx
  · refine .inl ?_
    rw [below_eq_one hlarge, sub_self]
    exact div_nonneg zero_le_one (Nat.cast_nonneg _)
  · obtain ⟨lower, upper, heq, hends⟩ := exactComponentInterval_ends hn hn' hx
    by_cases hlower : (lower : ℝ) ≤ exactGrid * p
    · refine .inr (hends.upper_miss p.2 (not_le.1 fun hupper => h ?_))
      exact ⟨lower, upper, heq, hlower, hupper⟩
    · exact .inl (hends.lower_miss p.2 (not_le.1 hlower))

/-- To miss a share is as rare as two tails. -/
theorem miss_rare (hn : 0 < n) (hn' : n ≤ maxTasks) (p : I) :
    (binomial n p).real {x | ¬ CoversShare n x p} ≤ 1 / 120 := by
  have hlevel : (0 : ℝ) ≤ 1 / bonferroniOneSidedDenominator :=
    div_nonneg zero_le_one (Nat.cast_nonneg _)
  calc (binomial n p).real {x | ¬ CoversShare n x p}
      ≤ (binomial n p).real ({x | 1 - below n x p ≤ 1 / bonferroniOneSidedDenominator} ∪
          {x | below n (x + 1) p ≤ 1 / bonferroniOneSidedDenominator}) :=
        measureReal_mono fun x hx => tail_of_miss hn hn' p hx
    _ ≤ 1 / bonferroniOneSidedDenominator + 1 / bonferroniOneSidedDenominator :=
        (measureReal_union_le _ _).trans
          (add_le_add (small_upper_tail_rare n p hlevel) (small_lower_tail_rare n p hlevel))
    _ = 1 / 120 := by
        rw [bonferroniOneSidedDenominator]
        norm_num

end Share

/-! ## One evaluation -/

/-- The counts seen in the two cohorts. -/
abbrev Counts := (Fin 3 → ℕ) × (Fin 3 → ℕ)

section Evaluation

variable {n₁ n₂ : ℕ} {q₁ q₂ : Fin 3 → I} {w : Counts}

/-- Every share is in its interval, and every difference in its contrast. -/
def Covers (n₁ n₂ : ℕ) (q₁ q₂ : Fin 3 → I) (w : Counts) : Prop :=
  ∃ first second contrasts,
    evaluateExactCandidateCounts ⟨n₁, w.1⟩ ⟨n₂, w.2⟩ = .ok (.supported first second contrasts) ∧
    ∀ k, ((first k).lowerMillionths ≤ exactGrid * (q₁ k : ℝ) ∧
        exactGrid * (q₁ k : ℝ) ≤ (first k).upperMillionths) ∧
      ((second k).lowerMillionths ≤ exactGrid * (q₂ k : ℝ) ∧
        exactGrid * (q₂ k : ℝ) ≤ (second k).upperMillionths) ∧
      ((contrasts k).lowerMillionths ≤ exactGrid * ((q₂ k : ℝ) - q₁ k) ∧
        exactGrid * ((q₂ k : ℝ) - q₁ k) ≤ (contrasts k).upperMillionths)

/-- Some contrast is decided to exclude zero where there is no difference, or one of the other
sign. -/
def DecidesWrongly (n₁ n₂ : ℕ) (q₁ q₂ : Fin 3 → I) (w : Counts) : Prop :=
  ∃ first second contrasts,
    evaluateExactCandidateCounts ⟨n₁, w.1⟩ ⟨n₂, w.2⟩ = .ok (.supported first second contrasts) ∧
    ∃ k, (contrasts k).decision = .excludesZero ∧
      (q₁ k = q₂ k ∨ (0 < (contrasts k).lowerMillionths ∧ q₂ k < q₁ k) ∨
        ((contrasts k).upperMillionths < 0 ∧ q₁ k < q₂ k))

/-- All six shares are in the intervals of their counts. -/
def CoversShares (n₁ n₂ : ℕ) (q₁ q₂ : Fin 3 → I) (w : Counts) : Prop :=
  ∀ k, CoversShare n₁ (w.1 k) (q₁ k) ∧ CoversShare n₂ (w.2 k) (q₂ k)

theorem checkedSum_eq {outcomes : Fin 3 → ℕ} {n : ℕ} (hsum : ∑ k, outcomes k = n)
    (hn : n ≤ maxTasks) : checkedSum outcomes = some n := by
  have htasks : maxTasks = 256 := rfl
  rw [Fin.sum_univ_three] at hsum
  have ha : checkedAddUsize 0 (outcomes 0) = some (outcomes 0) := by
    rw [checkedAddUsize, Nat.zero_add, if_pos (by omega)]
  have hb : checkedAddUsize (outcomes 0) (outcomes 1) = some (outcomes 0 + outcomes 1) :=
    if_pos (by omega)
  have hc : checkedAddUsize (outcomes 0 + outcomes 1) (outcomes 2) = some n := by
    rw [checkedAddUsize, if_pos (by omega), hsum]
  simp [checkedSum, ha, hb, hc]

/-- The evaluation of counts whose intervals are `first` and `second`. -/
theorem evaluate_eq (h1 : 2 ≤ n₁) (h2 : 2 ≤ n₂) (hmax : n₁ + n₂ ≤ maxTasks)
    (hsum1 : ∑ k, w.1 k = n₁) (hsum2 : ∑ k, w.2 k = n₂) {first second : Fin 3 → ℕ × ℕ}
    (hfirst : ∀ k, exactComponentInterval (w.1 k) n₁ = .ok (first k))
    (hsecond : ∀ k, exactComponentInterval (w.2 k) n₂ = .ok (second k)) :
    evaluateExactCandidateCounts ⟨n₁, w.1⟩ ⟨n₂, w.2⟩ =
      .ok (.supported (fun k => component (first k)) (fun k => component (second k))
        fun k => combineExactCandidateIntervals (first k) (second k)) := by
  have htasks : maxTasks = 256 := rfl
  have htotal : checkedAddUsize n₁ n₂ = some (n₁ + n₂) := if_pos (by omega)
  have hrow : ∀ k, outcomeIntervals ⟨n₁, w.1⟩ ⟨n₂, w.2⟩ k = .ok (first k, second k) := by
    intro k
    simp only [outcomeIntervals, hfirst, hsecond]
    rfl
  have hrows : ![(first 0, second 0), (first 1, second 1), (first 2, second 2)] =
      fun k => (first k, second k) := by
    funext k
    fin_cases k <;> rfl
  unfold evaluateExactCandidateCounts
  rw [if_neg, if_neg (by dsimp only; omega)]
  · simp only [hrow, bind, Except.bind, hrows]
    rfl
  · rw [checkedSum_eq hsum1 (by omega), checkedSum_eq hsum2 (by omega), htotal]
    simp only [ne_eq, not_true, Option.all_some, decide_eq_true_eq, false_or]
    omega

/-- Where all shares are covered, so are the differences, and no decision is wrong. -/
theorem covers_of_shares (h1 : 2 ≤ n₁) (h2 : 2 ≤ n₂) (hmax : n₁ + n₂ ≤ maxTasks)
    (hsum1 : ∑ k, w.1 k = n₁) (hsum2 : ∑ k, w.2 k = n₂) (h : CoversShares n₁ n₂ q₁ q₂ w) :
    Covers n₁ n₂ q₁ q₂ w ∧ ¬ DecidesWrongly n₁ n₂ q₁ q₂ w := by
  choose hshare1 hshare2 using h
  choose l1 u1 hfirst hl1 hu1 using hshare1
  choose l2 u2 hsecond hl2 hu2 using hshare2
  have heval := evaluate_eq h1 h2 hmax hsum1 hsum2 hfirst hsecond
  have hcontrast : ∀ k, (l2 k - u1 k : ℤ) ≤ exactGrid * ((q₂ k : ℝ) - q₁ k) ∧
      exactGrid * ((q₂ k : ℝ) - q₁ k) ≤ (u2 k - l1 k : ℤ) := by
    intro k
    have hlow := sub_le_sub (hl2 k) (hu1 k)
    have hhigh := sub_le_sub (hu2 k) (hl1 k)
    push_cast
    rw [mul_sub]
    exact ⟨hlow, hhigh⟩
  refine ⟨⟨_, _, _, heval, fun k => ⟨⟨hl1 k, hu1 k⟩, ⟨hl2 k, hu2 k⟩, hcontrast k⟩⟩, ?_⟩
  rintro ⟨_, _, _, heq, k, hdecision, hwrong⟩
  rw [heval] at heq
  cases heq
  obtain ⟨hlow, hhigh⟩ := hcontrast k
  have hsign : (u2 k : ℤ) - l1 k < 0 ∨ (0 : ℤ) < l2 k - u1 k := by
    simp only [combineExactCandidateIntervals] at hdecision
    split at hdecision
    · cases hdecision
    split at hdecision
    · cases hdecision
    · split at hdecision
      next hexcludes => exact hexcludes
      · cases hdecision
  have hdiff : ∀ {a b : I}, a < b → 0 < exactGrid * ((b : ℝ) - a) := fun hab =>
    mul_pos exactGrid_pos (sub_pos.2 hab)
  rcases hwrong with hsame | ⟨hpos, hless⟩ | ⟨hneg, hless⟩
  · rw [hsame, sub_self, mul_zero] at hlow hhigh
    rcases hsign with hneg | hpos
    · exact absurd (Int.cast_nonneg_iff.1 hhigh) (not_le.2 hneg)
    · exact absurd (Int.cast_nonpos.1 hlow) (not_le.2 hpos)
  · have hlower : 0 < ((l2 k - u1 k : ℤ) : ℝ) := Int.cast_pos.2 hpos
    have hgap := hdiff hless
    nlinarith
  · have hupper : (((u2 k - l1 k : ℤ)) : ℝ) < 0 := Int.cast_lt_zero.2 hneg
    have hgap := hdiff hless
    linarith

end Evaluation

/-! ## The family -/

section Family

variable {n₁ n₂ : ℕ} {q₁ q₂ : Fin 3 → I} {μ : Measure Counts} [IsProbabilityMeasure μ]

omit [IsProbabilityMeasure μ] in
/-- What is rare for a count by itself is rare for it among the others. -/
theorem marginal_miss_rare {n : ℕ} (hn : 0 < n) (hn' : n ≤ maxTasks) {p : I} {f : Counts → ℕ}
    (hlaw : μ.map f = binomial n p) : μ.real {w | ¬ CoversShare n (f w) p} ≤ 1 / 120 := by
  have hf : Measurable f := Measurable.of_discrete
  have h := miss_rare hn hn' p
  rw [← hlaw, map_measureReal_apply hf MeasurableSet.of_discrete] at h
  exact h

/-- The union bound over the six shares. -/
theorem family_miss_rare (hn1 : 0 < n₁) (hn1' : n₁ ≤ maxTasks) (hn2 : 0 < n₂) (hn2' : n₂ ≤ maxTasks)
    (hlaw1 : ∀ k, μ.map (fun w => w.1 k) = binomial n₁ (q₁ k))
    (hlaw2 : ∀ k, μ.map (fun w => w.2 k) = binomial n₂ (q₂ k)) :
    μ.real {w | ¬ CoversShares n₁ n₂ q₁ q₂ w} ≤ 1 / 20 := by
  have hunion : {w | ¬ CoversShares n₁ n₂ q₁ q₂ w} ⊆
      ⋃ k : Fin 3, ({w : Counts | ¬ CoversShare n₁ (w.1 k) (q₁ k)} ∪
        {w | ¬ CoversShare n₂ (w.2 k) (q₂ k)}) := by
    intro w hw
    obtain ⟨k, hk⟩ := not_forall.1 hw
    exact mem_iUnion.2 ⟨k, not_and_or.1 hk⟩
  calc μ.real {w | ¬ CoversShares n₁ n₂ q₁ q₂ w}
      ≤ ∑ k : Fin 3, μ.real ({w : Counts | ¬ CoversShare n₁ (w.1 k) (q₁ k)} ∪
          {w | ¬ CoversShare n₂ (w.2 k) (q₂ k)}) :=
        (measureReal_mono hunion).trans (measureReal_iUnion_fintype_le _)
    _ ≤ ∑ _k : Fin 3, (1 / 120 + 1 / 120) :=
        Finset.sum_le_sum fun k _ => (measureReal_union_le _ _).trans
          (add_le_add (marginal_miss_rare hn1 hn1' (hlaw1 k))
            (marginal_miss_rare hn2 hn2' (hlaw2 k)))
    _ = 1 / 20 := by
        norm_num

theorem family_coverage (h₁ : 2 ≤ n₁) (h₂ : 2 ≤ n₂) (hmax : n₁ + n₂ ≤ 256)
    (hsum : ∀ᵐ w ∂μ, ∑ k, w.1 k = n₁ ∧ ∑ k, w.2 k = n₂)
    (hlaw₁ : ∀ k, μ.map (fun w => w.1 k) = binomial n₁ (q₁ k))
    (hlaw₂ : ∀ k, μ.map (fun w => w.2 k) = binomial n₂ (q₂ k)) :
    19 / 20 ≤ μ.real {w | Covers n₁ n₂ q₁ q₂ w} ∧
      μ.real {w | DecidesWrongly n₁ n₂ q₁ q₂ w} ≤ 1 / 20 := by
  have htasks : maxTasks = 256 := rfl
  have hmiss := family_miss_rare (by omega) (by omega) (by omega) (by omega) hlaw₁ hlaw₂
  have hgood : ∀ᵐ w ∂μ, CoversShares n₁ n₂ q₁ q₂ w →
      Covers n₁ n₂ q₁ q₂ w ∧ ¬ DecidesWrongly n₁ n₂ q₁ q₂ w := by
    filter_upwards [hsum] with w hw
    exact covers_of_shares h₁ h₂ hmax hw.1 hw.2
  constructor
  · have hshares : 19 / 20 ≤ μ.real {w | CoversShares n₁ n₂ q₁ q₂ w} := by
      have hcompl := probReal_compl_eq_one_sub (μ := μ)
        (s := {w | CoversShares n₁ n₂ q₁ q₂ w}) MeasurableSet.of_discrete
      have hset : {w | CoversShares n₁ n₂ q₁ q₂ w}ᶜ = {w | ¬ CoversShares n₁ n₂ q₁ q₂ w} := rfl
      rw [hset] at hcompl
      linarith
    refine hshares.trans (ENNReal.toReal_mono (measure_ne_top _ _) (measure_mono_ae ?_))
    filter_upwards [hgood] with w hw hshare
    exact (hw hshare).1
  · refine le_trans (ENNReal.toReal_mono (measure_ne_top _ _) (measure_mono_ae ?_)) hmiss
    filter_upwards [hgood] with w hw hwrong hshare
    exact (hw hshare).2 hwrong

end Family

/-- Two trials of each cohort, `j` of them with the first outcome and the rest with the second. -/
def twoTrials (j : ℕ) : Counts := (![min j 2, 2 - j, 0], ![min j 2, 2 - j, 0])

def twoShares (p : I) : Fin 3 → I := ![p, σ p, 0]

theorem binomial_two (p : I) : binomial 2 p = ENNReal.ofReal ((1 - p) ^ 2) • Measure.dirac 0 +
    ENNReal.ofReal (2 * p * (1 - p)) • Measure.dirac 1 +
      ENNReal.ofReal (p ^ 2) • Measure.dirac 2 := by
  have hIic : Finset.Iic 2 = {0, 1, 2} := rfl
  rw [binomial_eq_sum_dirac, hIic]
  simp [add_assoc]

theorem map_twoTrials (p : I) (k : Fin 3) :
    (binomial 2 p).map (fun j => (twoTrials j).1 k) = binomial 2 (twoShares p k) := by
  fin_cases k
  · simp [binomial_two, twoTrials, twoShares, Measure.map_add _ _ Measurable.of_discrete]
  · simp [binomial_two, twoTrials, twoShares, Measure.map_add _ _ Measurable.of_discrete,
      mul_right_comm, add_comm, add_assoc]
  · have hnone : binomial 2 0 = Measure.dirac 0 := by simp [binomial_two]
    simp [twoTrials, twoShares, hnone]

theorem family_coverage_two_shares :
    let p : I := ⟨1 / 4, by norm_num, by norm_num⟩
    let μ := (binomial 2 p).map twoTrials
    19 / 20 ≤ μ.real {w | Covers 2 2 (twoShares p) (twoShares p) w} ∧
      μ.real {w | DecidesWrongly 2 2 (twoShares p) (twoShares p) w} ≤ 1 / 20 := by
  intro p μ
  have hμ : IsProbabilityMeasure μ :=
    Measure.isProbabilityMeasure_map Measurable.of_discrete.aemeasurable
  have hlaw {f : Counts → ℕ} : μ.map f = (binomial 2 p).map (f ∘ twoTrials) :=
    Measure.map_map Measurable.of_discrete Measurable.of_discrete
  refine family_coverage (by decide) (by decide) (by decide) ?_
    (fun k => hlaw.trans (map_twoTrials p k)) fun k => hlaw.trans (map_twoTrials p k)
  refine (ae_map_iff Measurable.of_discrete.aemeasurable MeasurableSet.of_discrete).2
    (.of_forall fun j => ?_)
  have htwo : min j 2 + (2 - j) = 2 := by omega
  simp [twoTrials, Fin.sum_univ_three, htwo]

end TraceCommons.Insights
