import TraceCommons.Insights.ExactTail

/-! # The ends of an exact interval

A tail only grows, or only falls, along the grid. So the bisections end on the last and on the first
grid point where it is small, and the two do not cross. -/

namespace TraceCommons.Insights

open MeasureTheory ProbabilityTheory Binomial Set

/-! ## The bisections -/

section Bisect

/-- Whether a grid point is small can be decided up to `high`. -/
def Decides (small : ℕ → Except String Bool) (P : ℕ → Prop) (high : ℕ) : Prop :=
  ∀ m ≤ high, ∃ v, small m = .ok v ∧ (v = true ↔ P m)

variable {small : ℕ → Except String Bool} {P : ℕ → Prop} {low high top : ℕ}
  (h : Decides small P top) (hhigh : high ≤ top)

include h hhigh

/-- The lower bound stays small, and nothing above the upper bound is. -/
theorem lastPoint_isGreatest (hdown : ∀ a b, a ≤ b → b ≤ top → P b → P a) (hle : low ≤ high)
    (hlow : P low) (hbig : ∀ m ≤ top, P m → m ≤ high) :
    ∃ r, lastPoint small low high = .ok r ∧ IsGreatest {p | p ≤ top ∧ P p} r := by
  induction hsize : high - low using Nat.strong_induction_on generalizing low high with
  | _ size ih =>
    rw [lastPoint]
    split
    next hlt =>
      obtain ⟨v, hv, hP⟩ := h (low + (high - low + 1) / 2) (by omega)
      simp only [hv]
      cases v with
      | true => exact ih _ (by omega) hhigh (by omega) (hP.1 rfl) hbig rfl
      | false =>
        refine ih _ (by omega) (by omega) (by omega) hlow (fun m hm hsmall => ?_) rfl
        have hbelow : ¬ low + (high - low + 1) / 2 ≤ m := fun hge =>
          Bool.false_ne_true (hP.2 (hdown _ m hge hm hsmall))
        omega
    next hge =>
      exact ⟨low, rfl, ⟨hle.trans hhigh, hlow⟩, fun m hm => (hbig m hm.1 hm.2).trans (by omega)⟩

theorem firstPoint_isLeast (hup : ∀ a b, a ≤ b → b ≤ top → P a → P b) (hle : low ≤ high)
    (hlast : P high) (hbig : ∀ m ≤ top, P m → low ≤ m) :
    ∃ r, firstPoint small low high = .ok r ∧ IsLeast {p | p ≤ top ∧ P p} r := by
  induction hsize : high - low using Nat.strong_induction_on generalizing low high with
  | _ size ih =>
    rw [firstPoint]
    split
    next hlt =>
      obtain ⟨v, hv, hP⟩ := h (low + (high - low) / 2) (by omega)
      simp only [hv]
      cases v with
      | true => exact ih _ (by omega) (by omega) (by omega) (hP.1 rfl) hbig rfl
      | false =>
        refine ih _ (by omega) hhigh (by omega) hlast (fun m hm hsmall => ?_) rfl
        have habove : ¬ m ≤ low + (high - low) / 2 := fun hge =>
          Bool.false_ne_true (hP.2 (hup m _ hge (by omega) hsmall))
        omega
    next hge =>
      have heq : low = high := by omega
      exact ⟨low, rfl, ⟨heq ▸ hhigh, heq ▸ hlast⟩, fun m hm => hbig m hm.1 hm.2⟩

end Bisect

/-! ## The interval -/

section Interval

variable {n x D : ℕ}

/-- The ends of an interval: each is the grid's, or a point where the tail beyond is small. -/
structure Ends (n x D : ℕ) (lower upper : ℕ) : Prop where
  lower_le : lower ≤ exactGrid
  upper_le : upper ≤ exactGrid
  lower_small : lower = 0 ∨ 1 - below n x (gridPoint lower) ≤ 1 / D
  upper_small : upper = exactGrid ∨ below n (x + 1) (gridPoint upper) ≤ 1 / D

/-- Both tails at one inner point add up to more than one. -/
theorem Ends.le {lower upper : ℕ} (h : Ends n x D lower upper) (hx : x ≤ n) (hD : 1 < D) :
    lower ≤ upper := by
  rcases h.lower_small with rfl | hlower
  · exact Nat.zero_le _
  rcases h.upper_small with rfl | hupper
  · exact h.lower_le
  by_contra hlt
  have hhalf : (1 : ℝ) / D ≤ 1 / 2 :=
    one_div_le_one_div_of_le two_pos (by exact_mod_cast hD)
  have hne : lower ≠ exactGrid := by
    rintro rfl
    rw [gridPoint_exactGrid, below_one hx] at hlower
    linarith
  have hpos : 0 < gridPoint lower :=
    div_pos (Nat.cast_pos.2 (by omega)) exactGrid_pos
  have hone : 0 < 1 - gridPoint lower :=
    sub_pos.2 ((div_lt_one exactGrid_pos).2 (Nat.cast_lt.2 (lt_of_le_of_ne h.lower_le hne)))
  have hchoose : (0 : ℝ) < n.choose x := Nat.cast_pos.2 (Nat.choose_pos hx)
  have hterm : 0 < n.choose x * gridPoint lower ^ x * (1 - gridPoint lower) ^ (n - x) := by
    positivity
  have hsum : below n (x + 1) (gridPoint lower) = below n x (gridPoint lower) +
      n.choose x * gridPoint lower ^ x * (1 - gridPoint lower) ^ (n - x) :=
    Finset.sum_range_succ _ _
  have hanti := below_antitoneOn n (x + 1) (gridPoint_mem h.upper_le) (gridPoint_mem h.lower_le)
    (gridPoint_le (not_le.1 hlt).le)
  linarith

/-- The grid points where `s` has at most one chance in `D`. -/
def smallAt (n D : ℕ) (s : Set ℕ) : Set ℕ :=
  {p | ∃ h : p ≤ exactGrid, (binomial n ⟨gridPoint p, gridPoint_mem h⟩).real s ≤ 1 / D}

section Ends

variable (hn : n ≤ maxCalibrationExperiments) (hx : x ≤ n) (hD : 1 < D) (hD' : D < limbBase)

include hn hx hD hD'

theorem lowerEnd_eq : ∃ r, lowerEnd x n D = .ok r ∧
    (if x = 0 then r = 0 else IsGreatest (smallAt n D (Ici x)) r) ∧ r ≤ exactGrid ∧
    (r = 0 ∨ 1 - below n x (gridPoint r) ≤ 1 / D) := by
  unfold lowerEnd
  split
  · exact ⟨0, rfl, rfl, Nat.zero_le _, .inl rfl⟩
  next hne =>
    have hpos := Nat.pos_of_ne_zero hne
    have hzero : below n x (gridPoint 0) = 1 := by
      rw [below, Finset.sum_eq_single_of_mem 0 (Finset.mem_range.2 hpos)]
      · simp [gridPoint]
      · intro k _ hk
        simp [gridPoint, hk]
    obtain ⟨r, hr, hmax⟩ := lastPoint_isGreatest (P := fun p => 1 - below n x (gridPoint p) ≤ 1 / D)
      (fun m hm => tailIsAtMost_atLeast hpos hx hn hm hD hD') le_rfl
      (fun a b hab hb hsmall => (sub_le_sub_left (below_antitoneOn n x
        (gridPoint_mem (hab.trans hb)) (gridPoint_mem hb) (gridPoint_le hab)) 1).trans hsmall)
      (Nat.zero_le _) (by rw [hzero, sub_self]; positivity) fun m hm _ => hm
    refine ⟨r, hr, ?_, hmax.1.1, .inr hmax.1.2⟩
    simpa [smallAt, binomial_Ici] using hmax

theorem upperEnd_eq : ∃ r, upperEnd x n D = .ok r ∧
    (if x = n then r = exactGrid else IsLeast (smallAt n D (Iic x)) r) ∧ r ≤ exactGrid ∧
    (r = exactGrid ∨ below n (x + 1) (gridPoint r) ≤ 1 / D) := by
  unfold upperEnd
  split
  · exact ⟨exactGrid, rfl, rfl, le_rfl, .inl rfl⟩
  next hne =>
    have hlt := lt_of_le_of_ne hx hne
    obtain ⟨r, hr, hmin⟩ := firstPoint_isLeast (P := fun p => below n (x + 1) (gridPoint p) ≤ 1 / D)
      (fun m hm => tailIsAtMost_atMost hlt hn hm (by omega) hD') le_rfl
      (fun a b hab hb hsmall => (below_antitoneOn n (x + 1) (gridPoint_mem (hab.trans hb))
        (gridPoint_mem hb) (gridPoint_le hab)).trans hsmall) (Nat.zero_le _)
      (by rw [gridPoint_exactGrid, below_one hlt]; positivity) fun m _ _ => Nat.zero_le m
    refine ⟨r, hr, ?_, hmin.1.1, .inr hmin.1.2⟩
    simpa [smallAt, binomial_Iic] using hmin

theorem exactBinomialInterval_ends (hpos : 0 < n) :
    ∃ lower upper, exactBinomialInterval x n D = .ok (lower, upper) ∧ Ends n x D lower upper ∧
      (if x = 0 then lower = 0 else IsGreatest (smallAt n D (Ici x)) lower) ∧
      (if x = n then upper = exactGrid else IsLeast (smallAt n D (Iic x)) upper) := by
  obtain ⟨lower, hlower, hgreatest, hlower_le, hlower_small⟩ := lowerEnd_eq hn hx hD hD'
  obtain ⟨upper, hupper, hleast, hupper_le, hupper_small⟩ := upperEnd_eq hn hx hD hD'
  have hends : Ends n x D lower upper := ⟨hlower_le, hupper_le, hlower_small, hupper_small⟩
  refine ⟨lower, upper, ?_, hends, hgreatest, hleast⟩
  unfold exactBinomialInterval
  rw [if_neg (by omega)]
  simp only [hlower, hupper]
  exact if_neg (not_lt.2 (hends.le hx hD))

end Ends

/-- The interval is the widest the grid has, and the sums it is found by are the sums of the
binomial weights. -/
theorem exact_binomial_interval (hn : 1 ≤ n) (hn' : n ≤ 10000) (hx : x ≤ n) (hD : 2 ≤ D)
    (hD' : D < 2 ^ 32) :
    (∃ L U, exactBinomialInterval x n D = .ok (L, U) ∧ L ≤ U ∧
      (if x = 0 then L = 0 else IsGreatest (smallAt n D (Ici x)) L) ∧
      (if x = n then U = exactGrid else IsLeast (smallAt n D (Iic x)) U)) ∧
    ∀ p < exactGrid, ∀ m ≤ n, ∃ r, sumTerms n p (exactGrid - p) m 0
        (BigNat.powSmall (exactGrid - p) n) BigNat.zero = .ok r ∧
      r.val = ∑ k ∈ Finset.range (m + 1), n.choose k * p ^ k * (exactGrid - p) ^ (n - k) := by
  constructor
  · obtain ⟨L, U, heq, hends, hlow, hup⟩ := exactBinomialInterval_ends hn' hx hD hD' hn
    exact ⟨L, U, heq, hends.le hx hD, hlow, hup⟩
  · intro p hp m hm
    have hfirst : (BigNat.powSmall (exactGrid - p) n).val = weight n p (exactGrid - p) 0 := by
      rw [BigNat.val_powSmall (by unfold exactGrid limbBase at *; omega)]
      simp [weight]
    obtain ⟨r, hr, hval⟩ := sumTerms_eq (hn'.trans_lt (by decide))
      (hp.trans (by decide)) (Nat.sub_pos_of_lt hp) 0 (by omega : 0 + m ≤ n) _ BigNat.zero hfirst
    exact ⟨r, hr, by simpa [weight, BigNat.val_zero] using hval⟩

theorem exact_binomial_interval_half : ∃ L U, exactBinomialInterval 1 2 2 = .ok (L, U) ∧
    L ≤ U ∧ IsGreatest (smallAt 2 2 (Ici 1)) L ∧ IsLeast (smallAt 2 2 (Iic 1)) U :=
  (exact_binomial_interval (n := 2) (x := 1) (D := 2) (by decide) (by decide) (by decide)
    (by decide) (by decide)).1

/-! ## Parameters outside -/

theorem exactComponentInterval_ends (hn : 0 < n) (hn' : n ≤ maxTasks) (hx : x ≤ n) :
    ∃ lower upper, exactComponentInterval x n = .ok (lower, upper) ∧
      Ends n x bonferroniOneSidedDenominator lower upper := by
  have htasks : maxTasks ≤ maxCalibrationExperiments := by decide
  unfold exactComponentInterval
  rw [if_neg (not_lt.2 hn')]
  obtain ⟨lower, upper, heq, hends, -⟩ := exactBinomialInterval_ends (hn'.trans htasks) hx
    (D := bonferroniOneSidedDenominator) (by decide) (by decide) hn
  exact ⟨lower, upper, heq, hends⟩

/-- A parameter below the interval makes what was seen a rare upper tail. -/
theorem Ends.lower_miss {lower upper : ℕ} (h : Ends n x D lower upper) {q : ℝ}
    (hq : q ∈ Icc (0 : ℝ) 1) (hmiss : exactGrid * q < lower) : 1 - below n x q ≤ 1 / D := by
  have hpoint : q ≤ gridPoint lower := by
    rw [gridPoint, le_div_iff₀ exactGrid_pos, mul_comm]
    exact hmiss.le
  have hne : lower ≠ 0 := by
    rintro rfl
    rw [Nat.cast_zero] at hmiss
    exact absurd hmiss (not_lt.2 (mul_nonneg exactGrid_pos.le hq.1))
  have hanti := below_antitoneOn n x hq (gridPoint_mem h.lower_le) hpoint
  exact (sub_le_sub_left hanti 1).trans (h.lower_small.resolve_left hne)

theorem Ends.upper_miss {lower upper : ℕ} (h : Ends n x D lower upper) {q : ℝ}
    (hq : q ∈ Icc (0 : ℝ) 1) (hmiss : upper < exactGrid * q) : below n (x + 1) q ≤ 1 / D := by
  have hpoint : gridPoint upper ≤ q := by
    rw [gridPoint, div_le_iff₀ exactGrid_pos, mul_comm]
    exact hmiss.le
  have hne : upper ≠ exactGrid := by
    rintro rfl
    have hle := mul_le_of_le_one_right exactGrid_pos.le hq.2
    exact absurd hmiss (not_lt.2 hle)
  have hanti := below_antitoneOn n (x + 1) (gridPoint_mem h.upper_le) hq hpoint
  exact hanti.trans (h.upper_small.resolve_left hne)

end Interval

end TraceCommons.Insights
