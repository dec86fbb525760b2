import Mathlib

/-! # Tails of the binomial distribution

The probability to stay below a number of successes falls as the success probability grows, and
a tail that is small is a rare one to see. With both, a confidence bound read off an exact tail
misses the parameter no more often than its level. -/

namespace TraceCommons.Binomial

open MeasureTheory ProbabilityTheory Set Polynomial
open scoped unitInterval

/-! ## Monotone in the parameter -/

/-- The probability of fewer than `x` successes in `n` trials. -/
noncomputable def below (n x : ℕ) (q : ℝ) : ℝ :=
  ∑ k ∈ Finset.range x, n.choose k * q ^ k * (1 - q) ^ (n - k)

/-- The same as a polynomial. -/
noncomputable def belowPoly (n x : ℕ) : ℝ[X] := ∑ k ∈ Finset.range x, bernsteinPolynomial ℝ n k

theorem eval_bernstein (n k : ℕ) (q : ℝ) :
    (bernsteinPolynomial ℝ n k).eval q = n.choose k * q ^ k * (1 - q) ^ (n - k) := by
  simp [bernsteinPolynomial]

theorem eval_belowPoly (n x : ℕ) (q : ℝ) : (belowPoly n x).eval q = below n x q := by
  rw [belowPoly, eval_finsetSum]
  exact Finset.sum_congr rfl fun k _ => eval_bernstein n k q

theorem term_nonneg {q : ℝ} (hq : q ∈ Icc (0 : ℝ) 1) (n k : ℕ) :
    0 ≤ n.choose k * q ^ k * (1 - q) ^ (n - k) := by
  have hone : 0 ≤ 1 - q := sub_nonneg.2 hq.2
  have hzero := hq.1
  positivity

/-- The terms' derivatives telescope. -/
theorem derivative_belowPoly (n x : ℕ) :
    derivative (belowPoly n (x + 1)) = -(n : ℝ[X]) * bernsteinPolynomial ℝ (n - 1) x := by
  induction x with
  | zero =>
    rw [belowPoly, Finset.sum_range_one, bernsteinPolynomial.derivative_zero]
  | succ x ih =>
    rw [belowPoly, Finset.sum_range_succ, derivative_add, ← belowPoly, ih,
      bernsteinPolynomial.derivative_succ]
    ring

theorem below_antitoneOn (n x : ℕ) : AntitoneOn (below n x) (Icc 0 1) := by
  have hfun : below n x = (belowPoly n x).eval := funext fun q => (eval_belowPoly n x q).symm
  rw [hfun]
  refine antitoneOn_of_deriv_nonpos (convex_Icc 0 1) (Polynomial.continuous _).continuousOn
    (Polynomial.differentiable _).differentiableOn fun q hq => ?_
  have hq' : q ∈ Icc (0 : ℝ) 1 := interior_subset hq
  rw [Polynomial.deriv]
  cases x with
  | zero => simp [belowPoly]
  | succ x =>
    have hterm := term_nonneg hq' (n - 1) x
    rw [derivative_belowPoly, eval_mul, eval_bernstein, eval_neg, eval_natCast, neg_mul]
    exact neg_nonpos.2 (mul_nonneg (Nat.cast_nonneg n) hterm)

theorem below_mono {q : ℝ} (hq : q ∈ Icc (0 : ℝ) 1) (n : ℕ) {x y : ℕ} (hxy : x ≤ y) :
    below n x q ≤ below n y q :=
  Finset.sum_le_sum_of_subset_of_nonneg (Finset.range_subset_range.2 hxy) fun k _ _ =>
    term_nonneg hq n k

/-! ## The distribution -/

theorem binomial_Iio (n x : ℕ) (p : I) : (binomial n p).real (Iio x) = below n x p := by
  have hset : Iio x = Finset.range x := by
    simp
  rw [hset, ← sum_measureReal_singleton]
  exact Finset.sum_congr rfl fun k _ => binomial_real_singleton n k p

theorem binomial_Iic (n x : ℕ) (p : I) : (binomial n p).real (Iic x) = below n (x + 1) p := by
  rw [← binomial_Iio]
  congr 1
  ext k
  simp

theorem binomial_Ici (n x : ℕ) (p : I) : (binomial n p).real (Ici x) = 1 - below n x p := by
  rw [← binomial_Iio, ← compl_Iio, probReal_compl_eq_one_sub measurableSet_Iio]

/-! ## Small tails are rare -/

section Rare

variable {Ω ι : Type*} [MeasurableSpace Ω] [Countable ι] [LinearOrder ι] {s : ι → Set Ω}

/-- The union of those members of a chain that have little mass has little mass. -/
theorem measure_biUnion_small_le (ν : Measure Ω) (hs : Monotone s ∨ Antitone s) (a : ENNReal) :
    ν (⋃ i ∈ {i | ν (s i) ≤ a}, s i) ≤ a := by
  have hdirected : DirectedOn (Function.onFun (· ⊆ ·) s) {i | ν (s i) ≤ a} := by
    intro i hi j hj
    rcases hs with hs | hs
    · rcases le_total i j with hij | hij
      · exact ⟨j, hj, hs hij, subset_rfl⟩
      · exact ⟨i, hi, subset_rfl, hs hij⟩
    · rcases le_total i j with hij | hij
      · exact ⟨i, hi, subset_rfl, hs hij⟩
      · exact ⟨j, hj, hs hij, subset_rfl⟩
  rw [measure_biUnion_eq_iSup (to_countable _) hdirected]
  exact iSup₂_le fun i hi => hi

end Rare

/-- To see a value whose tail is small is rare. -/
theorem small_tail_rare {n : ℕ} {p : I} {s : ℕ → Set ℕ} {tail : ℕ → ℝ} {a : ℝ} (ha : 0 ≤ a)
    (hs : Monotone s ∨ Antitone s) (hself : ∀ x, x ∈ s x)
    (htail : ∀ x, (binomial n p).real (s x) = tail x) :
    (binomial n p).real {x | tail x ≤ a} ≤ a := by
  refine ENNReal.toReal_le_of_le_ofReal ha ?_
  refine (measure_mono fun x hx => ?_).trans
    (measure_biUnion_small_le _ hs _)
  refine mem_biUnion ?_ (hself x)
  exact (ENNReal.le_ofReal_iff_toReal_le (measure_ne_top _ _) ha).2 ((htail x).trans_le hx)

theorem small_lower_tail_rare (n : ℕ) (p : I) {a : ℝ} (ha : 0 ≤ a) :
    (binomial n p).real {x | below n (x + 1) p ≤ a} ≤ a :=
  small_tail_rare ha (.inl monotone_Iic) (fun _ => self_mem_Iic) fun x => binomial_Iic n x p

theorem small_upper_tail_rare (n : ℕ) (p : I) {a : ℝ} (ha : 0 ≤ a) :
    (binomial n p).real {x | 1 - below n x p ≤ a} ≤ a :=
  small_tail_rare ha (.inr antitone_Ici) (fun _ => self_mem_Ici) fun x => binomial_Ici n x p

end TraceCommons.Binomial
