import TraceCommons.Insights.ExactInterval
import TraceCommons.Lib.BinomialTail

/-! # The exact tails

What the integer comparison decides is the tail of the binomial distribution at the grid point. -/

namespace TraceCommons.Insights

open Binomial Set Nat

/-! ## The comparison -/

/-- A grid point as a probability. -/
noncomputable def gridPoint (p : ℕ) : ℝ := p / exactGrid

theorem exactGrid_pos : (0 : ℝ) < exactGrid := by
  unfold exactGrid
  norm_num

theorem gridPoint_mem {p : ℕ} (hp : p ≤ exactGrid) : gridPoint p ∈ Icc (0 : ℝ) 1 :=
  ⟨div_nonneg (cast_nonneg _) exactGrid_pos.le, (div_le_one exactGrid_pos).2 (cast_le.2 hp)⟩

theorem weight_eq {n p k : ℕ} (hp : p ≤ exactGrid) (hk : k ≤ n) :
    (weight n p (exactGrid - p) k : ℝ) =
      exactGrid ^ n * (n.choose k * gridPoint p ^ k * (1 - gridPoint p) ^ (n - k)) := by
  have hne := exactGrid_pos.ne'
  have hfailure : 1 - gridPoint p = (exactGrid - p) / exactGrid := by
    rw [gridPoint]
    field_simp
  have hpow : (exactGrid : ℝ) ^ n = exactGrid ^ k * exactGrid ^ (n - k) := by
    rw [← pow_add, Nat.add_sub_cancel' hk]
  rw [weight, hfailure, gridPoint, div_pow, div_pow, hpow]
  push_cast [cast_sub hp]
  field_simp

theorem sum_weight {n p x : ℕ} (hp : p ≤ exactGrid) (hx : x ≤ n + 1) :
    ((∑ k ∈ Finset.range x, weight n p (exactGrid - p) k : ℕ) : ℝ) =
      exactGrid ^ n * below n x (gridPoint p) := by
  rw [below, Finset.mul_sum, cast_sum]
  refine Finset.sum_congr rfl fun k hk => weight_eq hp ?_
  have hlt := Finset.mem_range.1 hk
  omega

section Compare

variable {n p x D : ℕ}

section numerator

variable (hn : n ≤ maxCalibrationExperiments) (hp : p < exactGrid) (hx : x ≤ n)

include hn hp hx

/-- The sum that is compared. -/
theorem numerator_eq :
    ∃ r, sumTerms n p (exactGrid - p) x 0 (BigNat.powSmall (exactGrid - p) n) BigNat.zero = .ok r ∧
      (r.val : ℝ) = exactGrid ^ n * below n (x + 1) (gridPoint p) := by
  have hgrid : exactGrid < limbBase := by decide
  have hcal : maxCalibrationExperiments < limbBase := by decide
  have hfirst : (BigNat.powSmall (exactGrid - p) n).val = weight n p (exactGrid - p) 0 := by
    rw [BigNat.val_powSmall (by omega), weight, choose_zero_right, pow_zero, mul_one,
      Nat.one_mul, Nat.sub_zero]
  obtain ⟨r, hr, hval⟩ := sumTerms_eq (hn.trans_lt hcal) (hp.trans hgrid) (Nat.sub_pos_of_lt hp) 0
    (zero_add x ▸ hx) _ _ hfirst
  refine ⟨r, hr, ?_⟩
  simp only [zero_add, BigNat.val_zero] at hval
  rw [hval, sum_weight hp.le (by omega)]

variable (hD : 0 < D) (hD' : D < limbBase)

include hD hD'

theorem compareTail_le : ∃ v, compareTail n p x D false = .ok v ∧
      (v = true ↔ below n (x + 1) (gridPoint p) ≤ 1 / D) := by
  obtain ⟨r, hr, hval⟩ := numerator_eq hn hp hx
  have hpow : (0 : ℝ) < exactGrid ^ n := pow_pos exactGrid_pos n
  have hDpos : (0 : ℝ) < D := cast_pos.2 hD
  refine ⟨_, by simp only [compareTail, hr]; rfl, ?_⟩
  rw [BigNat.cmp_isLE, BigNat.val_mulSmall _ hD', BigNat.val_powSmall (by decide),
    ← cast_le (α := ℝ), cast_mul, hval, cast_pow, mul_assoc,
    mul_le_iff_le_one_right hpow, le_div_iff₀ hDpos]

theorem compareTail_ge : ∃ v, compareTail n p x D true = .ok v ∧
      (v = true ↔ 1 - below n (x + 1) (gridPoint p) ≤ 1 / D) := by
  obtain ⟨r, hr, hval⟩ := numerator_eq hn hp hx
  have hpow : (0 : ℝ) < exactGrid ^ n := pow_pos exactGrid_pos n
  have hDpos : (0 : ℝ) < D := cast_pos.2 hD
  refine ⟨_, by simp only [compareTail, hr]; rfl, ?_⟩
  rw [BigNat.cmp_isLE, BigNat.val_mulSmall _ hD', BigNat.val_mulSmall _ (by omega),
    BigNat.val_powSmall (by decide), ← cast_le (α := ℝ), cast_mul, cast_mul, hval,
    cast_pow, mul_assoc, mul_le_mul_iff_of_pos_left hpow, cast_sub hD, cast_one, le_div_iff₀ hDpos]
  constructor <;> intro h <;> linarith

end numerator

theorem below_one (hx : x ≤ n) : below n x 1 = 0 := by
  refine Finset.sum_eq_zero fun k hk => ?_
  have hlt := Finset.mem_range.1 hk
  rw [sub_self, zero_pow (by omega), mul_zero]

theorem gridPoint_exactGrid : gridPoint exactGrid = 1 := div_self exactGrid_pos.ne'

theorem tailIsAtMost_atMost (hx : x < n) (hn : n ≤ maxCalibrationExperiments) (hp : p ≤ exactGrid)
    (hD : 0 < D) (hD' : D < limbBase) :
    ∃ v, tailIsAtMost x n p .atMost D = .ok v ∧
      (v = true ↔ below n (x + 1) (gridPoint p) ≤ 1 / D) := by
  have hDpos : (0 : ℝ) < D := cast_pos.2 hD
  unfold tailIsAtMost
  rw [if_neg (by omega), if_neg hD.ne']
  split
  next heq =>
    refine ⟨_, rfl, ?_⟩
    rw [heq, gridPoint_exactGrid, below_one hx]
    exact iff_of_true (decide_eq_true hx) (div_nonneg zero_le_one hDpos.le)
  next hne => exact compareTail_le hn (by omega) hx.le hD hD'

theorem tailIsAtMost_atLeast (hx : 0 < x) (hxn : x ≤ n) (hn : n ≤ maxCalibrationExperiments)
    (hp : p ≤ exactGrid) (hD : 1 < D) (hD' : D < limbBase) :
    ∃ v, tailIsAtMost x n p .atLeast D = .ok v ∧
      (v = true ↔ 1 - below n x (gridPoint p) ≤ 1 / D) := by
  have hDone : (1 : ℝ) < D := one_lt_cast.2 hD
  unfold tailIsAtMost
  rw [if_neg (by omega), if_neg (by omega)]
  split
  next heq =>
    refine ⟨_, rfl, ?_⟩
    rw [heq, gridPoint_exactGrid, below_one hxn, sub_zero]
    refine iff_of_false Bool.false_ne_true (not_le.2 ?_)
    exact (div_lt_one (by linarith)).2 hDone
  next hne =>
    simp only [if_neg hx.ne']
    have h := compareTail_ge hn (x := x - 1) (by omega : p < exactGrid) (by omega)
      (zero_lt_of_lt hD) hD'
    rwa [Nat.sub_add_cancel hx] at h

end Compare

theorem gridPoint_le {a b : ℕ} (h : a ≤ b) : gridPoint a ≤ gridPoint b :=
  div_le_div_of_nonneg_right (cast_le.2 h) exactGrid_pos.le

end TraceCommons.Insights
