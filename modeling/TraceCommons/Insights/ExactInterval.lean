import TraceCommons.Insights.BigNat

/-! # Exact intervals for a comparison

Two cohorts, three outcomes: each outcome's share in each cohort gets an interval of millionths from
the exact binomial tails, and each outcome a contrast of the two. A tail at a grid point is compared
with its bound in integers. -/

namespace TraceCommons.Insights

/-! ## The source -/

def maxCalibrationExperiments : ℕ := 10000

def exactGrid : ℕ := 1000000

def bonferroniOneSidedDenominator : ℕ := 240

def maxTasks : ℕ := 256

def exactMaximumWidthMillionths : ℤ := 500000

inductive Tail
  | atLeast | atMost
  deriving DecidableEq

def gcd (left right : ℕ) : ℕ :=
  if h : right = 0 then left
  else
    have : left % right < right := Nat.mod_lt _ (Nat.pos_of_ne_zero h)
    gcd right (left % right)
termination_by right

/-- A numerator and a denominator without their common divisor. -/
def cancel (numerator denominator : ℕ) : ℕ × ℕ :=
  (numerator / gcd numerator denominator, denominator / gcd numerator denominator)

/-- Two numerators against two denominators, one pair after the other. -/
def cancelAll (n₀ n₁ d₀ d₁ : ℕ) : (ℕ × ℕ) × (ℕ × ℕ) :=
  let a := cancel n₀ d₀
  let b := cancel a.1 d₁
  let c := cancel n₁ a.2
  let d := cancel c.1 b.2
  ((b.1, d.1), (c.2, d.2))

def applyBinomialTermRatio (value : BigNat) (numerators denominators : ℕ × ℕ) :
    Except String BigNat := do
  let r := cancelAll numerators.1 numerators.2 denominators.1 denominators.2
  let value := (value.mulSmall r.1.1).mulSmall r.1.2
  let value ← value.divExactSmall r.2.1
  value.divExactSmall r.2.2

/-- `u32::try_from`. -/
def tryU32 (n : ℕ) : Except String ℕ :=
  if n < 2 ^ 32 then .ok n else .error "out of range integral type conversion attempted"

/-- The loop over the counts of the tail: what is left of it, the count, its term, and the sum of
the terms before it. -/
def sumTerms (total success failure : ℕ) :
    ℕ → ℕ → BigNat → BigNat → Except String BigNat
  | 0, _, term, numerator => .ok (numerator.addAssign term)
  | left + 1, count, term, numerator => do
    let next ← applyBinomialTermRatio term (← tryU32 (total - count), success)
      (← tryU32 (count + 1), failure)
    sumTerms total success failure left (count + 1) next (numerator.addAssign term)

/-- The sum of the terms up to `maximum`, compared with its bound. -/
def compareTail (total probability maximum multiplier : ℕ) (complement : Bool) :
    Except String Bool := do
  let denominator := BigNat.powSmall exactGrid total
  let failure := exactGrid - probability
  let numerator ← sumTerms total probability failure maximum 0 (BigNat.powSmall failure total)
    BigNat.zero
  if complement then
    return ((denominator.mulSmall (multiplier - 1)).cmp (numerator.mulSmall multiplier)).isLE
  else return ((numerator.mulSmall multiplier).cmp denominator).isLE

def tailIsAtMost (successes total probability : ℕ) (tail : Tail) (multiplier : ℕ) :
    Except String Bool :=
  if successes > total ∨ total > maxCalibrationExperiments ∨ probability > exactGrid then
    .error invalid
  else if multiplier = 0 then .error invalid
  else if probability = exactGrid then
    match tail with
    | .atMost => .ok (successes < total)
    | .atLeast => .ok false
  else
    match tail with
    | .atMost => compareTail total probability successes multiplier false
    | .atLeast =>
      if successes = 0 then .ok false
      else compareTail total probability (successes - 1) multiplier true

/-- The bisection of `last_grid_point_with_small_tail`. -/
def lastPoint (small : ℕ → Except String Bool) (low high : ℕ) : Except String ℕ :=
  if low < high then do
    let middle := low + (high - low + 1) / 2
    if ← small middle then lastPoint small middle high
    else lastPoint small low (middle - 1)
  else return low
termination_by high - low

def firstPoint (small : ℕ → Except String Bool) (low high : ℕ) : Except String ℕ :=
  if low < high then do
    let middle := low + (high - low) / 2
    if ← small middle then firstPoint small low middle
    else firstPoint small (middle + 1) high
  else return low
termination_by high - low

def lastGridPointWithSmallTail (successes total : ℕ) (tail : Tail) (denominator : ℕ) :
    Except String ℕ :=
  lastPoint (fun middle => tailIsAtMost successes total middle tail denominator) 0 exactGrid

def firstGridPointWithSmallTail (successes total : ℕ) (tail : Tail) (denominator : ℕ) :
    Except String ℕ :=
  firstPoint (fun middle => tailIsAtMost successes total middle tail denominator) 0 exactGrid

def lowerEnd (successes total denominator : ℕ) : Except String ℕ :=
  if successes = 0 then .ok 0
  else lastGridPointWithSmallTail successes total .atLeast denominator

def upperEnd (successes total denominator : ℕ) : Except String ℕ :=
  if successes = total then .ok exactGrid
  else firstGridPointWithSmallTail successes total .atMost denominator

def exactBinomialInterval (successes total denominator : ℕ) : Except String (ℕ × ℕ) :=
  if total = 0 ∨ total > maxCalibrationExperiments ∨ successes > total then .error invalid
  else do
    let lower ← lowerEnd successes total denominator
    let upper ← upperEnd successes total denominator
    if lower > upper then .error invalid else .ok (lower, upper)

def exactComponentInterval (successes total : ℕ) : Except String (ℕ × ℕ) :=
  if total > maxTasks then .error invalid
  else exactBinomialInterval successes total bonferroniOneSidedDenominator

structure ExactCandidateCounts where
  total : ℕ
  outcomes : Fin 3 → ℕ

inductive ExactCandidateDecision
  | insufficientPrecision | indeterminateBoundary | excludesZero | includesZero
  deriving DecidableEq

structure ExactCandidateComponentInterval where
  lowerMillionths : ℕ
  upperMillionths : ℕ

structure ExactCandidateContrast where
  lowerMillionths : ℤ
  upperMillionths : ℤ
  widthMillionths : ℤ
  decision : ExactCandidateDecision

inductive ExactCandidateEvaluation
  | supported (first second : Fin 3 → ExactCandidateComponentInterval)
      (contrasts : Fin 3 → ExactCandidateContrast)
  | suppressedBelowMinimumCohortSupport

def combineExactCandidateIntervals (first second : ℕ × ℕ) : ExactCandidateContrast :=
  let lower : ℤ := second.1 - first.2
  let upper : ℤ := second.2 - first.1
  let width := upper - lower
  { lowerMillionths := lower
    upperMillionths := upper
    widthMillionths := width
    decision :=
      if width > exactMaximumWidthMillionths then .insufficientPrecision
      else if width = exactMaximumWidthMillionths ∨ lower = 0 ∨ upper = 0 then .indeterminateBoundary
      else if upper < 0 ∨ lower > 0 then .excludesZero
      else .includesZero }

/-- `checked_add` on `usize`. -/
def checkedAddUsize (a b : ℕ) : Option ℕ := if a + b < 2 ^ 64 then some (a + b) else none

instance neZero_outcomes : NeZero 3 := ⟨by decide⟩

def checkedSum (outcomes : Fin 3 → ℕ) : Option ℕ := do
  let a ← checkedAddUsize 0 (outcomes 0)
  let b ← checkedAddUsize a (outcomes 1)
  checkedAddUsize b (outcomes 2)

/-- The two intervals of one outcome. -/
def outcomeIntervals (first second : ExactCandidateCounts) (outcome : Fin 3) :
    Except String ((ℕ × ℕ) × (ℕ × ℕ)) := do
  let a ← exactComponentInterval (first.outcomes outcome) first.total
  let b ← exactComponentInterval (second.outcomes outcome) second.total
  return (a, b)

def component (interval : ℕ × ℕ) : ExactCandidateComponentInterval := ⟨interval.1, interval.2⟩

def evaluateExactCandidateCounts (first second : ExactCandidateCounts) :
    Except String ExactCandidateEvaluation :=
  if checkedSum first.outcomes ≠ some first.total ∨ checkedSum second.outcomes ≠ some second.total ∨
      (checkedAddUsize first.total second.total).all (· > maxTasks) then .error invalid
  else if first.total < 2 ∨ second.total < 2 then .ok .suppressedBelowMinimumCohortSupport
  else do
    let r₀ ← outcomeIntervals first second 0
    let r₁ ← outcomeIntervals first second 1
    let r₂ ← outcomeIntervals first second 2
    let rows : Fin 3 → (ℕ × ℕ) × (ℕ × ℕ) := ![r₀, r₁, r₂]
    return .supported (fun k => component (rows k).1) (fun k => component (rows k).2) fun k =>
      combineExactCandidateIntervals (rows k).1 (rows k).2

/-! ## One term to the next -/

theorem gcd_eq (left right : ℕ) : gcd left right = Nat.gcd left right := by
  fun_induction gcd left right with
  | case1 left => exact (Nat.gcd_zero_right _).symm
  | case2 left right h _ ih => rw [ih, Nat.gcd_comm, ← Nat.gcd_rec, Nat.gcd_comm]

theorem cancel_spec (n : ℕ) {d : ℕ} (hd : 0 < d) :
    (cancel n d).1 * d = n * (cancel n d).2 ∧ 0 < (cancel n d).2 ∧ (cancel n d).1 ≤ n ∧
      (cancel n d).2 ≤ d := by
  have hpos : 0 < Nat.gcd n d := Nat.gcd_pos_of_pos_right n hd
  simp only [cancel, gcd_eq]
  refine ⟨?_, Nat.div_pos (Nat.gcd_le_right n hd) hpos, Nat.div_le_self _ _, Nat.div_le_self _ _⟩
  obtain ⟨x, hx⟩ := Nat.gcd_dvd_left n d
  obtain ⟨y, hy⟩ := Nat.gcd_dvd_right n d
  have hn : n / Nat.gcd n d = x := Nat.div_eq_of_eq_mul_right hpos hx
  have hd' : d / Nat.gcd n d = y := Nat.div_eq_of_eq_mul_right hpos hy
  rw [hn, hd']
  calc x * d = x * (Nat.gcd n d * y) := by rw [← hy]
    _ = Nat.gcd n d * x * y := by ring
    _ = n * y := by rw [← hx]

/-- The reduced factors have the ratio of the given ones. -/
theorem cancelAll_spec (n0 n1 : ℕ) {d0 d1 : ℕ} (h0 : 0 < d0) (h1 : 0 < d1) :
    (cancelAll n0 n1 d0 d1).1.1 * (cancelAll n0 n1 d0 d1).1.2 * (d0 * d1) =
      n0 * n1 * ((cancelAll n0 n1 d0 d1).2.1 * (cancelAll n0 n1 d0 d1).2.2) ∧
    0 < (cancelAll n0 n1 d0 d1).2.1 ∧ 0 < (cancelAll n0 n1 d0 d1).2.2 ∧
    (cancelAll n0 n1 d0 d1).1.1 ≤ n0 ∧ (cancelAll n0 n1 d0 d1).1.2 ≤ n1 := by
  obtain ⟨ha, hapos, hale, -⟩ := cancel_spec n0 h0
  obtain ⟨hb, hbpos, hble, -⟩ := cancel_spec (cancel n0 d0).1 h1
  obtain ⟨hc, hcpos, hcle, -⟩ := cancel_spec n1 hapos
  obtain ⟨hd, hdpos, hdle, -⟩ := cancel_spec (cancel n1 (cancel n0 d0).2).1 hbpos
  simp only [cancelAll]
  generalize cancel n0 d0 = a at *
  generalize cancel a.1 d1 = b at *
  generalize cancel n1 a.2 = c at *
  generalize cancel c.1 b.2 = d at *
  refine ⟨?_, hcpos, hdpos, hble.trans hale, hdle.trans hcle⟩
  -- The common factor of both sides is what was cancelled last.
  refine Nat.eq_of_mul_eq_mul_right (Nat.mul_pos hapos hbpos) ?_
  calc b.1 * d.1 * (d0 * d1) * (a.2 * b.2)
      = (b.1 * d1) * (d.1 * b.2) * d0 * a.2 := by ring
    _ = (a.1 * d0) * b.2 * (c.1 * a.2) * d.2 := by
        rw [hb, hd]
        ring
    _ = n0 * n1 * (c.2 * d.2) * (a.2 * b.2) := by
        rw [ha, hc]
        ring

theorem applyBinomialTermRatio_eq {value : BigNat} {n0 n1 d0 d1 q : ℕ} (h0 : 0 < d0) (h1 : 0 < d1)
    (hn0 : n0 < limbBase) (hn1 : n1 < limbBase) (h : value.val * (n0 * n1) = q * (d0 * d1)) :
    ∃ r, applyBinomialTermRatio value (n0, n1) (d0, d1) = .ok r ∧ r.val = q := by
  obtain ⟨hratio, hd0, hd1, hle0, hle1⟩ := cancelAll_spec n0 n1 h0 h1
  simp only [applyBinomialTermRatio]
  generalize cancelAll n0 n1 d0 d1 = r at *
  have hval : ((value.mulSmall r.1.1).mulSmall r.1.2).val = r.2.1 * (r.2.2 * q) := by
    rw [BigNat.val_mulSmall _ (hle1.trans_lt hn1), BigNat.val_mulSmall _ (hle0.trans_lt hn0)]
    refine Nat.eq_of_mul_eq_mul_right (Nat.mul_pos h0 h1) ?_
    calc value.val * r.1.1 * r.1.2 * (d0 * d1)
        = value.val * (r.1.1 * r.1.2 * (d0 * d1)) := by ring
      _ = value.val * (n0 * n1) * (r.2.1 * r.2.2) := by
          rw [hratio]
          ring
      _ = r.2.1 * (r.2.2 * q) * (d0 * d1) := by
          rw [h]
          ring
  obtain ⟨s, hs, hsval⟩ := BigNat.divExactSmall_eq hd0 hval
  obtain ⟨t, ht, htval⟩ := BigNat.divExactSmall_eq hd1 hsval
  refine ⟨t, ?_, htval⟩
  rw [hs]
  exact ht

/-! ## The sum of a tail -/

/-- The weight of `k` successes, in units of the grid's power. -/
def weight (total success failure k : ℕ) : ℕ :=
  total.choose k * success ^ k * failure ^ (total - k)

theorem weight_succ {total k : ℕ} (success failure : ℕ) (hk : k < total) :
    weight total success failure k * ((total - k) * success) =
      weight total success failure (k + 1) * ((k + 1) * failure) := by
  have hchoose := Nat.choose_succ_right_eq total k
  have hpow : failure ^ (total - k) = failure ^ (total - (k + 1)) * failure := by
    rw [← pow_succ]
    congr 1
    omega
  simp only [weight]
  rw [hpow]
  calc total.choose k * success ^ k * (failure ^ (total - (k + 1)) * failure) *
        ((total - k) * success)
      = total.choose k * (total - k) * success ^ (k + 1) * failure ^ (total - (k + 1)) *
          failure := by ring
    _ = total.choose (k + 1) * success ^ (k + 1) * failure ^ (total - (k + 1)) *
          ((k + 1) * failure) := by
        rw [← hchoose]
        ring

theorem sumTerms_eq {total success failure : ℕ} (htotal : total < limbBase)
    (hsuccess : success < limbBase) (hfailure : 0 < failure) {left : ℕ} (count : ℕ)
    (hcount : count + left ≤ total) (term numerator : BigNat)
    (hterm : term.val = weight total success failure count) :
    ∃ r, sumTerms total success failure left count term numerator = .ok r ∧
      r.val = numerator.val +
        ∑ k ∈ Finset.range (left + 1), weight total success failure (count + k) := by
  induction left generalizing count term numerator with
  | zero =>
    refine ⟨_, rfl, ?_⟩
    rw [BigNat.val_addAssign, hterm, Finset.sum_range_one, Nat.add_zero]
  | succ left ih =>
    have hbase : limbBase = 2 ^ 32 := rfl
    have hlow : tryU32 (total - count) = .ok (total - count) := if_pos (by omega)
    have hhigh : tryU32 (count + 1) = .ok (count + 1) := if_pos (by omega)
    have hstep : term.val * ((total - count) * success) =
        weight total success failure (count + 1) * ((count + 1) * failure) := by
      rw [hterm]
      exact weight_succ _ _ (by omega)
    obtain ⟨next, hnext, hval⟩ := applyBinomialTermRatio_eq (Nat.succ_pos _) hfailure
      (by omega) hsuccess hstep
    obtain ⟨r, hr, hrval⟩ := ih _ (by omega) _ _ hval
    have hshift : ∑ k ∈ Finset.range (left + 1), weight total success failure (count + 1 + k) =
        ∑ k ∈ Finset.range (left + 1), weight total success failure (count + (k + 1)) :=
      Finset.sum_congr rfl fun k _ => by rw [Nat.add_assoc, Nat.add_comm 1 k]
    refine ⟨r, ?_, ?_⟩
    · simp only [sumTerms, hlow, hhigh, bind, Except.bind, hnext]
      exact hr
    · rw [hrval, BigNat.val_addAssign, hterm, Finset.sum_range_succ' _ (left + 1), hshift]
      exact add_right_comm _ _ _ |>.trans (add_assoc _ _ _)

end TraceCommons.Insights
