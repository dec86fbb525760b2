import TraceCommons.Lib.Limbs

/-! # Big naturals

The unsigned integers of the exact tail comparison: limbs of 32 bits, without zeros at the top. An
operation on them is one on the number they stand for. -/

namespace TraceCommons.Insights

open Limbs

def limbBase : ℕ := 2 ^ 32

theorem one_lt_limbBase : 1 < limbBase := by decide

def invalid : String := "insights-comparison-estimator-invalid"

structure BigNat where
  limbs : List ℕ
  canonical : Canonical limbBase limbs

namespace BigNat

def val (a : BigNat) : ℕ := Limbs.val limbBase a.limbs

def zero : BigNat := ⟨[], canonical_nil⟩

def one : BigNat := ⟨[1], by decide, fun _ => Nat.one_ne_zero⟩

/-- The factor is a `u32`. -/
def mulSmall (a : BigNat) (factor : ℕ) : BigNat :=
  if h : factor % limbBase = 0 ∨ a.limbs = [] then zero
  else ⟨mul limbBase (factor % limbBase) 0 a.limbs,
    a.canonical.mul (Nat.mod_lt _ (by decide)) fun hzero => h (.inl hzero)⟩

def addAssign (a b : BigNat) : BigNat :=
  ⟨normalize (add limbBase 0 a.limbs b.limbs),
    canonical_normalize (add_lt one_lt_limbBase (by decide) a.canonical.lt b.canonical.lt)⟩

def divExactSmall (a : BigNat) (divisor : ℕ) : Except String BigNat :=
  if h : divisor = 0 then .error invalid
  else if (divDown limbBase divisor 0 a.limbs.reverse).2 ≠ 0 then .error invalid
  else .ok ⟨normalize (divDown limbBase divisor 0 a.limbs.reverse).1.reverse,
    canonical_normalize fun x hx =>
      divDown_lt (Nat.pos_of_ne_zero h) (Nat.pos_of_ne_zero h)
        (fun y hy => a.canonical.lt y (List.mem_reverse.1 hy)) x (List.mem_reverse.1 hx)⟩

def cmp (a b : BigNat) : Ordering := Limbs.cmp a.limbs b.limbs

/-- `mul_small` by one factor, again and again. -/
def powSmall (factor : ℕ) : ℕ → BigNat
  | 0 => one
  | n + 1 => (powSmall factor n).mulSmall factor

@[simp] theorem val_zero : zero.val = 0 := rfl

@[simp] theorem val_one : one.val = 1 := rfl

theorem val_mulSmall (a : BigNat) {factor : ℕ} (h : factor < limbBase) :
    (a.mulSmall factor).val = a.val * factor := by
  unfold mulSmall
  split
  next hzero =>
    rcases hzero with hzero | hempty
    · rw [Nat.mod_eq_of_lt h] at hzero
      rw [hzero]
      rfl
    · rw [val, val, hempty, Limbs.val_nil, Nat.zero_mul]
      rfl
  · refine (val_mul _ _ 0 _).trans ?_
    rw [Nat.mod_eq_of_lt h]
    rfl

theorem val_addAssign (a b : BigNat) : (a.addAssign b).val = a.val + b.val :=
  (val_normalize _ _).trans (val_add _ 0 _ _)

theorem val_powSmall {factor : ℕ} (h : factor < limbBase) (n : ℕ) :
    (powSmall factor n).val = factor ^ n := by
  induction n with
  | zero => rfl
  | succ n ih => rw [powSmall, val_mulSmall _ h, ih, pow_succ]

theorem divExactSmall_eq {a : BigNat} {divisor q : ℕ} (hd : 0 < divisor)
    (h : a.val = divisor * q) : ∃ r, a.divExactSmall divisor = .ok r ∧ r.val = q := by
  have hval := divDown_val limbBase divisor 0 a.limbs.reverse
  have hlt := divDown_rem_lt limbBase hd hd a.limbs.reverse
  rw [Nat.zero_mul, Nat.zero_add, List.reverse_reverse] at hval
  have heq : divisor * Limbs.val limbBase (divDown limbBase divisor 0 a.limbs.reverse).1.reverse +
      (divDown limbBase divisor 0 a.limbs.reverse).2 = divisor * q := hval.trans h
  have hrem : (divDown limbBase divisor 0 a.limbs.reverse).2 = 0 := by
    have hmod := congrArg (· % divisor) heq
    simp only [Nat.mul_add_mod, Nat.mul_mod_right, Nat.mod_eq_of_lt hlt] at hmod
    exact hmod
  rw [hrem] at heq
  unfold divExactSmall
  rw [dif_neg hd.ne', if_neg (not_not.2 hrem)]
  exact ⟨_, rfl, (val_normalize _ _).trans (Nat.eq_of_mul_eq_mul_left hd heq)⟩

/-- `Ordering::is_le` of two big naturals. -/
theorem cmp_isLE (a b : BigNat) : (a.cmp b).isLE = true ↔ a.val ≤ b.val := by
  rw [cmp, cmp_eq one_lt_limbBase a.canonical b.canonical]
  exact Nat.isLE_compare

end BigNat

end TraceCommons.Insights
