import Mathlib

/-! # Numbers in limbs

Natural numbers as lists of limbs in a base, the least significant first, with the school methods
for products, sums and quotients by one limb, and the comparison from the top. -/

namespace TraceCommons.Limbs

open List Nat

variable {b f d : ℕ} {l m : List ℕ}

def val (b : ℕ) (l : List ℕ) : ℕ := Nat.ofDigits b l

@[simp] theorem val_nil : val b [] = 0 := rfl

@[simp] theorem val_cons (x : ℕ) (l : List ℕ) : val b (x :: l) = x + b * val b l :=
  ofDigits_cons

/-- Limbs in range, and none at the top that is zero. -/
structure Canonical (b : ℕ) (l : List ℕ) : Prop where
  lt : ∀ x ∈ l, x < b
  top : ∀ h : l ≠ [], l.getLast h ≠ 0

theorem canonical_nil : Canonical b [] := ⟨nofun, fun h => absurd rfl h⟩

/-! ## Products with one limb -/

/-- `f` times the limbs, plus the carry. -/
def mul (b f : ℕ) : ℕ → List ℕ → List ℕ
  | c, [] => if c ≠ 0 then [c] else []
  | c, x :: l => (x * f + c) % b :: mul b f ((x * f + c) / b) l

theorem val_mul (b f c : ℕ) (l : List ℕ) : val b (mul b f c l) = val b l * f + c := by
  induction l generalizing c with
  | nil =>
    rw [mul]
    split
    · simp
    next h => simp [not_not.1 h]
  | cons x l ih =>
    have hsplit := mod_add_div (x * f + c) b
    rw [mul, val_cons, ih, val_cons]
    linarith [mul_add b (val b l * f) ((x * f + c) / b), add_mul x (b * val b l) f,
      mul_assoc b (val b l) f]

variable {c : ℕ}

theorem carry_lt {x : ℕ} (hf : f < b) (hx : x < b) (hc : c < b) : (x * f + c) / b < b := by
  refine Nat.div_lt_of_lt_mul ?_
  calc x * f + c < x * f + b := Nat.add_lt_add_left hc _
    _ ≤ x * b + b := Nat.add_le_add_right (Nat.mul_le_mul_left x hf.le) b
    _ = (x + 1) * b := (succ_mul x b).symm
    _ ≤ b * b := mul_le_mul_right b hx

theorem mul_lt (hf : f < b) (hc : c < b) (hl : ∀ x ∈ l, x < b) : ∀ x ∈ mul b f c l, x < b := by
  induction l generalizing c with
  | nil =>
    intro x hx
    rw [mul] at hx
    split at hx
    · rwa [mem_singleton.1 hx]
    · exact absurd hx not_mem_nil
  | cons y l ih =>
    have hcarry := carry_lt hf (hl y (.head _)) hc
    exact forall_mem_cons.2 ⟨mod_lt _ (zero_lt_of_lt hf), ih hcarry fun z hz => hl z (.tail _ hz)⟩

theorem mul_top (hf : f < b) (hf0 : f ≠ 0) (hc : c < b) (hl : Canonical b l) :
    ∀ h : mul b f c l ≠ [], (mul b f c l).getLast h ≠ 0 := by
  induction l generalizing c with
  | nil =>
    rw [mul]
    split
    next hne => exact fun _ => hne
    · exact fun h => absurd rfl h
  | cons x l ih =>
    have hcarry := carry_lt hf (hl.lt x (.head _)) hc
    intro h
    cases l with
    | nil =>
      have hx : x ≠ 0 := hl.top (cons_ne_nil _ _)
      have hpos : 0 < x * f + c :=
        Nat.add_pos_left (Nat.mul_pos (Nat.pos_of_ne_zero hx) (Nat.pos_of_ne_zero hf0)) c
      by_cases hdiv : (x * f + c) / b = 0
      · have hlt := (div_eq_zero_iff_lt (zero_lt_of_lt hf)).1 hdiv
        simp only [mul, hdiv, mod_eq_of_lt hlt]
        exact hpos.ne'
      · simp [mul, hdiv]
    | cons y l =>
      have htail : Canonical b (y :: l) :=
        ⟨fun z hz => hl.lt z (.tail _ hz), fun h => by
          have htop := hl.top (cons_ne_nil _ _)
          rwa [getLast_cons h] at htop⟩
      have hne : mul b f ((x * f + c) / b) (y :: l) ≠ [] := cons_ne_nil _ _
      exact ih hcarry htail hne

theorem Canonical.mul (hl : Canonical b l) (hf : f < b) (hf0 : f ≠ 0) :
    Canonical b (mul b f 0 l) :=
  ⟨mul_lt hf (zero_lt_of_lt hf) hl.lt, mul_top hf hf0 (zero_lt_of_lt hf) hl⟩

/-! ## Without zeros at the top -/

def normalize (l : List ℕ) : List ℕ := l.rdropWhile (· = 0)

theorem val_normalize (b : ℕ) (l : List ℕ) : val b (normalize l) = val b l := by
  induction l using reverseRecOn with
  | nil => rfl
  | append_singleton l x ih =>
    rw [normalize, rdropWhile_concat]
    split
    next h =>
      rw [of_decide_eq_true h]
      exact ih.trans (ofDigits_append_zero l).symm
    · rfl

theorem canonical_normalize (hl : ∀ x ∈ l, x < b) : Canonical b (normalize l) :=
  ⟨fun x hx => hl x (( rdropWhile_prefix _ l).subset hx), fun h hzero =>
    rdropWhile_last_not _ _ h (decide_eq_true hzero)⟩

/-! ## Sums -/

/-- The sum of two lists of limbs, with a carry. A list that ends first goes on with zeros. -/
def add (b : ℕ) : ℕ → List ℕ → List ℕ → List ℕ
  | c, [], [] => if c ≠ 0 then [c] else []
  | c, x :: l, [] => (x + 0 + c) % b :: add b ((x + 0 + c) / b) l []
  | c, [], y :: m => (0 + y + c) % b :: add b ((0 + y + c) / b) [] m
  | c, x :: l, y :: m => (x + y + c) % b :: add b ((x + y + c) / b) l m

theorem val_add (b c : ℕ) (l m : List ℕ) : val b (add b c l m) = val b l + val b m + c := by
  fun_induction add b c l m with
  | case1 c h => simp
  | case2 c h => simp [not_not.1 h]
  | case3 c x l ih =>
    have hsplit := mod_add_div (x + 0 + c) b
    rw [val_cons, ih, val_cons, val_nil]
    linarith [mul_add b (val b l + 0) ((x + 0 + c) / b)]
  | case4 c y m ih =>
    have hsplit := mod_add_div (0 + y + c) b
    rw [val_cons, ih, val_cons, val_nil]
    linarith [mul_add b (0 + val b m) ((0 + y + c) / b)]
  | case5 c x l y m ih =>
    have hsplit := mod_add_div (x + y + c) b
    rw [val_cons, ih, val_cons, val_cons]
    linarith [mul_add b (val b l + val b m) ((x + y + c) / b)]

theorem sum_carry_lt {x y : ℕ} (hx : x < b) (hy : y < b) (hc : c < 2) : (x + y + c) / b < 2 := by
  refine Nat.div_lt_of_lt_mul ?_
  omega

theorem add_lt (hb : 1 < b) (hc : c < 2) (hl : ∀ x ∈ l, x < b) (hm : ∀ x ∈ m, x < b) :
    ∀ x ∈ add b c l m, x < b := by
  have hzero : 0 < b := zero_lt_of_lt hb
  fun_induction add b c l m with
  | case1 c h =>
    intro x hx
    rw [mem_singleton.1 hx]
    omega
  | case2 c h => exact fun x hx => absurd hx not_mem_nil
  | case3 c x l ih =>
    exact forall_mem_cons.2 ⟨mod_lt _ hzero,
      ih (sum_carry_lt (hl x (.head _)) hzero hc) (fun w hw => hl w (.tail _ hw)) hm⟩
  | case4 c y m ih =>
    exact forall_mem_cons.2 ⟨mod_lt _ hzero,
      ih (sum_carry_lt hzero (hm y (.head _)) hc) hl fun w hw => hm w (.tail _ hw)⟩
  | case5 c x l y m ih =>
    exact forall_mem_cons.2 ⟨mod_lt _ hzero, ih (sum_carry_lt (hl x (.head _)) (hm y (.head _)) hc)
        (fun w hw => hl w (.tail _ hw)) fun w hw => hm w (.tail _ hw)⟩

/-! ## Quotients by one limb -/

/-- Long division of limbs given from the top: the quotient's limbs from the top, and what is
left. -/
def divDown (b d : ℕ) : ℕ → List ℕ → List ℕ × ℕ
  | r, [] => ([], r)
  | r, x :: l =>
    ((r * b + x) / d :: (divDown b d ((r * b + x) % d) l).1, (divDown b d ((r * b + x) % d) l).2)

theorem length_divDown (b d r : ℕ) (l : List ℕ) : (divDown b d r l).1.length = l.length := by
  induction l generalizing r with
  | nil => rfl
  | cons x l ih => rw [divDown, length_cons, length_cons, ih]

theorem val_reverse_cons (x : ℕ) (l : List ℕ) :
    val b (x :: l).reverse = val b l.reverse + b ^ l.length * x := ofDigits_reverse_cons l x

theorem divDown_val (b d r : ℕ) (l : List ℕ) :
    d * val b (divDown b d r l).1.reverse + (divDown b d r l).2 =
      r * b ^ l.length + val b l.reverse := by
  induction l generalizing r with
  | nil => simp [divDown]
  | cons x l ih =>
    have hsplit := mod_add_div (r * b + x) d
    have hih := ih ((r * b + x) % d)
    rw [divDown, val_reverse_cons, val_reverse_cons, length_divDown]
    calc d * (val b (divDown b d ((r * b + x) % d) l).1.reverse + b ^ l.length * ((r * b + x) / d)) +
          (divDown b d ((r * b + x) % d) l).2
        = (d * val b (divDown b d ((r * b + x) % d) l).1.reverse +
            (divDown b d ((r * b + x) % d) l).2) + b ^ l.length * (d * ((r * b + x) / d)) := by ring
      _ = b ^ l.length * ((r * b + x) % d + d * ((r * b + x) / d)) + val b l.reverse := by
          rw [hih]
          ring
      _ = r * (b ^ l.length * b) + (val b l.reverse + b ^ l.length * x) := by
          rw [hsplit]
          ring

theorem divDown_rem_lt (b : ℕ) (hd : 0 < d) {r : ℕ} (hr : r < d) (l : List ℕ) :
    (divDown b d r l).2 < d := by
  induction l generalizing r with
  | nil => exact hr
  | cons x l ih => exact ih (mod_lt _ hd)

theorem divDown_lt (hd : 0 < d) {r : ℕ} (hr : r < d) (hl : ∀ x ∈ l, x < b) :
    ∀ x ∈ (divDown b d r l).1, x < b := by
  induction l generalizing r with
  | nil => exact fun x hx => absurd hx not_mem_nil
  | cons y l ih =>
    refine forall_mem_cons.2 ⟨?_, ih (mod_lt _ hd) fun z hz => hl z (.tail _ hz)⟩
    refine Nat.div_lt_of_lt_mul ?_
    calc r * b + y < r * b + b := Nat.add_lt_add_left (hl y (.head _)) _
      _ = (r + 1) * b := (succ_mul r b).symm
      _ ≤ d * b := mul_le_mul_right b hr

/-! ## Comparison -/

/-- Limbs given from the top, compared limb by limb. -/
def lexCmp : List ℕ → List ℕ → Ordering
  | [], [] => .eq
  | [], _ :: _ => .lt
  | _ :: _, [] => .gt
  | x :: l, y :: m => (compare x y).then (lexCmp l m)

def cmp (l m : List ℕ) : Ordering := (compare l.length m.length).then (lexCmp l.reverse m.reverse)

theorem val_lt_pow (hb : 1 < b) (hl : ∀ x ∈ l, x < b) : val b l < b ^ l.length :=
  ofDigits_lt_base_pow_length hb hl

theorem compare_add_right (x y z : ℕ) : compare (x + z) (y + z) = compare x y := by
  rcases lt_trichotomy x y with h | rfl | h
  · rw [Nat.compare_eq_lt.2 h, Nat.compare_eq_lt.2 (Nat.add_lt_add_right h z)]
  · rw [Nat.compare_eq_eq.2 rfl, Nat.compare_eq_eq.2 rfl]
  · rw [Nat.compare_eq_gt.2 h, Nat.compare_eq_gt.2 (Nat.add_lt_add_right h z)]

theorem lexCmp_eq (hb : 1 < b) (hlen : l.length = m.length) (hl : ∀ x ∈ l, x < b)
    (hm : ∀ x ∈ m, x < b) : lexCmp l m = compare (val b l.reverse) (val b m.reverse) := by
  induction l generalizing m with
  | nil =>
    rw [eq_nil_of_length_eq_zero hlen.symm]
    rfl
  | cons x l ih =>
    cases m with
    | nil => cases hlen
    | cons y m =>
      have hlen' : l.length = m.length := succ.inj hlen
      have hlo : val b l.reverse < b ^ l.length := by
        rw [← length_reverse]
        exact val_lt_pow hb fun z hz => hl z (.tail _ (mem_reverse.1 hz))
      have hmo : val b m.reverse < b ^ l.length := by
        rw [hlen', ← length_reverse]
        exact val_lt_pow hb fun z hz => hm z (.tail _ (mem_reverse.1 hz))
      rw [lexCmp, val_reverse_cons, val_reverse_cons, ← hlen']
      rcases lt_trichotomy x y with hlt | rfl | hgt
      · have hstep := mul_le_mul_left (b ^ l.length) (succ_le_of_lt hlt)
        rw [mul_succ] at hstep
        rw [Nat.compare_eq_lt.2 hlt, Ordering.lt_then, Nat.compare_eq_lt.2 (by omega)]
      · rw [Nat.compare_eq_eq.2 rfl,
          ih hlen' (fun z hz => hl z (.tail _ hz)) fun z hz => hm z (.tail _ hz)]
        exact (compare_add_right _ _ _).symm
      · have hstep := mul_le_mul_left (b ^ l.length) (succ_le_of_lt hgt)
        rw [mul_succ] at hstep
        rw [Nat.compare_eq_gt.2 hgt, Ordering.gt_then, Nat.compare_eq_gt.2 (by omega)]

theorem val_lt_of_length_lt (hb : 1 < b) (hl : Canonical b l) (hm : Canonical b m)
    (h : l.length < m.length) : val b l < val b m := by
  have hne : m ≠ [] := by
    rintro rfl
    exact absurd h (not_lt_zero _)
  obtain ⟨c, rfl⟩ := Nat.exists_eq_add_of_le' hb
  have hpow : (c + 2) ^ m.length ≤ (c + 2) * val (c + 2) m :=
    pow_length_le_mul_ofDigits hne (hm.top hne)
  have hsmall : (c + 2) ^ (l.length + 1) ≤ (c + 2) ^ m.length :=
    Nat.pow_le_pow_right (Nat.succ_pos _) h
  have hlt := val_lt_pow hb hl.lt
  rw [pow_succ, mul_comm] at hsmall
  exact hlt.trans_le (le_of_mul_le_mul_left (hsmall.trans hpow) (succ_pos _))

/-- The longer number is the larger one, and numbers of one length differ first at the top. -/
theorem cmp_eq (hb : 1 < b) (hl : Canonical b l) (hm : Canonical b m) :
    cmp l m = compare (val b l) (val b m) := by
  rw [cmp]
  rcases lt_trichotomy _ m.length with hlt | heq | hgt
  · rw [Nat.compare_eq_lt.2 hlt, Nat.compare_eq_lt.2 (val_lt_of_length_lt hb hl hm hlt)]
    rfl
  · rw [Nat.compare_eq_eq.2 heq, Ordering.eq_then,
      lexCmp_eq hb (by rw [length_reverse, length_reverse, heq])
        (fun x hx => hl.lt x (mem_reverse.1 hx)) fun x hx => hm.lt x (mem_reverse.1 hx),
      reverse_reverse, reverse_reverse]
  · rw [Nat.compare_eq_gt.2 hgt, Nat.compare_eq_gt.2 (val_lt_of_length_lt hb hm hl hgt)]
    rfl

end TraceCommons.Limbs
