import TraceCommons.Gate.Amount

/-! # Credit amounts as text

A ledger row keeps its amount as a decimal text (`Microcredits::to_credit_decimal`). Reading the
text back gives the amount, and the reader takes no text but the decimals of at most six places. -/

namespace TraceCommons

open List Nat

/-- `str::trim_end_matches`, of one character. -/
def trimEnd (c : Char) (cs : List Char) : List Char := (cs.reverse.dropWhile (· = c)).reverse

/-- `{:06}`. -/
def pad6 (n : Nat) : List Char :=
  List.replicate (6 - (Nat.toDigits 10 n).length) '0' ++ Nat.toDigits 10 n

def Microcredits.toCreditDecimal (n : Nat) : List Char :=
  let whole := Nat.toDigits 10 (n / microcreditsPerCredit)
  let fractional := n % microcreditsPerCredit
  if fractional = 0 then whole else trimEnd '0' (whole ++ '.' :: pad6 fractional)

/-! ## Digits -/

theorem digitsValue_eq (cs : List Char) : digitsValue cs = ofDigitChars 10 cs 0 := by
  simp [digitsValue, ofDigitChars, mul_comm 10]

@[simp] theorem digitsValue_toDigits (n : Nat) : digitsValue (toDigits 10 n) = n := by
  rw [digitsValue_eq, ofDigitChars_toDigits (by decide) (by decide)]

/-- Zeros at the end are factors of ten. -/
theorem digitsValue_append_zeros (cs : List Char) (k : Nat) :
    digitsValue (cs ++ replicate k '0') = digitsValue cs * 10 ^ k := by
  rw [digitsValue_eq, digitsValue_eq, ofDigitChars_append, ofDigitChars_replicate_zero, mul_comm]

theorem digitsValue_zeros_append (cs : List Char) (k : Nat) :
    digitsValue (replicate k '0' ++ cs) = digitsValue cs := by
  rw [digitsValue_eq, digitsValue_eq, ofDigitChars_append, ofDigitChars_replicate_zero, mul_zero]

variable {n : Nat} {c : Char}

theorem isDigit_toDigits (h : c ∈ toDigits 10 n) : c.isDigit :=
  isDigit_of_mem_toDigits (by decide) (by decide) h

theorem isDigit_pad6 (h : c ∈ pad6 n) : c.isDigit := by
  rw [pad6, mem_append] at h
  rcases h with h | h
  · rw [eq_of_mem_replicate h]
    rfl
  · exact isDigit_toDigits h

theorem length_pad6 (h : n < 1000000) : (pad6 n).length = 6 := by
  have hlen : (toDigits 10 n).length ≤ 6 :=
    (length_toDigits_le_iff (by decide) (by decide)).2 h
  rw [pad6, length_append, length_replicate]
  omega

theorem digitsValue_pad6 (n : Nat) : digitsValue (pad6 n) = n := by
  rw [pad6, digitsValue_zeros_append, digitsValue_toDigits]

/-! ## Trimmed zeros -/

theorem trimEnd_append_zeros (c : Char) (cs : List Char) :
    trimEnd c cs ++ replicate (cs.length - (trimEnd c cs).length) c = cs := by
  have hsplit := takeWhile_append_dropWhile (p := (· = c)) (l := cs.reverse)
  have hzeros : cs.reverse.takeWhile (· = c) =
      replicate (cs.reverse.takeWhile (· = c)).length c :=
    eq_replicate_of_mem fun x hx => by
      have hall := all_takeWhile (p := (· = c)) (l := cs.reverse)
      exact of_decide_eq_true (all_eq_true.1 hall x hx)
  have hlen : cs.length - (trimEnd c cs).length = (cs.reverse.takeWhile (· = c)).length := by
    have h := congrArg length hsplit
    simp only [length_append, length_reverse] at h
    rw [trimEnd, length_reverse]
    omega
  rw [hlen, ← reverse_replicate, ← hzeros, trimEnd, ← reverse_append, hsplit, reverse_reverse]

theorem trimEnd_subset (c : Char) (cs : List Char) : trimEnd c cs ⊆ cs := by
  intro x hx
  rw [← trimEnd_append_zeros c cs]
  exact mem_append_left _ hx

/-- The trim stops in the second part when that is not all zeros. -/
theorem trimEnd_append {as bs : List Char} (h : trimEnd c bs ≠ []) :
    trimEnd c (as ++ bs) = as ++ trimEnd c bs := by
  have hne : bs.reverse.dropWhile (· = c) ≠ [] := fun he => h (by simp [trimEnd, he])
  rw [trimEnd, reverse_append, dropWhile_append, trimEnd]
  simp [hne]

/-! ## Reading back -/

namespace Microcredits

theorem foldl_mul_ten {m k : Nat} (h : m * 10 ^ k < 2 ^ 64) :
    (range k).foldlM (fun m _ => checkedMul 64 m 10) m = some (m * 10 ^ k) := by
  induction k with
  | zero => simp
  | succ k ih =>
    rw [pow_succ, ← mul_assoc] at h ⊢
    rw [range_succ, foldlM_append, ih (by omega)]
    simp [checkedMul_eq_some.2 ⟨h, rfl⟩]

/-- The kernel must not evaluate a product with the literal while it reduces the matches. -/
theorem exists_mul : ∃ mul : Nat → Option Nat, ∀ n, checkedMul 64 n microcreditsPerCredit = mul n :=
  ⟨_, fun _ => rfl⟩

theorem ne_of_isDigit {d : Char} (h : c.isDigit) (hd : ¬ d.isDigit) : c ≠ d :=
  fun heq => hd (heq ▸ h)

/-- The steps of the reader, one after another. -/
theorem fromCreditDecimal_eq_ok {value whole fractional : List Char} {a b m t : Nat}
    (hhead : ¬ (value = [] ∨ value.head? = some '-' ∨ value.head? = some '+'))
    (hwhole : value.takeWhile (· ≠ '.') = whole)
    (hfractional : (value.dropWhile (· ≠ '.')).drop 1 = fractional)
    (hdigits : ¬ (whole = [] ∨ ¬ whole.all Char.isDigit ∨ ¬ fractional.all Char.isDigit))
    (hlen : ¬ fractional.length > 6) (hparse : parseU64 whole = some a)
    (hcredits : checkedMul 64 a microcreditsPerCredit = some b)
    (hmicros : (if fractional = [] then some 0 else parseU64 fractional) = some m)
    (hscale : (range (6 - fractional.length)).foldlM (fun m _ => checkedMul 64 m 10) m = some n)
    (hadd : checkedAdd 64 b n = some t) : fromCreditDecimal value = .ok t := by
  subst hwhole hfractional
  obtain ⟨_, hmul⟩ := exists_mul
  rw [hmul] at hcredits
  unfold fromCreditDecimal
  rw [if_neg hhead, if_neg hdigits, if_neg hlen]
  simp only [hmul]
  simp only [hparse, hcredits, hmicros, hscale, hadd]
  rfl

/-- A whole part and a fraction of at most six digits. -/
theorem fromCreditDecimal_parts {w f : List Char} (hw : w ≠ []) (hwd : ∀ c ∈ w, c.isDigit)
    (hfd : ∀ c ∈ f, c.isDigit) (hf : f.length ≤ 6)
    (hlt : digitsValue w * microcreditsPerCredit + digitsValue f * 10 ^ (6 - f.length) < 2 ^ 64)
    {t : List Char} (ht : t = w ∧ f = [] ∨ t = w ++ '.' :: f) :
    fromCreditDecimal t =
      .ok (digitsValue w * microcreditsPerCredit + digitsValue f * 10 ^ (6 - f.length)) := by
  have hdot : ∀ c ∈ w, decide (c ≠ '.') = true := fun c hc =>
    decide_eq_true (ne_of_isDigit (hwd c hc) (by decide))
  obtain ⟨htake, hdrop, r, hr⟩ : t.takeWhile (· ≠ '.') = w ∧
      (t.dropWhile (· ≠ '.')).drop 1 = f ∧ ∃ r, t = w ++ r := by
    rcases ht with ⟨rfl, rfl⟩ | rfl
    · rw [takeWhile_eq_self_iff.2 hdot, dropWhile_eq_nil_iff.2 hdot]
      exact ⟨rfl, rfl, [], (append_nil _).symm⟩
    · rw [takeWhile_append_of_pos hdot, dropWhile_append_of_pos hdot]
      exact ⟨by simp, by simp, _, rfl⟩
  obtain ⟨c, w', rfl⟩ := exists_cons_of_ne_nil hw
  have hc := hwd c (.head _)
  have hhead : ¬ (t = [] ∨ t.head? = some '-' ∨ t.head? = some '+') := by
    have hminus : c ≠ '-' := ne_of_isDigit hc (by decide)
    have hplus : c ≠ '+' := ne_of_isDigit hc (by decide)
    simp [hr, hminus, hplus]
  have hwhole : digitsValue (c :: w') * microcreditsPerCredit < 2 ^ 64 :=
    lt_of_le_of_lt (le_add_right _ _) hlt
  have hpow : 0 < 10 ^ (6 - f.length) := Nat.pow_pos (by decide)
  have hfrac : digitsValue f < 2 ^ 64 :=
    Nat.lt_of_le_of_lt (Nat.le_trans (Nat.le_mul_of_pos_right _ hpow) (Nat.le_add_left _ _)) hlt
  have hdigits : ¬ (c :: w' = [] ∨ ¬ (c :: w').all Char.isDigit ∨ ¬ f.all Char.isDigit) := by
    rw [all_eq_true.2 hwd, all_eq_true.2 hfd]
    simp
  have hmicros : (if f = [] then some 0 else parseU64 f) = some (digitsValue f) := by
    split
    next he => simp [he, digitsValue]
    · rw [parseU64, if_pos hfrac]
  have hparse : parseU64 (c :: w') = some (digitsValue (c :: w')) := by
    have hle : digitsValue (c :: w') ≤ digitsValue (c :: w') * microcreditsPerCredit :=
      Nat.le_mul_of_pos_right _ (by decide)
    rw [parseU64, if_pos (by omega)]
  exact fromCreditDecimal_eq_ok hhead htake hdrop hdigits (by omega) hparse
    (checkedMul_eq_some.2 ⟨hwhole, rfl⟩) hmicros (foldl_mul_ten (by omega))
    (checkedAdd_eq_some.2 ⟨hlt, rfl⟩)

theorem fromCreditDecimal_toCreditDecimal (h : n < 2 ^ 64) :
    fromCreditDecimal (toCreditDecimal n) = .ok n := by
  have hn : n / microcreditsPerCredit * microcreditsPerCredit + n % microcreditsPerCredit = n :=
    div_add_mod' n _
  have hwd : ∀ c ∈ toDigits 10 (n / microcreditsPerCredit), c.isDigit := fun c hc =>
    isDigit_toDigits hc
  unfold toCreditDecimal
  dsimp only
  split
  next hz =>
    rw [fromCreditDecimal_parts toDigits_ne_nil hwd (f := []) nofun (by simp) _ (.inl ⟨rfl, rfl⟩)]
    · rw [digitsValue_toDigits]
      simp only [digitsValue, foldl_nil, zero_mul]
      rw [← hz, hn]
    · rw [digitsValue_toDigits]
      simp only [digitsValue, foldl_nil]
      omega
  next hz =>
    have hlt : n % microcreditsPerCredit < 1000000 := mod_lt _ (by decide)
    generalize hf : trimEnd '0' (pad6 (n % microcreditsPerCredit)) = f
    have happ := trimEnd_append_zeros '0' (pad6 (n % microcreditsPerCredit))
    rw [hf, length_pad6 hlt] at happ
    have hlen : f.length ≤ 6 := by
      have := congrArg length happ
      rw [length_pad6 hlt, length_append] at this
      omega
    have hvalue : digitsValue f * 10 ^ (6 - f.length) = n % microcreditsPerCredit := by
      rw [← digitsValue_append_zeros, happ, digitsValue_pad6]
    have hne : f ≠ [] := by
      rintro rfl
      exact hz hvalue.symm
    have hfd : ∀ c ∈ f, c.isDigit := fun c hc =>
      isDigit_pad6 (trimEnd_subset '0' _ (hf ▸ hc))
    have htext : trimEnd '0'
        (toDigits 10 (n / microcreditsPerCredit) ++ '.' :: pad6 (n % microcreditsPerCredit)) =
        toDigits 10 (n / microcreditsPerCredit) ++ '.' :: f := by
      rw [append_cons, trimEnd_append (hf ▸ hne), hf, ← append_cons]
    rw [htext, fromCreditDecimal_parts toDigits_ne_nil hwd hfd hlen _ (.inr rfl)]
    · rw [digitsValue_toDigits, hvalue, hn]
    · rw [digitsValue_toDigits, hvalue, hn]
      exact h

/-! ## What is read -/

theorem eq_of_foldl_mul_ten {m k : Nat}
    (h : (range k).foldlM (fun m _ => checkedMul 64 m 10) m = some n) : n = m * 10 ^ k := by
  induction k generalizing n with
  | zero => simpa using h.symm
  | succ k ih =>
    rw [range_succ, foldlM_append] at h
    obtain ⟨q, hq, hlast⟩ := Option.bind_eq_some_iff.1 h
    simp only [foldlM_cons, foldlM_nil, bind_pure, checkedMul_eq_some] at hlast
    rw [← hlast.2, ih hq, pow_succ, mul_assoc]

theorem eq_of_parseU64 {cs : List Char} {a : Nat} (h : parseU64 cs = some a) :
    digitsValue cs = a := by
  unfold parseU64 at h
  split at h
  · exact Option.some.inj h
  · cases h

/-- A text is its part before the first point, and what follows the point. -/
theorem point_split (text : List Char) :
    text = text.takeWhile (· ≠ '.') ∧ (text.dropWhile (· ≠ '.')).drop 1 = [] ∨
      text = text.takeWhile (· ≠ '.') ++ '.' :: (text.dropWhile (· ≠ '.')).drop 1 := by
  have hsplit := takeWhile_append_dropWhile (p := (· ≠ '.')) (l := text)
  have hhead := head?_dropWhile_not (fun c => decide (c ≠ '.')) text
  cases hrest : text.dropWhile (· ≠ '.') with
  | nil =>
    rw [hrest, append_nil] at hsplit
    exact .inl ⟨hsplit.symm, rfl⟩
  | cons c r =>
    rw [hrest] at hsplit hhead
    have hc : c = '.' := by simpa using hhead
    rw [hc] at hsplit
    exact .inr hsplit.symm

/-- One or more digits, or those, a point and at most six digits more, worth `v` millionths. -/
def IsCreditDecimal (text : List Char) (v : Nat) : Prop :=
  ∃ w f : List Char, w ≠ [] ∧ (∀ c ∈ w, c.isDigit) ∧ (∀ c ∈ f, c.isDigit) ∧ f.length ≤ 6 ∧
    (text = w ∧ f = [] ∨ text = w ++ '.' :: f) ∧
    (v : ℚ) / microcreditsPerCredit = digitsValue w + digitsValue f / 10 ^ f.length

/-- The value in millionths, without a fraction. -/
theorem millionths_iff {v w d k : Nat} (hk : k ≤ 6) :
    (v : ℚ) / microcreditsPerCredit = w + d / 10 ^ k ↔
      v = w * microcreditsPerCredit + d * 10 ^ (6 - k) := by
  have hpow : (microcreditsPerCredit : ℚ) = 10 ^ (6 - k) * 10 ^ k := by
    rw [← pow_add, Nat.sub_add_cancel hk, microcreditsPerCredit]
    norm_num
  have hne : (10 : ℚ) ^ k ≠ 0 := by positivity
  have hne' : (10 : ℚ) ^ (6 - k) ≠ 0 := by positivity
  rw [← Nat.cast_inj (R := ℚ), Nat.cast_add, Nat.cast_mul, Nat.cast_mul, Nat.cast_pow, hpow,
    div_eq_iff (mul_ne_zero hne' hne)]
  field_simp
  rw [add_mul]
  norm_num

theorem isCreditDecimal_of_ok {text : List Char} {v : Nat} (h : fromCreditDecimal text = .ok v) :
    IsCreditDecimal text v ∧ v < 2 ^ 64 := by
  obtain ⟨mul, hmul⟩ := exists_mul
  unfold fromCreditDecimal at h
  simp only [hmul] at h
  split at h
  · cases h
  split at h
  · cases h
  next hdigits =>
  split at h
  · cases h
  next hlen =>
  split at h
  swap
  · cases h
  next a ha =>
  split at h
  swap
  · cases h
  next b hb =>
  split at h
  swap
  · cases h
  next m hm =>
  split at h
  swap
  · cases h
  next n hn =>
  split at h
  swap
  · cases h
  next t ht =>
  have hvalue : digitsValue (text.takeWhile (· ≠ '.')) = a := eq_of_parseU64 ha
  have hfraction : digitsValue ((text.dropWhile (· ≠ '.')).drop 1) = m := by
    split at hm
    next he =>
      rw [he]
      exact Option.some.inj hm
    · exact eq_of_parseU64 hm
  obtain ⟨-, rfl⟩ := checkedMul_eq_some.1 ((hmul a).trans hb)
  obtain ⟨hlt, rfl⟩ := checkedAdd_eq_some.1 ht
  cases h
  refine ⟨⟨_, _, fun he => hdigits (.inl he), ?_, ?_, not_lt.1 hlen, point_split text, ?_⟩, hlt⟩
  · simpa using fun h => hdigits (.inr (.inl h))
  · simpa using fun h => hdigits (.inr (.inr h))
  · rw [millionths_iff (not_lt.1 hlen), hvalue, hfraction, eq_of_foldl_mul_ten hn]

/-- An amount's text reads back as the amount, and what is read at all is the decimals of a `u64` of
millionths, with no rounding. A point may end the text. -/
theorem credit_decimals_exact : (∀ m < 2 ^ 64, fromCreditDecimal (toCreditDecimal m) = .ok m) ∧
    ∀ text v, fromCreditDecimal text = .ok v ↔ IsCreditDecimal text v ∧ v < 2 ^ 64 := by
  refine ⟨fun m => fromCreditDecimal_toCreditDecimal, fun text v => ⟨isCreditDecimal_of_ok, ?_⟩⟩
  rintro ⟨⟨w, f, hw, hwd, hfd, hf, htext, hv⟩, hlt⟩
  have hv := (millionths_iff hf).1 hv
  rw [hv] at hlt ⊢
  exact fromCreditDecimal_parts hw hwd hfd hf hlt htext

theorem credit_decimal_ends_in_point : fromCreditDecimal ['1', '.'] = .ok 1000000 ∧
    ¬ ∃ w f : List Char, w ≠ [] ∧ (∀ c ∈ w, c.isDigit) ∧
      (['1', '.'] = w ∨ f ≠ [] ∧ ['1', '.'] = w ++ '.' :: f) := by
  refine ⟨fromCreditDecimal_parts (w := ['1']) (f := []) nofun (by simp) nofun (by simp)
    (by decide) (.inr rfl), ?_⟩
  rintro ⟨w, f, hw, hwd, rfl | ⟨hf, heq⟩⟩
  · exact absurd (hwd '.' (by simp)) (by decide)
  · have hlen := congrArg length heq
    have hwl := length_pos_iff.2 hw
    have hfl := length_pos_iff.2 hf
    simp only [length_cons, length_append, length_nil] at hlen
    omega

end Microcredits

end TraceCommons
