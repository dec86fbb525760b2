import Mathlib

/-!
# Drawing down a pool in two units

A pool holds an amount in a base unit and, priced once, an amount in a quote
unit. Entries draw it down, each naming one of the pool's sources and an amount
in the base unit. An entry draws its own amount, capped by what is left, and the
quote of that; the entry after which every source of the pool has been seen
draws whatever is left in both units. A source draws at most once, an entry whose
amount is unknown draws nothing, and neither does one whose base draw is zero.

`Pool.run` folds a list of entries and returns the draws. The results: the pool
is never overdrawn, when its last source is seen the base unit is drawn exactly
(the quote unit under a condition on the amounts), and a run repeated over
entries already run draws nothing more.
-/

namespace TraceCommons.Drawdown

open List

variable {ι σ : Type*} [DecidableEq σ]

structure Pool (σ : Type*) where
  base : Nat
  quote : Nat
  sources : List σ
  price : Nat → Nat

/-- What has been drawn, and the sources seen on the way. -/
structure Drawn (σ : Type*) where
  seen : Finset σ
  base : Nat
  quote : Nat

structure Entry (ι σ : Type*) where
  label : ι
  source : σ
  amount : Option Nat

structure Draw (ι σ : Type*) where
  label : ι
  source : σ
  base : Nat
  quote : Nat

namespace Pool

variable (P : Pool σ)

/-- Every source of the pool is in `S`. -/
def Covered (S : Finset σ) : Prop := ∀ e ∈ P.sources, e ∈ S

instance (P : Pool σ) (S : Finset σ) : Decidable (P.Covered S) :=
  inferInstanceAs (Decidable (∀ e ∈ P.sources, e ∈ S))

variable {S : Finset σ}

omit [DecidableEq σ] in
theorem Covered.mono {P : Pool σ} {T : Finset σ} (h : P.Covered S) (hST : S ⊆ T) :
    P.Covered T := fun e he => hST (h e he)

/-- What an entry of amount `a` draws, in both units, once its source is in `seen`. -/
def share (seen : Finset σ) (base quote a : Nat) : Nat × Nat :=
  if P.Covered seen then (P.base - base, P.quote - quote)
  else (min a (P.base - base), min (P.price (min a (P.base - base))) (P.quote - quote))

def step (t : Drawn σ) (r : Entry ι σ) : Drawn σ × Option (Draw ι σ) :=
  if r.source ∈ t.seen then (t, none)
  else
    let seen := insert r.source t.seen
    match r.amount with
    | none => ({ t with seen := seen }, none)
    | some a =>
      let d := P.share seen t.base t.quote a
      if d.1 = 0 then ({ t with seen := seen }, none)
      else (⟨seen, t.base + d.1, t.quote + d.2⟩, some ⟨r.label, r.source, d.1, d.2⟩)

def run (P : Pool σ) : Drawn σ → List (Entry ι σ) → Drawn σ × List (Draw ι σ)
  | t, [] => (t, [])
  | t, r :: rs =>
    let s := P.step t r
    let rest := run P s.1 rs
    (rest.1, s.2.toList ++ rest.2)

/-- An entry that draws nothing: its amount is unknown, or its share is zero. -/
def Idle (t : Drawn σ) (r : Entry ι σ) : Prop :=
  r.amount = none ∨
    ∃ a, r.amount = some a ∧ (P.share (insert r.source t.seen) t.base t.quote a).1 = 0

/-- What one entry can do: nothing, only mark its source, or draw. -/
theorem step_cases (t : Drawn σ) (r : Entry ι σ) : (r.source ∈ t.seen ∧ P.step t r = (t, none)) ∨
    (r.source ∉ t.seen ∧ P.Idle t r ∧
      P.step t r = ({ t with seen := insert r.source t.seen }, none)) ∨
    (∃ a b q, r.source ∉ t.seen ∧ r.amount = some a ∧ b ≠ 0 ∧
      P.share (insert r.source t.seen) t.base t.quote a = (b, q) ∧
      P.step t r = (⟨insert r.source t.seen, t.base + b, t.quote + q⟩,
        some ⟨r.label, r.source, b, q⟩)) := by
  by_cases hs : r.source ∈ t.seen
  · exact .inl ⟨hs, by simp [step, hs]⟩
  cases ha : r.amount with
  | none => exact .inr (.inl ⟨hs, .inl ha, by simp [step, hs, ha]⟩)
  | some a =>
    by_cases hd : (P.share (insert r.source t.seen) t.base t.quote a).1 = 0
    · exact .inr (.inl ⟨hs, .inr ⟨a, ha, hd⟩, by simp [step, hs, ha, hd]⟩)
    · simp [step, hs, ha, hd]

variable {t : Drawn σ}

theorem run_induct_from (I : Drawn σ → List (Draw ι σ) → Prop) (rs : List (Entry ι σ))
    (hstep : ∀ t ds, ∀ r ∈ rs, I t ds → I (P.step t r).1 (ds ++ (P.step t r).2.toList))
    {ds : List (Draw ι σ)} (h : I t ds) : I (P.run t rs).1 (ds ++ (P.run t rs).2) := by
  induction rs generalizing t ds with
  | nil => simpa [run] using h
  | cons r rs ih =>
    have h1 := hstep t ds r (by simp) h
    have h2 := ih (fun t ds r' hr' => hstep t ds r' (by simp [hr'])) h1
    simpa [run] using h2

/-- A property of the progress and the draws so far that each entry keeps holds after a run. -/
theorem run_induct (I : Drawn σ → List (Draw ι σ) → Prop) (rs : List (Entry ι σ))
    (hstep : ∀ t ds, ∀ r ∈ rs, I t ds → I (P.step t r).1 (ds ++ (P.step t r).2.toList))
    (h : I t []) : I (P.run t rs).1 (P.run t rs).2 := by
  simpa using P.run_induct_from I rs hstep h

theorem run_append (t : Drawn σ) (l1 l2 : List (Entry ι σ)) : P.run t (l1 ++ l2) =
      ((P.run (P.run t l1).1 l2).1, (P.run t l1).2 ++ (P.run (P.run t l1).1 l2).2) := by
  induction l1 generalizing t with
  | nil => simp [run]
  | cons r l1 ih => simp [run, ih]

theorem run_snoc (t : Drawn σ) (rs : List (Entry ι σ)) (r : Entry ι σ) :
    P.run t (rs ++ [r]) = ((P.step (P.run t rs).1 r).1,
      (P.run t rs).2 ++ (P.step (P.run t rs).1 r).2.toList) := by
  simp [run_append, run]

theorem run_cons (t : Drawn σ) (r : Entry ι σ) (rs : List (Entry ι σ)) : P.run t (r :: rs) =
      ((P.run (P.step t r).1 rs).1, (P.step t r).2.toList ++ (P.run (P.step t r).1 rs).2) := rfl

theorem covered_inter (S : Finset σ) : P.Covered (S ∩ P.sources.toFinset) ↔ P.Covered S := by
  constructor
  · exact fun h => h.mono Finset.inter_subset_left
  · exact fun h e he => Finset.mem_inter.2 ⟨h e he, mem_toFinset.2 he⟩

/-- Only the pool's own sources matter to a step. -/
theorem step_inter (t : Drawn σ) (r : Entry ι σ) (hr : r.source ∈ P.sources) :
    P.step { t with seen := t.seen ∩ P.sources.toFinset } r =
      ({ (P.step t r).1 with seen := (P.step t r).1.seen ∩ P.sources.toFinset },
        (P.step t r).2) := by
  have hmem : r.source ∈ t.seen ∩ P.sources.toFinset ↔ r.source ∈ t.seen := by simp [hr]
  have hins : insert r.source (t.seen ∩ P.sources.toFinset) =
      insert r.source t.seen ∩ P.sources.toFinset := by
    rw [Finset.insert_inter_of_mem (mem_toFinset.2 hr)]
  have hshare : ∀ a, P.share (insert r.source t.seen ∩ P.sources.toFinset) t.base t.quote a =
      P.share (insert r.source t.seen) t.base t.quote a := fun a => by
    simp [share, covered_inter]
  unfold step
  simp only [hmem, hins]
  split
  · rfl
  · split
    · rfl
    · simp only [hshare]; split <;> rfl

/-! ## What a run leaves -/

theorem step_seen (t : Drawn σ) (r : Entry ι σ) : (P.step t r).1.seen = insert r.source t.seen := by
  rcases P.step_cases t r with ⟨h, e⟩ | ⟨_, _, e⟩ | ⟨_, _, _, _, _, _, _, e⟩
  · rw [e, Finset.insert_eq_of_mem h]
  all_goals rw [e]

theorem run_seen (t : Drawn σ) (rs : List (Entry ι σ)) :
    (P.run t rs).1.seen = t.seen ∪ (rs.map (·.source)).toFinset := by
  induction rs generalizing t with
  | nil => simp [run]
  | cons r rs ih =>
    rw [run_cons, ih, step_seen]
    simp

theorem run_base (t : Drawn σ) (rs : List (Entry ι σ)) :
    (P.run t rs).1.base = t.base + ((P.run t rs).2.map (·.base)).sum := by
  refine P.run_induct (fun t' ds => t'.base = t.base + (ds.map _).sum) rs ?_ (by simp)
  intro t' ds r _ h
  rcases P.step_cases t' r with ⟨_, e⟩ | ⟨_, _, e⟩ | ⟨_, _, _, _, _, _, _, e⟩
  all_goals rw [e]; simp [h, Nat.add_assoc]

theorem run_quote (t : Drawn σ) (rs : List (Entry ι σ)) :
    (P.run t rs).1.quote = t.quote + ((P.run t rs).2.map (·.quote)).sum := by
  refine P.run_induct (fun t' ds => t'.quote = t.quote + (ds.map _).sum) rs ?_ (by simp)
  intro t' ds r _ h
  rcases P.step_cases t' r with ⟨_, e⟩ | ⟨_, _, e⟩ | ⟨_, _, _, _, _, _, _, e⟩
  all_goals rw [e]; simp [h, Nat.add_assoc]

variable {rs : List (Entry ι σ)}

/-- A draw answers one of the entries, for a source not seen before the run. -/
theorem run_draw_mem (t : Drawn σ) {d : Draw ι σ} (hd : d ∈ (P.run t rs).2) :
    d.source ∉ t.seen ∧ d.base ≠ 0 ∧ ∃ r ∈ rs, r.label = d.label ∧ r.source = d.source := by
  induction rs generalizing t with
  | nil => simp [run] at hd
  | cons r rs ih =>
    rw [run_cons, mem_append] at hd
    rcases hd with hd | hd
    · rcases P.step_cases t r with
        ⟨_, e⟩ | ⟨_, _, e⟩ | ⟨a, b, q, hs, _, hb, _, e⟩
      all_goals simp [e] at hd
      subst hd
      exact ⟨hs, hb, r, by simp, rfl, rfl⟩
    · obtain ⟨hs, hb, r', hr', hl⟩ := ih _ hd
      rw [step_seen] at hs
      exact ⟨fun h => hs (Finset.mem_insert_of_mem h), hb, r', by simp [hr'], hl⟩

theorem run_draw_labels (t : Drawn σ) (rs : List (Entry ι σ)) :
    List.Sublist ((P.run t rs).2.map (·.label)) (rs.map (·.label)) := by
  induction rs generalizing t with
  | nil => simp [run]
  | cons r rs ih =>
    rw [run_cons]
    rcases P.step_cases t r with ⟨_, e⟩ | ⟨_, _, e⟩ | ⟨_, _, _, _, _, _, _, e⟩
    all_goals rw [e]
    · exact (ih _).cons _
    · exact (ih _).cons _
    · exact (ih _).cons_cons _

/-! ## The pool is never overdrawn -/

structure Fits (P : Pool σ) (t : Drawn σ) : Prop where
  base : t.base ≤ P.base
  quote : t.quote ≤ P.quote

theorem share_le (S : Finset σ) (b q a : Nat) :
    (P.share S b q a).1 ≤ P.base - b ∧ (P.share S b q a).2 ≤ P.quote - q := by
  unfold share
  split
  · exact ⟨le_refl _, le_refl _⟩
  · exact ⟨min_le_right .., min_le_right ..⟩

theorem step_fits {P : Pool σ} (h : P.Fits t) (r : Entry ι σ) : P.Fits (P.step t r).1 := by
  obtain ⟨hb, hq⟩ := h
  rcases P.step_cases t r with ⟨_, e⟩ | ⟨_, _, e⟩ | ⟨a, b, q, _, _, _, hd, e⟩
  · rw [e]; exact ⟨hb, hq⟩
  · rw [e]; exact ⟨hb, hq⟩
  · have := P.share_le (insert r.source t.seen) t.base t.quote a
    rw [hd] at this
    rw [e]
    exact ⟨by simp; omega, by simp; omega⟩

theorem run_fits {P : Pool σ} (h : P.Fits t) (rs : List (Entry ι σ)) : P.Fits (P.run t rs).1 :=
  P.run_induct (fun t' _ => P.Fits t') rs (fun _ _ r _ h => step_fits h r) h

/-- A pool whose base unit is drawn gives nothing more. -/
theorem run_full {P : Pool σ} (h : t.base = P.base) (rs : List (Entry ι σ)) :
    (P.run t rs).2 = [] := by
  refine (P.run_induct (fun t' ds => t'.base = P.base ∧ ds = []) rs ?_ ⟨h, rfl⟩).2
  rintro t' ds r - ⟨hb, rfl⟩
  rcases P.step_cases t' r with ⟨_, e⟩ | ⟨_, _, e⟩ | ⟨a, b, q, _, _, hne, hd, e⟩
  · rw [e]; exact ⟨hb, rfl⟩
  · rw [e]; exact ⟨hb, rfl⟩
  · have := (P.share_le (insert r.source t'.seen) t'.base t'.quote a).1
    rw [hd, hb, Nat.sub_self] at this
    exact absurd (Nat.le_zero.1 this) hne

/-! ## The last source draws the rest -/

/-- Sources a list of draws names, on top of `S`. -/
def drawnSources (S : Finset σ) (ds : List (Draw ι σ)) : Finset σ :=
  S ∪ (ds.map (·.source)).toFinset

@[simp] theorem drawnSources_nil (S : Finset σ) :
    drawnSources S ([] : List (Draw ι σ)) = S := by simp [drawnSources]

@[simp] theorem drawnSources_snoc (S : Finset σ) (ds : List (Draw ι σ)) (d : Draw ι σ) :
    drawnSources S (ds ++ [d]) = insert d.source (drawnSources S ds) := by
  simp [drawnSources]

theorem share_covered {P : Pool σ} (h : P.Covered S) (b q a : Nat) :
    P.share S b q a = (P.base - b, P.quote - q) := if_pos h

theorem share_uncovered {P : Pool σ} (h : ¬ P.Covered S) (b q a : Nat) :
    P.share S b q a =
      (min a (P.base - b), min (P.price (min a (P.base - b))) (P.quote - q)) := if_neg h

/-- Once every source has been seen with a known amount, the base unit is drawn exactly. -/
theorem run_base_of_seen {P : Pool σ} (hf : P.Fits t) (hstart : P.Covered t.seen → t.base = P.base)
    (hknown : ∀ r ∈ rs, r.amount ≠ none) (hcov : P.Covered (P.run t rs).1.seen) :
    (P.run t rs).1.base = P.base := by
  refine (P.run_induct (fun t' _ => P.Fits t' ∧ (P.Covered t'.seen → t'.base = P.base)) rs ?_
    ⟨hf, hstart⟩).2 hcov
  rintro t' - r hr ⟨hf', h'⟩
  refine ⟨step_fits hf' r, fun hc => ?_⟩
  have hb := hf'.base
  rcases P.step_cases t' r with ⟨_, e⟩ | ⟨_, hn | ⟨a, _, hz⟩, e⟩ | ⟨a, b, q, _, _, _, hd, e⟩
  · rw [e] at hc ⊢; exact h' hc
  · exact absurd hn (hknown r hr)
  · rw [e] at hc ⊢
    rw [share_covered hc] at hz
    simp only at hz ⊢; omega
  · rw [e] at hc ⊢
    rw [share_covered hc, Prod.mk.injEq] at hd
    simp only; omega

/-- Once every source has drawn, the base unit is drawn exactly, whatever the amounts were. -/
theorem run_base_of_drawn {P : Pool σ} (hf : P.Fits t) (hS : S ⊆ t.seen)
    (hstart : P.Covered S → t.base = P.base) (hcov : P.Covered (drawnSources S (P.run t rs).2)) :
    (P.run t rs).1.base = P.base := by
  refine (P.run_induct (fun t' ds => P.Fits t' ∧ drawnSources S ds ⊆ t'.seen ∧
    (P.Covered (drawnSources S ds) → t'.base = P.base)) rs ?_ ?_).2.2 hcov
  · rintro t' ds r - ⟨hf', hsub, h'⟩
    refine ⟨step_fits hf' r, ?_⟩
    have hmark : drawnSources S ds ⊆ insert r.source t'.seen :=
      hsub.trans (Finset.subset_insert ..)
    rcases P.step_cases t' r with ⟨_, e⟩ | ⟨_, _, e⟩ | ⟨a, b, q, _, _, _, hd, e⟩
    · rw [e]; simpa using ⟨hsub, h'⟩
    · rw [e]; simpa using ⟨hmark, h'⟩
    · rw [e]
      simp only [Option.toList_some, drawnSources_snoc]
      refine ⟨Finset.insert_subset_insert _ hsub, fun hc => ?_⟩
      rw [share_covered (hc.mono (Finset.insert_subset_insert _ hsub)), Prod.mk.injEq] at hd
      omega
  · simpa using ⟨hf, hS, hstart⟩

/-- The sources but `s` name less, together, than the pool holds. -/
def Loose (m : σ → Nat) (s : σ) : Prop := ∑ e ∈ P.sources.toFinset.erase s, m e < P.base

/-- The price loses nothing to rounding on the whole pool. -/
structure Whole (n d : Nat) : Prop where
  pos : 0 < d
  price : ∀ k, P.price k = k * n / d
  quote : P.quote = P.price P.base
  base : d ∣ P.base * n

variable {P} {m : σ → Nat}

/-- Drawn exactly in both units, or some source is still to draw and the draws are
within the amounts of the sources that drew. -/
def Settled (P : Pool σ) (m : σ → Nat) (t : Drawn σ) (S : Finset σ) : Prop :=
  (t.base = P.base ∧ t.quote = P.quote) ∨
  (t.base ≤ ∑ s ∈ S, m s ∧ S ⊆ P.sources.toFinset ∧ ¬ P.Covered S)

theorem run_settled (hf : P.Fits t) (hS : S ⊆ t.seen) (hsrc : ∀ r ∈ rs, r.source ∈ P.sources)
    (ham : ∀ r ∈ rs, ∀ a, r.amount = some a → a = m r.source) (h : P.Settled m t S) :
    P.Settled m (P.run t rs).1 (drawnSources S (P.run t rs).2) := by
  refine (P.run_induct (fun t' ds => P.Fits t' ∧ drawnSources S ds ⊆ t'.seen ∧
    P.Settled m t' (drawnSources S ds)) rs ?_ ?_).2.2
  · rintro t' ds r hr ⟨hf', hsub, h'⟩
    refine ⟨step_fits hf' r, ?_⟩
    have hmark : drawnSources S ds ⊆ insert r.source t'.seen :=
      hsub.trans (Finset.subset_insert ..)
    rcases P.step_cases t' r with
      ⟨_, e⟩ | ⟨_, _, e⟩ | ⟨a, b, q, hs, ha, hb0, hd, e⟩
    · rw [e]; simpa using ⟨hsub, h'⟩
    · rw [e]; simpa using ⟨hmark, h'⟩
    · rw [e]
      simp only [Option.toList_some, drawnSources_snoc]
      refine ⟨Finset.insert_subset_insert _ hsub, ?_⟩
      have hnot : r.source ∉ drawnSources S ds := fun hx => hs (hsub hx)
      have hle := P.share_le (insert r.source t'.seen) t'.base t'.quote a
      rw [hd] at hle
      rcases h' with ⟨hb, hq⟩ | ⟨_, hin, _⟩
      · simp only [hb, Nat.sub_self, Nat.le_zero] at hle
        exact absurd hle.1 hb0
      by_cases hc : P.Covered (insert r.source t'.seen)
      · rw [share_covered hc, Prod.mk.injEq] at hd
        have := hf'.quote
        exact .inl ⟨by simp only; omega, by simp only; omega⟩
      · rw [share_uncovered hc, Prod.mk.injEq] at hd
        have := ham r hr a ha
        refine .inr ⟨?_, ?_, fun hcov =>
          hc (hcov.mono (Finset.insert_subset_insert _ hsub))⟩
        · rw [Finset.sum_insert hnot]; simp only; omega
        · exact Finset.insert_subset (by simpa using hsrc r hr) hin
  · simpa using ⟨hf, hS, h⟩

/-- With nothing lost to rounding on what was drawn, quote and base stay in proportion. -/
theorem run_proportional {n d : Nat} (hw : P.Whole n d) (hf : P.Fits t)
    (ham : ∀ r ∈ rs, ∀ a, r.amount = some a → a = m r.source)
    (h : (∀ s ∈ S, d ∣ m s * n) → t.quote * d = t.base * n)
    (hdvd : ∀ s ∈ drawnSources S (P.run t rs).2, d ∣ m s * n) :
    (P.run t rs).1.quote * d = (P.run t rs).1.base * n := by
  have hquote : P.quote * d = P.base * n := by
    rw [hw.quote, hw.price, Nat.div_mul_cancel hw.base]
  refine (P.run_induct (fun t' ds => P.Fits t' ∧ ((∀ s ∈ drawnSources S ds, d ∣ m s * n) →
    t'.quote * d = t'.base * n)) rs ?_ ⟨hf, by simpa using h⟩).2 hdvd
  rintro t' ds r hr ⟨hf', h'⟩
  refine ⟨step_fits hf' r, fun hdvd => ?_⟩
  rcases P.step_cases t' r with ⟨_, e⟩ | ⟨_, _, e⟩ | ⟨a, b, q, _, ha, _, hd, e⟩
  · rw [e] at hdvd ⊢; exact h' (by simpa using hdvd)
  · rw [e] at hdvd ⊢; exact h' (by simpa using hdvd)
  · rw [e] at hdvd ⊢
    simp only [Option.toList_some, drawnSources_snoc, Finset.forall_mem_insert] at hdvd
    have hbefore := h' hdvd.2
    have hleft : (P.quote - t'.quote) * d = (P.base - t'.base) * n := by
      rw [Nat.sub_mul, Nat.sub_mul, hquote, hbefore]
    suffices hbq : q * d = b * n by simp [Nat.add_mul, hbefore, hbq]
    by_cases hc : P.Covered (insert r.source t'.seen)
    · rw [share_covered hc, Prod.mk.injEq] at hd
      rw [← hd.1, ← hd.2, hleft]
    rw [share_uncovered hc, Prod.mk.injEq] at hd
    have hdvdb : d ∣ b * n := by
      rcases Nat.le_total a _ with hle | hle
      · rw [← hd.1, min_eq_left hle, ham r hr a ha]; exact hdvd.1
      · rw [← hd.1, min_eq_right hle, ← hleft]; exact Nat.dvd_mul_left ..
    have hpb : P.price b * d = b * n := by rw [hw.price, Nat.div_mul_cancel hdvdb]
    have hble : b ≤ P.base - t'.base := by omega
    -- the capped draw's price is within what is left of the quote
    have hple : P.price b ≤ P.quote - t'.quote := by
      refine Nat.le_of_mul_le_mul_right ?_ hw.pos
      rw [hpb, hleft]; exact Nat.mul_le_mul_right _ hble
    rw [hd.1, min_eq_left hple] at hd
    rw [← hd.2, hpb]

omit [DecidableEq σ] in
theorem Whole.quote_exact {n d : Nat} (hw : P.Whole n d) (h : t.quote * d = t.base * n)
    (hb : t.base = P.base) : t.quote = P.quote := by
  refine Nat.eq_of_mul_eq_mul_right hw.pos ?_
  rw [h, hb, hw.quote, hw.price, Nat.div_mul_cancel hw.base]

/-- Where a later run starts: from what the draws of this one took, with only the sources
in `S` and those that drew known to be seen. -/
def resume (S : Finset σ) (res : Drawn σ × List (Draw ι σ)) : Drawn σ :=
  ⟨drawnSources S res.2, res.1.base, res.1.quote⟩

/-- Progress from which the pool ends up drawn exactly once every source has drawn. -/
structure Tracks (P : Pool σ) (m : σ → Nat) (t : Drawn σ) : Prop where
  fits : P.Fits t
  covered : P.Covered t.seen → t.base = P.base
  settled : P.Settled m t t.seen
  whole : ∀ n d, P.Whole n d → (∀ s ∈ t.seen, d ∣ m s * n) → t.quote * d = t.base * n

theorem Tracks.start (h : P.sources ≠ []) : P.Tracks m ⟨∅, 0, 0⟩ := by
  obtain ⟨s, hs⟩ := exists_mem_of_ne_nil _ h
  have hnc : ¬ P.Covered ∅ := fun hc => Finset.notMem_empty _ (hc s hs)
  exact ⟨⟨Nat.zero_le _, Nat.zero_le _⟩, fun hc => absurd hc hnc,
    .inr ⟨Nat.zero_le _, Finset.empty_subset _, hnc⟩, fun n d _ _ => by simp⟩

theorem Tracks.run (h : P.Tracks m t) (hsrc : ∀ r ∈ rs, r.source ∈ P.sources)
    (ham : ∀ r ∈ rs, ∀ a, r.amount = some a → a = m r.source) :
    P.Tracks m (resume t.seen (P.run t rs)) where
  fits := ⟨(run_fits h.fits rs).base, (run_fits h.fits rs).quote⟩
  covered := run_base_of_drawn h.fits (Finset.Subset.refl _) h.covered
  settled := by
    rcases run_settled h.fits (Finset.Subset.refl _) hsrc ham h.settled with hs | hs
    · exact .inl hs
    · exact .inr hs
  whole := fun n d hw => run_proportional hw h.fits ham (h.whole n d hw)

/-- The source that would draw last finds some of the base left, or nothing was lost on the others. -/
theorem Tracks.exact (h : P.Tracks m t) (hb : t.base = P.base)
    (hm : ∀ s ∈ P.sources, P.Loose m s ∨
      ∃ n d, P.Whole n d ∧ ∀ e ∈ P.sources, e ≠ s → d ∣ m e * n) : t.quote = P.quote := by
  rcases h.settled with ⟨_, h⟩ | ⟨_, hsub, hnc⟩
  · exact h
  obtain ⟨s, hs, hsS⟩ : ∃ s ∈ P.sources, s ∉ t.seen := by simpa [Covered] using hnc
  have hseen : t.seen ⊆ P.sources.toFinset.erase s := fun x hx =>
    Finset.mem_erase.2 ⟨fun h => hsS (h ▸ hx), hsub hx⟩
  rcases hm s hs with hloose | ⟨n, d, hw, hdvd⟩
  · have := Finset.sum_le_sum_of_subset (f := m) hseen
    unfold Loose at hloose
    omega
  · refine hw.quote_exact (h.whole n d hw fun e he => ?_) hb
    obtain ⟨hne, hmem⟩ := Finset.mem_erase.1 (hseen he)
    exact hdvd e (mem_toFinset.1 hmem) hne

/-! ## Running again over entries already run -/

theorem run_base_mono (rs : List (Entry ι σ)) : t.base ≤ (P.run t rs).1.base := by
  rw [P.run_base]; exact Nat.le_add_right ..

/-- A zero share stays zero when more has been drawn, unless the pool became covered. -/
theorem share_zero_mono {T : Finset σ} {b b' q q' a : Nat} (hb : b ≤ b')
    (hT : P.Covered T → ¬ P.Covered S → P.base ≤ b') (h : (P.share S b q a).1 = 0) :
    (P.share T b' q' a).1 = 0 := by
  unfold share at h ⊢
  split at h <;> split
  · omega
  · omega
  · next hs ht => have := hT ht hs; omega
  · omega

theorem drawnSources_insert (x : σ) (S : Finset σ) (ds : List (Draw ι σ)) :
    insert x (drawnSources S ds) = drawnSources (insert x S) ds := by
  simp [drawnSources]

/-- An entry the first run only marked is only marked again. -/
theorem step_again {u : Drawn σ} {r : Entry ι σ} (h : P.Idle t r) (hs : r.source ∉ u.seen)
    (hb : t.base ≤ u.base)
    (hcov : P.Covered (insert r.source u.seen) → ¬ P.Covered (insert r.source t.seen) →
      P.base ≤ u.base) : P.step u r = ({ u with seen := insert r.source u.seen }, none) := by
  rcases h with hn | ⟨a, ha, hz⟩
  · simp [step, hs, hn]
  · simp [step, hs, ha, share_zero_mono hb hcov hz]

/-- Running again over entries that have been run, without those that drew, draws nothing
and ends where the first run ended. -/
theorem rerun (hf : P.Fits t) (hnd : (rs.map (·.label)).Nodup) (stored : ι → Prop)
    [DecidablePred stored]
    (hst : ∀ r ∈ rs, (stored r.label ↔ r.label ∈ (P.run t rs).2.map (·.label))) :
    P.run (resume t.seen (P.run t rs)) (rs.filter (fun r => ¬ stored r.label)) =
      ((P.run t rs).1, []) := by
  induction rs generalizing t with
  | nil => simp [run, resume]
  | cons r rs ih =>
    obtain ⟨hr, hnd'⟩ : r.label ∉ rs.map (·.label) ∧ (rs.map (·.label)).Nodup := by
      simpa [nodup_cons] using hnd
    have hnew : r.label ∉ (P.run (P.step t r).1 rs).2.map (·.label) := fun hm =>
      hr ((P.run_draw_labels _ rs).subset hm)
    have hst' : ∀ r' ∈ rs, (stored r'.label ↔
        r'.label ∈ (P.run (P.step t r).1 rs).2.map (·.label)) := by
      intro r' hr'
      have hne : r'.label ≠ r.label := fun h => hr (h ▸ mem_map_of_mem hr')
      rw [hst r' (by simp [hr']), run_cons]
      rcases P.step_cases t r with ⟨_, e⟩ | ⟨_, _, e⟩ | ⟨_, _, _, _, _, _, _, e⟩
      all_goals simp [e, hne]
    have ih' := ih (step_fits hf r) hnd' hst'
    have hstr := hst r (by simp)
    have hmono := run_base_mono (P := P) (t := (P.step t r).1) rs
    -- a marked source draws nothing in the rest of the run
    have hsrc : r.source ∉ t.seen →
        r.source ∉ drawnSources t.seen (P.run (P.step t r).1 rs).2 := by
      intro hs hm
      rcases Finset.mem_union.1 hm with hm | hm
      · exact hs hm
      · obtain ⟨d, hd, hds⟩ := mem_map.1 (mem_toFinset.1 hm)
        exact (P.run_draw_mem _ hd).1 (by rw [step_seen, hds]; exact Finset.mem_insert_self ..)
    -- if the rest of the run covered the pool, it drew all of it
    have hcov : P.Covered (drawnSources (P.step t r).1.seen (P.run (P.step t r).1 rs).2) →
        ¬ P.Covered (P.step t r).1.seen → P.base ≤ (P.run (P.step t r).1 rs).1.base :=
      fun hc hn => (run_base_of_drawn (step_fits hf r) (Finset.Subset.refl _)
        (fun h => absurd h hn) hc).ge
    rw [run_cons] at hstr ⊢
    rcases P.step_cases t r with ⟨hs, e⟩ | ⟨hs, hidle, e⟩ | ⟨a, b, q, hs, ha, hb, hd, e⟩
    · rw [e] at hstr hnew ih' ⊢
      have hns : ¬ stored r.label := fun h => hnew (by simpa using hstr.1 h)
      have hdup : P.step (resume t.seen (P.run t rs)) r = (resume t.seen (P.run t rs), none) :=
        if_pos (Finset.mem_union_left _ hs)
      simp only [Option.toList_none, nil_append]
      rw [filter_cons_of_pos (by simpa using hns), run_cons, hdup, ih']
      rfl
    · rw [e] at hstr hnew ih' hsrc hcov hmono ⊢
      simp only [Option.toList_none, nil_append] at hstr ih' hsrc hcov hmono ⊢
      have hagain := step_again (u := resume _
          _) hidle (hsrc hs) hmono
        (by simpa [resume, drawnSources_insert] using hcov)
      have hns : ¬ stored r.label := fun h => hnew (by simpa using hstr.1 h)
      simp only [resume, drawnSources_insert] at hagain ih' ⊢
      rw [filter_cons_of_pos (by simpa using hns), run_cons, hagain, ih']
      rfl
    · rw [e] at hstr ih' ⊢
      have hs' : stored r.label := hstr.2 (by simp)
      rw [filter_cons_of_neg (by simpa using hs'), ← ih']
      have hsame : drawnSources t.seen (⟨r.label, r.source, b, q⟩ ::
          (P.run ⟨insert r.source t.seen, t.base + b, t.quote + q⟩ rs).2) =
          drawnSources (insert r.source t.seen)
            (P.run ⟨insert r.source t.seen, t.base + b, t.quote + q⟩ rs).2 := by
        simp [drawnSources]
      simp [resume, hsame]

end Pool

end TraceCommons.Drawdown
