import TraceCommons.Payout.AccrualExact

/-!
# Runs that return

A plan fails only where an amount leaves `u128` or an epoch is missing. Where
every due line can be priced and the stored reversals of each line are within
what it settled and accrued, neither happens: `planRailAccruals` returns.
-/

namespace TraceCommons.Payout

open Drawdown

section total

variable (d : RailDescriptor) (inputs : AccrualInputs)

/-! ## Credits -/

theorem creditLine_total {b : Batch} {l : LineItem} (st : CreditState)
    (h : 0 < l.settledCreditDeltaMicros → st.credited (lineKey b l) = none →
      (linePrice inputs (b, l)).isSome) :
    ∃ st', creditLine d inputs b st l = .ok st' := by
  unfold creditLine
  simp only [nearWalletHoldLabelHoldsRail, Bool.false_eq_true, if_false]
  by_cases hle : l.settledCreditDeltaMicros ≤ 0
  · rw [if_pos hle]; exact ⟨_, rfl⟩
  rw [if_neg hle]
  by_cases hc : (st.credited (lineKey b l)).isSome
  · rw [if_pos hc]; exact ⟨_, rfl⟩
  rw [if_neg hc]
  obtain ⟨⟨e, u⟩, hp⟩ := Option.isSome_iff_exists.1 (h (by omega) (by simpa using hc))
  obtain ⟨he, hu⟩ := linePrice_eq_some hp
  simp only [he, hu]
  exact ⟨_, rfl⟩

/-- Every due line that is not credited yet can be priced. -/
def LinesPriced : Prop :=
  ∀ p ∈ dueLines inputs, 0 < p.2.settledCreditDeltaMicros →
    creditedFrom inputs.existing (lineKey p.1 p.2) = none → (linePrice inputs p).isSome

theorem creditPhase_total (h : LinesPriced inputs) : ∃ cs, creditPhase d inputs = .ok cs := by
  -- a stored credit stays credited through the loop
  let I : CreditState → Prop := fun st =>
    ∀ k, (creditedFrom inputs.existing k).isSome → (st.credited k).isSome
  have hbatch : ∀ b ∈ dueBatches inputs, ∀ st, I st →
      ∃ st', creditBatch d inputs st b = .ok st' ∧ I st' := by
    intro b hb st hI
    refine foldlM_total _ (fun _ s => I s) ?_ hI
    intro _ l _ s hl hs
    have hmem : (b, l) ∈ dueLines inputs :=
      List.mem_flatMap.2 ⟨b, hb, List.mem_map_of_mem (hl ▸ by simp)⟩
    obtain ⟨s', hs'⟩ := creditLine_total d _ (b := b) (l := l) s fun hpos hnone => by
      refine h _ hmem hpos ?_
      by_contra hsome
      have := hs _ (Option.isSome_iff_ne_none.2 hsome)
      rw [hnone] at this
      cases this
    refine ⟨s', hs', fun k hk => ?_⟩
    rcases (creditLine_ok d _ hs').2 with ⟨-, hc, -⟩ | ⟨-, -, e, u, -, hc, -⟩
    · rw [hc]; exact hs k hk
    rw [hc, Function.update_apply]
    split
    · rfl
    · exact hs k hk
  obtain ⟨cs, hcs, -⟩ := foldlM_total _ _
    (l := dueBatches _) (b := ⟨futureSkips _, creditedFrom _, fun _ => none, ∅, fun _ => none⟩)
    (fun pre b rest s hb hs => hbatch b (hb ▸ by simp) s hs) (fun k hk => hk)
  exact ⟨cs, hcs⟩

/-! ## Reversals -/

/-- A credit whose rate prices the whole line, with amounts that fit `u128`. -/
structure LinePriced (l : LineItem) (c : LineCredit) : Prop where
  nonneg : 0 ≤ l.settledCreditDeltaMicros
  price : ∃ rate u, rateForVersion inputs.epochs c.version = some rate ∧
    rate.price l.settledCreditDeltaMicros.toNat = some u
  units : c.railUnits < 2 ^ 128

theorem LinePriced.award {l : LineItem} {c : LineCredit} (h : LinePriced inputs l c) :
    l.settledCreditDeltaMicros.toNat < 2 ^ 128 := by
  obtain ⟨rate, u, -, hp⟩ := h.price
  obtain ⟨hlt, -⟩ := RailRate.price_eq_some.1 hp
  exact lt_of_le_of_lt (Nat.le_mul_of_pos_right _ rate.numerator_pos) hlt

theorem reversalShare_total {l : LineItem} {c : LineCredit} (h : LinePriced inputs l c)
    (taken : Nat × Nat) (sources : Finset Uuid) (award : Nat) :
    ∃ r, reversalShare inputs l c taken sources award = .ok r := by
  obtain ⟨_, u, hr, hp⟩ := h.price
  unfold reversalShare
  split
  · exact ⟨_, rfl⟩
  have hle : min award (l.settledCreditDeltaMicros.toNat - taken.1) ≤
      l.settledCreditDeltaMicros.toNat := le_trans (min_le_right ..) (Nat.sub_le ..)
  simp only [hr, RailRate.price_of_le hp hle]
  exact ⟨_, rfl⟩

theorem takeBack_total (taken : LineKey → Nat × Nat) (k : LineKey) {a u : Nat}
    (ha : (taken k).1 + a < 2 ^ 128) (hu : (taken k).2 + u < 2 ^ 128) :
    ∃ taken', takeBack taken k a u = some taken' := by
  have ha' := checkedAdd_eq_some.2 ⟨ha, rfl⟩
  have hu' := checkedAdd_eq_some.2 ⟨hu, rfl⟩
  simp [takeBack, ha', hu']

/-- A row whose line, if it is credited, is priced and within bounds can be processed. -/
theorem reversalStep_total {cs : CreditState} (st : ReversalState) (row : CreditEvent × Uuid)
    (h : ∀ b l c, PricedRow inputs cs row b l c → LinePriced inputs l c ∧
      (linePool inputs l c).Fits (st.drawn (lineKey b l))) :
    ∃ st', reversalStep d inputs cs st row = .ok st' := by
  obtain ⟨_, source⟩ := row
  unfold reversalStep
  simp only
  split
  · exact ⟨_, rfl⟩
  · next hfresh =>
    split
    · split <;> exact ⟨_, rfl⟩
    · next b l hloc =>
      split
      · exact ⟨_, rfl⟩
      · next c hc =>
        obtain ⟨hp, hfits⟩ := h b l c ⟨hfresh, hloc, hc⟩
        split
        · exact ⟨_, rfl⟩
        split
        · exact ⟨_, rfl⟩
        · next award _ =>
          rw [if_neg (by have := hp.nonneg; omega)]
          obtain ⟨⟨a, u⟩, hr⟩ := reversalShare_total _ hp _ _ _
          rw [hr]
          have hle := (linePool inputs l c).share_le (insert source st.sourcesReversed)
            (st.takenBack (lineKey b l)).1 (st.takenBack (lineKey b l)).2 award
          rw [reversalShare_ok _ hr] at hle
          obtain ⟨hb, hq⟩ := hfits
          have haward := hp.award
          have hunits := hp.units
          simp only [linePool, ReversalState.drawn] at hle hb hq
          obtain ⟨_, ht⟩ := takeBack_total st.takenBack (lineKey b l)
            (a := a) (u := u) (by omega) (by omega)
          simp only [bind, Except.bind]
          split
          · exact ⟨_, rfl⟩
          · rw [ht]; exact ⟨_, rfl⟩

/-- Each line's stored totals are within its pool, and the pools are priced. -/
structure LinesFit (cs : CreditState) (taken : LineKey → Nat × Nat)
    (ls : List (Batch × LineItem)) : Prop where
  priced : ∀ p ∈ ls, ∀ c, cs.credited (lineKey p.1 p.2) = some c → LinePriced inputs p.2 c
  fits : ∀ p ∈ ls, ∀ c, cs.credited (lineKey p.1 p.2) = some c →
    (linePool inputs p.2 c).Fits (lineStart inputs taken p.1 p.2)

theorem reversalPhase_total {ls : List (Batch × LineItem)} {cs : CreditState}
    {taken : LineKey → Nat × Nat} (hs : CreditSpec d inputs ls cs) (hwf : LinesWF ls)
    (h : LinesFit inputs cs taken ls) : ∃ st, reversalPhase d inputs cs taken = .ok st := by
  let I : ReversalState → Prop := fun s => ∀ p ∈ ls, ∀ c,
    cs.credited (lineKey p.1 p.2) = some c → (linePool inputs p.2 c).Fits (s.lineDrawn p.1 p.2)
  have hstep : ∀ row s, I s → ∃ s', reversalStep d inputs cs s row = .ok s' ∧ I s' := by
    intro row s hfits
    obtain ⟨s', hs'⟩ := reversalStep_total d _ s row fun b l c hp => by
      obtain ⟨hbl, -⟩ := (hs.located_iff hwf).1 hp.located
      obtain ⟨hb, hq⟩ := hfits _ hbl c hp.credited
      exact ⟨h.priced _ hbl c hp.credited, hb, hq⟩
    refine ⟨s', hs', fun p hp c hc => ?_⟩
    have hline := reversalStep_line hs hwf (b := p.1) (l := p.2) hp hc hs'
    split at hline
    · rw [hline.1]; exact Pool.step_fits (hfits p hp c hc) _
    · rw [hline.1]; exact hfits p hp c hc
  obtain ⟨st, hst, -⟩ := foldlM_total _ (fun _ s => I s)
    (l := ledgerReversals _) (fun _ row _ s _ hI => hstep row s hI)
    (b := ⟨cs.plan, sourcesReversedFrom _, taken⟩) h.fits
  exact ⟨st, hst⟩

theorem takenFrom_total {existing : List PayoutAccrual}
    (h : ∀ k, ((lineReversals k existing).map (·.awardUnits)).sum < 2 ^ 128 ∧
      ((lineReversals k existing).map (·.railUnits)).sum < 2 ^ 128) :
    ∃ taken, takenFrom existing = .ok taken := by
  simp only [lineReversals_eq_filter] at h
  -- What is taken back from a line is the sum over the rows so far.
  refine (foldlM_total _ (fun rows t => ∀ k, t k = (((rows.filter (·.key = k)).map
    (·.awardUnits)).sum, ((rows.filter (·.key = k)).map (·.railUnits)).sum)) ?_ ?_).imp
    fun _ ht => ht.1
  · intro _ row _ t hl ht
    obtain ⟨hb, hq⟩ := h row.key
    rw [← hl] at hb hq
    simp only [List.filter_append, List.filter_cons, decide_true, if_true, List.map_append,
      List.map_cons, List.sum_append, List.sum_cons] at hb hq
    obtain ⟨t', ht'⟩ := takeBack_total t row.key (a := row.awardUnits)
      (u := row.railUnits) (by rw [ht]; omega) (by rw [ht]; omega)
    refine ⟨t', by rw [ht']; rfl, fun k => ?_⟩
    rw [takeBack_eq_some ht']
    by_cases hk : row.key = k
    · subst hk; simp [ht]
    · simp [hk, ht, Ne.symm hk]
  · simp

end total

/-! ## Whole plans -/

/-- An accrual without its owner, which claims change. -/
def PayoutAccrual.unowned (a : PayoutAccrual) : PayoutAccrual := { a with accountId := none }

/-- Every stored credit is its line's price at the epoch in force for it, owner aside. -/
def World.CreditsInForce (d : RailDescriptor) (w : World) : Prop :=
  ∀ c ∈ w.stored, c.kind = .credit → ∃ p ∈ finalizedLines w.batches,
    0 < p.2.settledCreditDeltaMicros ∧ p.1.createdAt < w.now ∧
    ∃ e u, linePrice w.inputs p = some (e, u) ∧
      c.unowned = (creditWrite d p.1 p.2 e u).unowned

section plans

variable {d : RailDescriptor} {w : World}

theorem linePrice_units_lt {inputs : AccrualInputs} {p : Batch × LineItem} {e : RateEpoch}
    {u : Nat} (h : linePrice inputs p = some (e, u)) : u < 2 ^ 128 := by
  obtain ⟨hlt, rfl⟩ := RailRate.price_eq_some.1 (linePrice_eq_some h).2
  exact lt_of_le_of_lt (Nat.div_le_self ..) hlt

theorem linePrice_priced {p : Batch × LineItem} {e : RateEpoch} {u : Nat} {o : Option Uuid}
    (hnd : (w.epochs.map (·.rate.version)).Nodup) (hpos : 0 < p.2.settledCreditDeltaMicros)
    (h : linePrice w.inputs p = some (e, u)) : LinePriced w.inputs p.2 ⟨e.rate.version, o, u⟩ := by
  obtain ⟨he, hu⟩ := linePrice_eq_some h
  exact ⟨hpos.le, ⟨e.rate, u, rateForVersion_eq hnd (epochInForce_mem he), hu⟩,
    linePrice_units_lt h⟩

/-- The parts of a credit that do not depend on its owner. -/
theorem unowned_creditWrite {c : PayoutAccrual} {b : Batch} {l : LineItem} {e : RateEpoch}
    {u : Nat} (h : c.unowned = (creditWrite d b l e u).unowned) :
    c.key = lineKey b l ∧ c.lineCredit = ⟨e.rate.version, c.accountId, u⟩ := by
  simp only [PayoutAccrual.unowned, creditWrite, PayoutAccrual.mk.injEq] at h
  obtain ⟨-, -, h1, h2, -, -, -, h3, h4, -⟩ := h
  exact ⟨Prod.ext h1 h2, by simp [PayoutAccrual.lineCredit, h3, h4]⟩

/-- Before the reversals: a line the credit loop credits is priced and within bounds. -/
theorem World.Sound.lines_fit (h : w.Sound d) (hc : w.CreditsInForce d)
    {taken : LineKey → Nat × Nat} (ht : takenFrom w.stored = .ok taken) {cs : CreditState}
    (hspec : CreditSpec d w.inputs (dueLines w.inputs) cs) :
    LinesFit w.inputs cs taken (dueLines w.inputs) := by
  suffices H : ∀ p ∈ dueLines _, ∀ c, cs.credited _ = some c →
      LinePriced _ p.2 c ∧ (linePool _ p.2 c).Fits _ from
    ⟨fun p hp c h => (H p hp c h).1, fun p hp c h => (H p hp c h).2⟩
  intro p hp c hcred
  have htk := takenFrom_ok ht (lineKey p.1 p.2)
  rw [hspec.credited, Option.or_eq_some_iff] at hcred
  rcases hcred with hst | ⟨hnone, hnew⟩
  · obtain ⟨a, ha, hak, hkey, rfl⟩ := creditedFrom_eq_some hst
    obtain ⟨q, hq, hpos, -, e, u, hpr, heq⟩ := hc a ha hak
    obtain ⟨hqk, hlc⟩ := unowned_creditWrite heq
    obtain rfl := h.batches.lines.key_inj hq (mem_dueLines.1 hp).1 (hqk.symm.trans hkey)
    obtain ⟨hb, hr⟩ := h.fits q hq a ha hak hqk
    refine ⟨by rw [hlc]; exact linePrice_priced h.epochs hpos hpr, ?_, ?_⟩
    · simpa [lineStart, htk, linePool] using hb
    · simpa [lineStart, htk, linePool, PayoutAccrual.lineCredit] using hr
  · obtain ⟨q, hq, hlc⟩ := Option.bind_eq_some_iff.1 hnew
    obtain ⟨hpos, hqk⟩ : Accrues (lineKey p.1 p.2) q := by simpa using List.find?_some hq
    obtain rfl := (BatchesWF.due _ h.batches).key_inj (List.mem_of_find?_eq_some hq) hp hqk
    obtain ⟨⟨e, u⟩, hpr, rfl⟩ := Option.map_eq_some_iff.1 hlc
    have hnil := h.reversals_of_uncredited (creditedFrom_eq_none.1 hnone)
    refine ⟨linePrice_priced h.epochs hpos hpr, ?_, ?_⟩
    · simp [lineStart, htk, hnil]
    · simp [lineStart, htk, hnil]

/-- Where every due line has a price, a run plans. -/
theorem World.Sound.plan_total (h : w.Sound d) (hc : w.CreditsInForce d)
    (hprice : ∀ p ∈ dueLines w.inputs, 0 < p.2.settledCreditDeltaMicros →
      (linePrice w.inputs p).isSome) :
    ∃ plan, planRailAccruals d w.inputs = .ok plan := by
  unfold planRailAccruals
  split
  · exact ⟨_, rfl⟩
  have hbounds : ∀ k, ((lineReversals k w.stored).map (·.awardUnits)).sum < 2 ^ 128 ∧
      ((lineReversals k w.stored).map (·.railUnits)).sum < 2 ^ 128 := by
    intro k
    by_cases hk : ∃ c ∈ w.stored, c.kind = .credit ∧ c.key = k
    · obtain ⟨c, hcm, hck, rfl⟩ := hk
      obtain ⟨p, hp, hpos, -, e, u, hpr, heq⟩ := hc c hcm hck
      obtain ⟨hkey, hlc⟩ := unowned_creditWrite heq
      have hfit := h.fits p hp c hcm hck hkey
      have hlp := linePrice_priced (o := none) h.epochs hpos hpr
      have hu : c.railUnits = u := congrArg LineCredit.railUnits hlc
      rw [hkey]
      exact ⟨lt_of_le_of_lt hfit.1 (hlp.award), lt_of_le_of_lt hfit.2 (hu ▸ hlp.units)⟩
    · rw [h.reversals_of_uncredited fun c hcm hck hkey => hk ⟨c, hcm, hck, hkey⟩]
      simp
  obtain ⟨taken, ht⟩ := takenFrom_total hbounds
  obtain ⟨cs, hcs⟩ := creditPhase_total d _ fun p hp hpos _ => hprice p hp hpos
  have hspec := creditPhase_spec d _ (BatchesWF.due _ h.batches).keys hcs
  obtain ⟨st, hst⟩ := reversalPhase_total d _ hspec (BatchesWF.due _ h.batches)
    (h.lines_fit hc ht hspec)
  exact ⟨_, bind_eq_ok.2 ⟨taken, ht, bind_eq_ok.2 ⟨cs, hcs, bind_eq_ok.2 ⟨st, hst, rfl⟩⟩⟩⟩

end plans

end TraceCommons.Payout
