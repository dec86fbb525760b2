import TraceCommons.Lib.Drawdown
import TraceCommons.Lib.Fold
import TraceCommons.Payout.Accrual

/-!
# What a plan does to one settlement line

The credit loop is described by its result (`CreditSpec`): where each event is
found, what each line is credited at, and the credits written. The reversal loop
is, line by line, the draw-down of a pool: the line's settled micros in the base
unit, its credit's rail units in the quote unit (`linePool`). `reversalPhase_line`
is the connection the results about reversals rest on.
-/

namespace TraceCommons.Payout

open Drawdown List

variable (d : RailDescriptor) (inputs : AccrualInputs)

/-! ## The credit loop -/

def batchLines (b : Batch) : List (Batch × LineItem) := b.lineItems.map (b, ·)

/-- The lines of the finalized batches behind the clock. -/
def dueLines : List (Batch × LineItem) := (dueBatches inputs).flatMap batchLines

/-- The epoch a line is priced at and its price. -/
def linePrice (p : Batch × LineItem) : Option (RateEpoch × Nat) := do
  let e ← epochInForce inputs.epochs p.1.createdAt
  let u ← e.rate.price p.2.settledCreditDeltaMicros.toNat
  return (e, u)

def lineCredit (p : Batch × LineItem) : Option LineCredit :=
  (linePrice inputs p).map fun q =>
    ⟨q.1.rate.version, accrualOwnerForLine p.2.creditAccountRef, q.2⟩

def lineWrite (p : Batch × LineItem) : Option PayoutAccrual :=
  (linePrice inputs p).map fun q => creditWrite d p.1 p.2 q.1 q.2

/-- A line that accrues: positive, and of this key. -/
def Accrues (k : LineKey) (p : Batch × LineItem) : Prop :=
  0 < p.2.settledCreditDeltaMicros ∧ lineKey p.1 p.2 = k

instance (k : LineKey) (p : Batch × LineItem) : Decidable (Accrues k p) :=
  inferInstanceAs (Decidable (_ ∧ _))

variable {st' st : CreditState}

theorem creditLine_ok {b : Batch} {l : LineItem} (h : creditLine d inputs b st l = .ok st') :
    st'.lineOfEvent = locateEvents b l st.lineOfEvent ∧
    (((l.settledCreditDeltaMicros ≤ 0 ∨ (st.credited (lineKey b l)).isSome) ∧
        st'.credited = st.credited ∧ st'.plan.writes = st.plan.writes) ∨
      (0 < l.settledCreditDeltaMicros ∧ st.credited (lineKey b l) = none ∧
        ∃ e u, linePrice inputs (b, l) = some (e, u) ∧
          st'.credited = Function.update st.credited (lineKey b l)
            (some ⟨e.rate.version, accrualOwnerForLine l.creditAccountRef, u⟩) ∧
          st'.plan.writes = st.plan.writes ++ [creditWrite d b l e u])) := by
  unfold creditLine at h
  simp only [nearWalletHoldLabelHoldsRail, Bool.false_eq_true, if_false] at h
  split at h
  · next hle =>
    cases h
    exact ⟨rfl, .inl ⟨.inl hle, rfl, rfl⟩⟩
  · next hpos =>
    split at h
    · next hc => cases h; exact ⟨rfl, .inl ⟨.inr hc, rfl, rfl⟩⟩
    · next hc =>
      split at h
      · next e he =>
        split at h
        · next u hu =>
          cases h
          refine ⟨rfl, .inr ⟨by omega, by simpa using hc, e, u, ?_, rfl, rfl⟩⟩
          simp [linePrice, he, hu]
        · cases h
      · cases h

section credits

variable (I : List (Batch × LineItem) → CreditState → Prop)
  (hstep : ∀ done b l st st', creditLine d inputs b st l = .ok st' → I done st →
    I (done ++ [(b, l)]) st')
  (hset : ∀ done st S, I done st → I done { st with settledEvents := S })

include hstep hset

theorem creditBatch_ok {done : List (Batch × LineItem)} {b : Batch}
    (h : creditBatch d inputs st b = .ok st')
    (h0 : I done st) : I (done ++ batchLines b) st' := by
  refine foldlM_ok _ (fun ls s => I (done ++ ls.map _) s) ?_ h ?_
  · intro _ l _ s s' _ hl hs
    simpa using hstep _ b l s s' hl hs
  · simpa using hset _ _ _ h0

/-- What each line keeps, from the lines consumed and the state, the credit loop keeps. -/
theorem creditPhase_ok {cs : CreditState} (h : creditPhase d inputs = .ok cs)
    (h0 : I [] ⟨futureSkips inputs, creditedFrom inputs.existing, fun _ => none, ∅, fun _ => none⟩) :
    I (dueLines inputs) cs := by
  refine foldlM_ok _ (fun bs s => I (bs.flatMap _) s) ?_ h h0
  intro _ b _ s s' _ hb hs
  simpa using creditBatch_ok d _ I hstep hset hb hs

end credits

theorem locateEvents_apply (b : Batch) (l : LineItem) (m : Uuid → Option (Batch × LineItem))
    (s : Uuid) :
    locateEvents b l m s = if s ∈ l.sourceCreditEventIds then some (b, l) else m s := by
  unfold locateEvents
  induction l.sourceCreditEventIds generalizing m with
  | nil => simp
  | cons e es ih =>
    rw [foldl_cons, ih]
    by_cases hs : s ∈ es
    · simp [hs]
    · by_cases he : s = e
      · simp [he]
      · simp [he]

@[simp] theorem futureSkips_writes : (futureSkips inputs).writes = [] := by
  suffices ∀ (bs : List Batch) (p : AccrualPlan), (bs.foldl _ p).writes
        = p.writes from this _ _
  intro bs
  induction bs with
  | nil => intro p; rfl
  | cons b bs ih => intro p; rw [foldl_cons, ih]; split <;> rfl

/-- The credit loop's result over the lines `ls`. -/
structure CreditSpec (ls : List (Batch × LineItem)) (cs : CreditState) : Prop where
  located : ∀ s, cs.lineOfEvent s = ls.reverse.find? (s ∈ ·.2.sourceCreditEventIds)
  credited : ∀ k, cs.credited k =
    (creditedFrom inputs.existing k).or ((ls.find? (Accrues k)).bind (lineCredit inputs))
  priced : ∀ p ∈ ls, 0 < p.2.settledCreditDeltaMicros →
    creditedFrom inputs.existing (lineKey p.1 p.2) = none → (linePrice inputs p).isSome
  writes : cs.plan.writes =
    (ls.filter fun p => 0 < p.2.settledCreditDeltaMicros ∧
      creditedFrom inputs.existing (lineKey p.1 p.2) = none).filterMap (lineWrite d inputs)

theorem creditSpec_step {done : List (Batch × LineItem)} {b : Batch} {l : LineItem}
    (h : creditLine d inputs b st l = .ok st')
    (hnew : lineKey b l ∉ done.map fun p => lineKey p.1 p.2) (hs : CreditSpec d inputs done st) :
    CreditSpec d inputs (done ++ [(b, l)]) st' := by
  obtain ⟨hloc, hcase⟩ := creditLine_ok d _ h
  have hfresh : done.find? (Accrues (lineKey b l)) = none := by
    refine find?_eq_none.2 fun p hp hacc => hnew ?_
    exact mem_map.2 ⟨p, hp, (of_decide_eq_true hacc).2⟩
  have hkey : st.credited (lineKey b l) = creditedFrom inputs.existing (lineKey b l) := by
    rw [hs.credited, hfresh]; simp
  have hfind : ∀ k, ((done ++ [(b, l)]).find? (Accrues k)) =
      (done.find? (Accrues k)).or (if Accrues k (b, l) then some (b, l) else none) := by
    intro k; split <;> simp_all
  have hlocated : ∀ s, st'.lineOfEvent s =
      (done ++ [(b, l)]).reverse.find? (s ∈ ·.2.sourceCreditEventIds) := by
    intro s
    rw [hloc, locateEvents_apply, hs.located, reverse_append, reverse_singleton]
    split <;> simp_all
  rcases hcase with ⟨hno, hc, hw⟩ | ⟨hpos, hnone, e, u, hp, hc, hw⟩
  · -- the line is not positive, or its key is credited already
    rw [hkey] at hno
    refine ⟨hlocated, fun k => ?_, fun p hp hpos hcf => ?_, ?_⟩
    · rw [hc, hs.credited, hfind]
      split
      · next hacc =>
        obtain ⟨hpos, rfl⟩ := hacc
        obtain ⟨c, hc⟩ := Option.isSome_iff_exists.1 (hno.resolve_left (by simpa using hpos))
        rw [hc]; rfl
      · simp
    · rcases mem_append.1 hp with hp | hp
      · exact hs.priced p hp hpos hcf
      · obtain rfl := mem_singleton.1 hp
        rcases hno with hle | hsome
        · exact absurd hpos (by simpa using hle)
        · rw [hcf] at hsome; cases hsome
    · have hout : ¬ (0 < l.settledCreditDeltaMicros ∧
          creditedFrom inputs.existing (lineKey b l) = none) := by
        rintro ⟨_, hcf⟩
        rcases hno with _ | hsome
        · omega
        · rw [hcf] at hsome; cases hsome
      rw [hw, hs.writes, filter_append, filter_singleton, decide_eq_false hout]
      simp
  · rw [hkey] at hnone
    refine ⟨hlocated, fun k => ?_, fun p hp' hpos' hcf => ?_, ?_⟩
    · rw [hc, hfind, Function.update_apply]
      split
      · next hk =>
        subst hk
        rw [hnone, hfresh, if_pos ⟨hpos, rfl⟩]
        simp [lineCredit, hp]
      · next hk =>
        rw [hs.credited, if_neg fun hacc => hk hacc.2.symm]; simp
    · rcases mem_append.1 hp' with hp' | hp'
      · exact hs.priced p hp' hpos' hcf
      · obtain rfl := mem_singleton.1 hp'
        rw [hp]; rfl
    · rw [hw, hs.writes, filter_append, filter_singleton,
        decide_eq_true ⟨hpos, hnone⟩]
      simp [lineWrite, hp]

variable {cs : CreditState}

theorem creditPhase_spec (hnd : ((dueLines inputs).map fun p => lineKey p.1 p.2).Nodup)
    (h : creditPhase d inputs = .ok cs) :
    CreditSpec d inputs (dueLines inputs) cs := by
  refine creditPhase_ok d _ (fun ls s => (ls.map fun p => lineKey p.1 p.2).Nodup →
    CreditSpec d _ ls s) ?_ ?_ h ?_ hnd
  · intro _ b l st _ hl ih hnd'
    rw [map_append, nodup_append] at hnd'
    exact creditSpec_step d _ hl (fun hm => hnd'.2.2 _ hm _ (by simp) rfl) (ih hnd'.1)
  · intro _ st S ih hnd'
    obtain ⟨h1, h2, h3, h4⟩ := ih hnd'
    exact ⟨h1, h2, h3, h4⟩
  · intro _
    exact ⟨fun s => by simp, fun k => by simp, by simp, by simp⟩

/-! ## The reversal loop -/

/-- A credited line as a pool: settled micros priced at the credit's rail units. -/
def linePool (l : LineItem) (c : LineCredit) : Pool Uuid :=
  { base := l.settledCreditDeltaMicros.toNat, quote := c.railUnits,
    sources := l.sourceCreditEventIds,
    price := fun a => ((rateForVersion inputs.epochs c.version).map (·.floorPrice a)).getD 0 }

def rowEntry (row : CreditEvent × Uuid) : Entry Uuid Uuid :=
  ⟨row.1.creditEventId, row.2, reversalAmount inputs row.1 row.2⟩

def drawWrite (b : Batch) (l : LineItem) (c : LineCredit) (dr : Draw Uuid Uuid) : PayoutAccrual :=
  reversalWrite d b l c dr.label dr.base dr.quote

/-- What line `k` has had taken back, with every source seen. -/
def ReversalState.drawn (st : ReversalState) (k : LineKey) : Drawn Uuid :=
  ⟨st.sourcesReversed, (st.takenBack k).1, (st.takenBack k).2⟩

theorem reversalShare_ok {l : LineItem} {c : LineCredit} {taken : Nat × Nat}
    {sources : Finset Uuid} {award : Nat} {r : Nat × Nat}
    (h : reversalShare inputs l c taken sources award = .ok r) :
    (linePool inputs l c).share sources taken.1 taken.2 award = r := by
  unfold reversalShare at h
  dsimp only at h
  unfold Pool.share
  have hcov : (l.sourceCreditEventIds.all (· ∈ sources) = true) ↔
      (linePool inputs l c).Covered sources := by
    simp [Pool.Covered, linePool]
  split at h
  · next hc => cases h; rw [if_pos (hcov.1 hc)]; rfl
  · next hc =>
    rw [if_neg (mt hcov.2 hc)]
    split at h
    · next rate hr =>
      split at h
      · next units hu =>
        cases h
        obtain ⟨-, hu⟩ := RailRate.price_eq_some.1 hu
        simp [linePool, hr, hu]
      · cases h
    · cases h

variable {taken : LineKey → Nat × Nat}

theorem takeBack_eq_some {taken' : LineKey → Nat × Nat} {k : LineKey} {a u : Nat}
    (h : takeBack taken k a u = some taken') :
    taken' = Function.update taken k ((taken k).1 + a, (taken k).2 + u) := by
  simp only [takeBack, Option.bind_eq_bind, Option.pure_def, Option.bind_eq_some_iff,
    checkedAdd_eq_some, Option.some.injEq] at h
  obtain ⟨_, ⟨-, rfl⟩, _, ⟨-, rfl⟩, rfl⟩ := h
  rfl

/-- A row that is not stored and names an event of a credited line. -/
structure PricedRow (cs : CreditState) (row : CreditEvent × Uuid) (b : Batch) (l : LineItem)
    (c : LineCredit) : Prop where
  fresh : row.1.creditEventId ∉ reversedFrom inputs.existing
  located : cs.lineOfEvent row.2 = some (b, l)
  credited : cs.credited (lineKey b l) = some c

variable {row : CreditEvent × Uuid}

/-- One reversal row: stored already, not of a credited line, or a step of its line's pool. -/
theorem reversalStep_ok {st st' : ReversalState} (h : reversalStep d inputs cs st row = .ok st') :
    ((∀ b l c, ¬ PricedRow inputs cs row b l c) ∧ st'.plan.writes = st.plan.writes ∧
      st'.sourcesReversed = st.sourcesReversed ∧ st'.takenBack = st.takenBack) ∨
    (∃ b l c t, PricedRow inputs cs row b l c ∧
      (linePool inputs l c).step (st.drawn (lineKey b l)) (rowEntry inputs row) = t ∧
      st'.plan.writes = st.plan.writes ++ t.2.toList.map (drawWrite d b l c) ∧
      st'.sourcesReversed = t.1.seen ∧
      st'.takenBack = Function.update st.takenBack (lineKey b l) (t.1.base, t.1.quote)) := by
  obtain ⟨event, source⟩ := row
  unfold reversalStep at h
  simp only at h
  split at h
  · next hst =>
    cases h
    exact .inl ⟨fun b l c hp => hp.fresh hst, rfl, rfl, rfl⟩
  · next hst =>
    split at h
    · next hnone =>
      have hno : ∀ b l c, ¬ PricedRow inputs cs (event, source) b l c := by
        rintro b l c ⟨-, hl, -⟩
        simp [hnone] at hl
      split at h <;> cases h
      · exact .inl ⟨hno, rfl, rfl, rfl⟩
      · exact .inl ⟨hno, by simp [holdReversal], rfl, rfl⟩
    · next b l hloc =>
      split at h
      · next hcn =>
        cases h
        refine .inl ⟨?_, rfl, rfl, rfl⟩
        rintro b' l' c ⟨-, hl, hc⟩
        obtain ⟨rfl, rfl⟩ : b = b' ∧ l = l' := by simpa [hloc] using hl
        simp [hcn] at hc
      · next c hc =>
        have hpriced : PricedRow inputs cs (event, source) b l c := ⟨hst, hloc, hc⟩
        split at h
        · next hdup =>
          cases h
          exact .inr ⟨b, l, c, _, hpriced, if_pos hdup, by simp [ReversalState.drawn]⟩
        · next hdup =>
          split at h
          · next ham =>
            cases h
            refine .inr ⟨b, l, c,
              ({ st.drawn (lineKey b l) with seen := insert source st.sourcesReversed }, none),
              hpriced, ?_, by simp [ReversalState.drawn]⟩
            simp [Pool.step, rowEntry, ReversalState.drawn, hdup, ham]
          · next award ham =>
            split at h
            · cases h
            rw [bind_eq_ok] at h
            obtain ⟨⟨a, u⟩, hshare, h⟩ := h
            have hs := reversalShare_ok _ hshare
            split at h
            · next hz =>
              cases h
              refine .inr ⟨b, l, c,
                ({ st.drawn (lineKey b l) with seen := insert source st.sourcesReversed }, none),
                hpriced, ?_, by simp [ReversalState.drawn]⟩
              simp [Pool.step, rowEntry, ReversalState.drawn, hdup, ham, hs, hz]
            · next hz =>
              split at h
              · next taken ht =>
                cases h
                refine .inr ⟨b, l, c, (⟨insert source st.sourcesReversed,
                  (st.takenBack (lineKey b l)).1 + a, (st.takenBack (lineKey b l)).2 + u⟩,
                  some ⟨event.creditEventId, source, a, u⟩), hpriced, ?_, rfl, rfl,
                  takeBack_eq_some ht⟩
                simp [Pool.step, rowEntry, ReversalState.drawn, hdup, ham, hs, hz]
              · cases h

/-! ## One line of the loop -/

/-- Lines have distinct keys, and no two lines share an event. -/
structure LinesWF (ls : List (Batch × LineItem)) : Prop where
  keys : (ls.map fun p => lineKey p.1 p.2).Nodup
  events : ∀ p ∈ ls, ∀ q ∈ ls, ∀ e, e ∈ p.2.sourceCreditEventIds →
    e ∈ q.2.sourceCreditEventIds → p = q

theorem LinesWF.key_inj {ls : List (Batch × LineItem)} (h : LinesWF ls) {p q : Batch × LineItem}
    (hp : p ∈ ls) (hq : q ∈ ls) (hk : lineKey p.1 p.2 = lineKey q.1 q.2) : p = q :=
  inj_on_of_nodup_map h.keys hp hq hk

section line

variable {d inputs}
variable {ls : List (Batch × LineItem)}

theorem CreditSpec.located_iff (hs : CreditSpec d inputs ls cs) (hwf : LinesWF ls) {s : Uuid}
    {p : Batch × LineItem} :
    cs.lineOfEvent s = some p ↔ p ∈ ls ∧ s ∈ p.2.sourceCreditEventIds := by
  rw [hs.located]
  constructor
  · intro h
    exact ⟨mem_reverse.1 (mem_of_find?_eq_some h), by simpa using find?_some h⟩
  rintro ⟨hp, hmem⟩
  cases hf : ls.reverse.find? _ with
  | none => exact absurd hmem (by simpa using find?_eq_none.1 hf p (mem_reverse.2 hp))
  | some q =>
    have hq := mem_reverse.1 (mem_of_find?_eq_some hf)
    rw [hwf.events p hp q hq s hmem (by simpa using find?_some hf)]

/-- The progress of one line: its own sources seen and what it has had taken back. -/
def ReversalState.lineDrawn (st : ReversalState) (b : Batch) (l : LineItem) : Drawn Uuid :=
  { st.drawn (lineKey b l) with seen := st.sourcesReversed ∩ l.sourceCreditEventIds.toFinset }

/-- The line's reversal rows that are not stored, as entries of its pool. -/
def lineEntries (inputs : AccrualInputs) (l : LineItem) (rows : List (CreditEvent × Uuid)) :
    List (Entry Uuid Uuid) :=
  (rows.filter fun row => row.1.creditEventId ∉ reversedFrom inputs.existing ∧
    row.2 ∈ l.sourceCreditEventIds).map (rowEntry inputs)

def lineReversals (k : LineKey) (ws : List PayoutAccrual) : List PayoutAccrual :=
  ws.filter fun w => w.kind = .reversal ∧ w.key = k

theorem lineReversals_append (k : LineKey) (ws ws' : List PayoutAccrual) :
    lineReversals k (ws ++ ws') = lineReversals k ws ++ lineReversals k ws' :=
  filter_append ..

theorem lineReversals_drawWrite (k : LineKey) (b : Batch) (l : LineItem) (c : LineCredit)
    (drs : List (Draw Uuid Uuid)) :
    lineReversals k (drs.map (drawWrite d b l c)) =
      if lineKey b l = k then drs.map (drawWrite d b l c) else [] := by
  split
  · next h =>
    refine filter_eq_self.2 fun w hw => ?_
    obtain ⟨dr, -, rfl⟩ := mem_map.1 hw
    simpa [drawWrite, reversalWrite, PayoutAccrual.key, lineKey] using h
  · next h =>
    refine filter_eq_nil_iff.2 fun w hw => ?_
    obtain ⟨dr, -, rfl⟩ := mem_map.1 hw
    simpa [drawWrite, reversalWrite, PayoutAccrual.key, lineKey] using h

/-- Where a line's draw-down starts in a run: the sources stored already and their totals. -/
def lineStart (inputs : AccrualInputs) (taken : LineKey → Nat × Nat) (b : Batch) (l : LineItem) :
    Drawn Uuid :=
  ⟨sourcesReversedFrom inputs ∩ l.sourceCreditEventIds.toFinset, (taken (lineKey b l)).1,
    (taken (lineKey b l)).2⟩

variable (hs : CreditSpec d inputs ls cs) (hwf : LinesWF ls) {b : Batch} {l : LineItem}
  {c : LineCredit} (hbl : (b, l) ∈ ls) (hc : cs.credited (lineKey b l) = some c)

include hs hwf hbl hc

theorem CreditSpec.pricedRow_iff :
    PricedRow inputs cs row b l c ↔
      row.1.creditEventId ∉ reversedFrom inputs.existing ∧ row.2 ∈ l.sourceCreditEventIds := by
  constructor
  · rintro ⟨hf, hl, -⟩
    exact ⟨hf, ((hs.located_iff hwf).1 hl).2⟩
  · rintro ⟨hf, hm⟩
    exact ⟨hf, (hs.located_iff hwf).2 ⟨hbl, hm⟩, hc⟩

/-- A row of the line steps its pool; any other row leaves the line alone. -/
theorem reversalStep_line {st st' : ReversalState} (h : reversalStep d inputs cs st row = .ok st') :
    if row.1.creditEventId ∉ reversedFrom inputs.existing ∧ row.2 ∈ l.sourceCreditEventIds then
      st'.lineDrawn b l =
        ((linePool inputs l c).step (st.lineDrawn b l) (rowEntry inputs row)).1 ∧
      lineReversals (lineKey b l) st'.plan.writes = lineReversals (lineKey b l) st.plan.writes ++
        ((linePool inputs l c).step (st.lineDrawn b l) (rowEntry inputs row)).2.toList.map
          (drawWrite d b l c)
    else
      st'.lineDrawn b l = st.lineDrawn b l ∧
      lineReversals (lineKey b l) st'.plan.writes = lineReversals (lineKey b l) st.plan.writes := by
  rcases reversalStep_ok d _ h with ⟨hno, hw, hsrc, htk⟩ | ⟨b', l', c', _, hp, rfl, hw, hsrc, htk⟩
  · rw [if_neg fun hown => hno b l c ((hs.pricedRow_iff hwf hbl hc).2 hown)]
    simp [ReversalState.lineDrawn, ReversalState.drawn, hw, hsrc, htk]
  by_cases heq : (b', l') = (b, l)
  · obtain ⟨rfl, rfl⟩ := Prod.mk.inj heq
    obtain rfl : c' = c := Option.some.inj (hp.credited.symm.trans hc)
    have hown := (hs.pricedRow_iff hwf hbl hc).1 hp
    have hinter := (linePool inputs l' c').step_inter (st.drawn (lineKey b' l'))
      (rowEntry inputs row) hown.2
    rw [if_pos hown]
    have hld : st.lineDrawn b' l' = { st.drawn (lineKey b' l') with
        seen := (st.drawn (lineKey b' l')).seen ∩ (linePool inputs l' c').sources.toFinset } := rfl
    rw [hld, hinter, hw, lineReversals_append, lineReversals_drawWrite, if_pos rfl]
    refine ⟨?_, rfl⟩
    simp only [ReversalState.lineDrawn, ReversalState.drawn, hsrc, htk, Function.update_self]
    rfl
  · obtain ⟨hbl', hmem'⟩ := (hs.located_iff hwf).1 hp.located
    have hnot : row.2 ∉ l.sourceCreditEventIds := fun hm =>
      heq (hwf.events _ hbl' _ hbl _ hmem' hm)
    have hkey : lineKey b' l' ≠ lineKey b l := fun hk => heq (hwf.key_inj hbl' hbl hk)
    rw [if_neg fun hown => hnot hown.2]
    refine ⟨?_, ?_⟩
    · have hseen : st'.sourcesReversed ∩ l.sourceCreditEventIds.toFinset =
          st.sourcesReversed ∩ l.sourceCreditEventIds.toFinset := by
        rw [hsrc, Pool.step_seen]
        exact Finset.insert_inter_of_notMem (by simpa [rowEntry] using hnot)
      simp [ReversalState.lineDrawn, ReversalState.drawn, hseen, htk,
        Function.update_of_ne hkey.symm]
    · rw [hw, lineReversals_append, lineReversals_drawWrite, if_neg hkey, append_nil]

/-- The reversal loop draws down each credited line's pool with the line's own rows. -/
theorem reversalPhase_line {st : ReversalState} (h : reversalPhase d inputs cs taken = .ok st) :
    st.lineDrawn b l = ((linePool inputs l c).run (lineStart inputs taken b l)
      (lineEntries inputs l (ledgerReversals inputs.events))).1 ∧
    lineReversals (lineKey b l) st.plan.writes = lineReversals (lineKey b l) cs.plan.writes ++
      ((linePool inputs l c).run (lineStart inputs taken b l)
        (lineEntries inputs l (ledgerReversals inputs.events))).2.map (drawWrite d b l c) := by
  refine foldlM_ok _ (fun rows s =>
    s.lineDrawn b l = ((linePool _ l c).run _
      (lineEntries _ l rows)).1 ∧
    lineReversals _ s.plan.writes = lineReversals _ _ ++
      ((linePool _ l c).run _
        (lineEntries _ l rows)).2.map _) ?_ h ?_
  · rintro _ _ _ s s' - hstep ⟨hd, hw⟩
    have hline := reversalStep_line hs hwf hbl hc hstep
    unfold lineEntries at hd hw ⊢
    rw [filter_append, filter_singleton, map_append]
    split at hline
    · next hown =>
      rw [decide_eq_true hown, cond_true, map_singleton, Pool.run_snoc, hline.1, hline.2, hw, ← hd]
      exact ⟨rfl, by simp⟩
    · next hown =>
      rw [decide_eq_false hown, cond_false, map_nil, append_nil, hline.1, hline.2]
      exact ⟨hd, hw⟩
  · simp [lineEntries, Pool.run, ReversalState.lineDrawn, ReversalState.drawn, lineStart]

end line

/-! ## The whole plan -/

section plan

variable {d inputs}

theorem lineReversals_eq_filter (k : LineKey) (rows : List PayoutAccrual) :
    lineReversals k rows = (rows.filter (·.kind = .reversal)).filter (·.key = k) := by
  rw [filter_filter]
  exact filter_congr fun a _ => by rw [Bool.decide_and, Bool.and_comm]

theorem takenFrom_ok {existing : List PayoutAccrual} (h : takenFrom existing = .ok taken)
    (k : LineKey) :
    taken k = (((lineReversals k existing).map (·.awardUnits)).sum,
      ((lineReversals k existing).map (·.railUnits)).sum) := by
  rw [lineReversals_eq_filter]
  refine foldlM_ok _ (fun rows t => t k = (((rows.filter _).map _).sum,
    ((rows.filter _).map _).sum)) ?_ h (by simp)
  intro _ row _ t t' _ hstep ih
  split at hstep
  · next t'' ht =>
    cases hstep
    rw [takeBack_eq_some ht]
    by_cases hk : row.key = k
    · subst hk; simp [ih]
    · simp [hk, ih, Ne.symm hk]
  · cases hstep

/-- A reversal a run writes: its ledger row, its line and what it draws. -/
structure PlannedReversal (d : RailDescriptor) (inputs : AccrualInputs) (cs : CreditState)
    (q : (CreditEvent × Uuid) × PayoutAccrual) : Prop where
  draw : ∃ b l c dr, PricedRow inputs cs q.1 b l c ∧ q.2 = drawWrite d b l c dr ∧
    dr.label = q.1.1.creditEventId ∧ dr.base ≠ 0

/-- The reversals the loop has written for `rows`, each with its ledger row: one for each of some
of the rows, in order, no two for one source and none for a source taken back already. -/
structure Wrote (d : RailDescriptor) (inputs : AccrualInputs) (cs : CreditState)
    (rows : List (CreditEvent × Uuid)) (st : ReversalState)
    (qs : List ((CreditEvent × Uuid) × PayoutAccrual)) : Prop where
  writes : st.plan.writes = cs.plan.writes ++ qs.map (·.2)
  rows : (qs.map (·.1)).Sublist rows
  nodup : (qs.map (·.1.2)).Nodup
  seen : ∀ q ∈ qs, q.1.2 ∈ st.sourcesReversed
  start : sourcesReversedFrom inputs ⊆ st.sourcesReversed
  fresh : ∀ q ∈ qs, q.1.2 ∉ sourcesReversedFrom inputs
  planned : ∀ q ∈ qs, PlannedReversal d inputs cs q

theorem reversalPhase_writes {st : ReversalState} (h : reversalPhase d inputs cs taken = .ok st) :
    ∃ qs, Wrote d inputs cs (ledgerReversals inputs.events) st qs := by
  refine foldlM_ok _ (fun rows s => ∃ qs, Wrote d _ cs rows s qs) ?_ h
    ⟨[], by constructor <;> simp⟩
  rintro pre row _ s s' - hstep ⟨qs, hq⟩
  have hsub : (qs.map (·.1)).Sublist (pre ++ [row]) := hq.rows.trans (sublist_append_left ..)
  rcases reversalStep_ok d _ hstep with ⟨-, hw', hs', -⟩ | ⟨b, l, c, _, hp, rfl, hw', hs', -⟩
  · exact ⟨qs, { hq with
      writes := hw' ▸ hq.writes, rows := hsub, seen := hs' ▸ hq.seen, start := hs' ▸ hq.start }⟩
  rw [Pool.step_seen] at hs'
  have hgrow : s.sourcesReversed ⊆ s'.sourcesReversed := by
    rw [hs']; exact Finset.subset_insert ..
  have hkeep (e : ((linePool inputs l c).step (s.drawn (lineKey b l)) (rowEntry inputs row)).2 =
      none) : Wrote d inputs cs (pre ++ [row]) s' qs :=
    { hq with
      writes := by rw [hw', hq.writes, e]; simp
      rows := hsub, seen := fun q hm => hgrow (hq.seen q hm), start := hq.start.trans hgrow }
  rcases (linePool _ l c).step_cases _ _ with
    ⟨-, e⟩ | ⟨-, -, e⟩ | ⟨a, base, quote, hfresh, -, hbase, -, e⟩
  · exact ⟨qs, hkeep (by rw [e])⟩
  · exact ⟨qs, hkeep (by rw [e])⟩
  · have hsrc : row.2 ∉ s.sourcesReversed := hfresh
    refine ⟨qs ++ [(row, drawWrite d b l c ⟨row.1.creditEventId, row.2, base, quote⟩)],
      ?_, ?_, ?_, ?_, hq.start.trans hgrow, ?_, ?_⟩
    · rw [hw', hq.writes, e]; simp [rowEntry]
    · simpa using hq.rows.append (List.Sublist.refl [row])
    · rw [map_append]
      refine nodup_append.2 ⟨hq.nodup, by simp, fun x hx y hy hxy => ?_⟩
      obtain ⟨q, hm, rfl⟩ := mem_map.1 hx
      obtain rfl : y = row.2 := by simpa using hy
      exact hsrc (hxy ▸ hq.seen q hm)
    · refine forall_mem_append.2 ⟨fun q hm => hgrow (hq.seen q hm), ?_⟩
      exact forall_mem_singleton.2 (hs' ▸ Finset.mem_insert_self ..)
    · refine forall_mem_append.2 ⟨hq.fresh, forall_mem_singleton.2 fun hold => ?_⟩
      exact hsrc (hq.start hold)
    · refine forall_mem_append.2 ⟨hq.planned, forall_mem_singleton.2 ?_⟩
      exact ⟨b, l, c, _, hp, rfl, rfl, hbase⟩

/-- A plan with epochs is the credit loop, then the reversal loop. -/
theorem planRailAccruals_ok {p : AccrualPlan} (h : planRailAccruals d inputs = .ok p) :
    (inputs.epochs = [] ∧ p.writes = []) ∨ ∃ taken cs st, takenFrom inputs.existing = .ok taken ∧
      creditPhase d inputs = .ok cs ∧ reversalPhase d inputs cs taken = .ok st ∧
      p.writes = st.plan.writes := by
  unfold planRailAccruals at h
  split at h
  · next he => cases h; exact .inl ⟨isEmpty_iff.1 he, rfl⟩
  simp only [bind_eq_ok] at h
  obtain ⟨taken, ht, cs, hcs, st, hst, h⟩ := h
  cases h
  exact .inr ⟨taken, cs, st, ht, hcs, hst, rfl⟩

end plan

end TraceCommons.Payout
