import TraceCommons.Payout.AccrualRuns

/-!
# Lines reversed in full

When every source event of a credited line has been reversed, the award units
taken back are the line's settled micros. The rail units taken back are the
credit's only if the last event still finds some of the award left, or the rate
loses nothing to rounding: a last event that finds no award left is skipped, with
whatever the earlier events' separately floored prices left of the rail units.

`LineInv` carries the argument over runs: the stored reversals of a line are the
draws of its pool so far.
-/

namespace TraceCommons.Payout

open Drawdown List

/-! ## Prices of stored credits -/

variable {epochs : List RateEpoch} {e : RateEpoch}

theorem selectEpoch_mem {swap : RateEpoch → RateEpoch → Bool}
    (h : selectEpoch swap epochs = some e) : e ∈ epochs := by
  cases epochs with
  | nil => cases h
  | cons x xs =>
    simp only [selectEpoch, Option.some.injEq] at h
    subst h
    suffices ∀ (l : List _) (m : RateEpoch),
        l.foldl _ m ∈ m :: l from this xs x
    intro l
    induction l with
    | nil => simp
    | cons y l ih =>
      intro m
      rw [foldl_cons]
      split
      · exact .tail _ (ih y)
      · rcases mem_cons.1 (ih m) with h | h
        · rw [h]; exact .head _ ..
        · exact .tail _ (.tail _ h)

theorem epochInForce_mem {t : Time} (h : epochInForce epochs t = some e) : e ∈ epochs := by
  rw [epochInForce, Option.or_eq_some_iff] at h
  rcases h with h | ⟨-, h⟩
  · exact mem_of_mem_filter (selectEpoch_mem h)
  · exact selectEpoch_mem h

/-- With versions unique, a version's rate is its epoch's. -/
theorem rateForVersion_eq (hnd : (epochs.map (·.rate.version)).Nodup) (he : e ∈ epochs) :
    rateForVersion epochs e.rate.version = some e.rate := by
  unfold rateForVersion
  rw [find?_map]
  cases hf : epochs.find? _ with
  | none => exact absurd (find?_eq_none.1 hf e he) (by simp)
  | some x =>
    have hx : x.rate.version = e.rate.version := by simpa using find?_some hf
    rw [inj_on_of_nodup_map hnd (mem_of_find?_eq_some hf) he hx]; rfl

theorem linePrice_eq_some {inputs : AccrualInputs} {p : Batch × LineItem} {u : Nat}
    (h : linePrice inputs p = some (e, u)) : epochInForce inputs.epochs p.1.createdAt = some e ∧
      e.rate.price p.2.settledCreditDeltaMicros.toNat = some u := by
  simp only [linePrice, Option.bind_eq_bind, Option.bind_eq_some_iff] at h
  obtain ⟨e', he, u', hu, _, _⟩ := h
  exact ⟨he, hu⟩

/-- Every stored credit was priced at a recorded epoch. -/
def World.Priced (w : World) : Prop :=
  ∀ c ∈ w.stored, c.kind = .credit → ∃ e ∈ w.epochs, e.rate.version = c.rateVersion ∧
    c.railUnits = e.rate.floorPrice c.awardUnits

section priced

variable {d : RailDescriptor} {w : World}

theorem World.Priced.add_credits (h : w.Priced) (hw : BatchesWF w.batches) (r : PlanRun d w)
    {rows : List PayoutAccrual} (hrows : ∀ a ∈ rows, a.kind = .reversal) :
    World.Priced { w with stored := w.stored ++ r.credits ++ rows } := by
  intro c hc hk
  rcases mem_append.1 hc with hc | hc
  · rcases mem_append.1 hc with hc | hc
    · exact h c hc hk
    · obtain ⟨p, -, -, -, e, u, hpr, rfl⟩ := r.mem_credits hw hc
      obtain ⟨he, hu⟩ := linePrice_eq_some hpr
      exact ⟨e, epochInForce_mem he, rfl, (RailRate.price_eq_some.1 hu).2.symm⟩
  · rw [hrows c hc] at hk; cases hk

theorem World.Priced.claims (h : w.Priced) (cs : List (String × Uuid)) :
    World.Priced { w with stored := claimAll w.stored cs } := by
  obtain ⟨g, hg⟩ := claimAll_eq _ cs
  rw [hg]
  refine forall_mem_map.2 fun a0 ha0 hk => ?_
  exact h a0 ha0 hk

theorem World.Step.priced {w' : World} (hs : World.Step d w w') (hw : w.Sound d) (h : w.Priced) :
    w'.Priced := by
  cases hs with
  | epoch e hnew =>
    intro c hc hk
    obtain ⟨x, hx, hrest⟩ := h c hc hk
    exact ⟨x, mem_append_left _ hx, hrest⟩
  | run stop =>
    rcases accrueRail_cases hw _ with e | ⟨cs, -, e⟩ | ⟨r, e⟩ | ⟨r, cs, -, e⟩
    · rw [e]; exact h
    · rw [e]; exact h.claims cs
    · rw [e]; simpa using h.add_credits hw.batches r (forall_mem_nil _)
    · rw [e]
      exact (h.add_credits hw.batches r fun a ha => r.reversals_kind ha).claims cs
  | _ => exact h

end priced

/-! ## The stored reversals of a line as draws of its pool -/

/-- What the stored reversals of line `p` have drawn, and from which sources. -/
def World.drawn (w : World) (p : Batch × LineItem) : Drawn Uuid :=
  let rows := lineReversals (lineKey p.1 p.2) w.stored
  ⟨(rows.filterMap (rowSource w.events)).toFinset, (rows.map (·.awardUnits)).sum,
    (rows.map (·.railUnits)).sum⟩

/-- The draws of line `p` that its reversal rows ask for, after the stored ones. -/
abbrev World.lineRun (w : World) (p : Batch × LineItem) (c : LineCredit) :=
  (linePool w.inputs p.2 c).run (w.drawn p) (lineEntries w.inputs p.2 (ledgerReversals w.events))

section drawn

variable {d : RailDescriptor} {w : World} {p : Batch × LineItem}

theorem mem_lineReversals {k : LineKey} {rows : List PayoutAccrual} {a : PayoutAccrual} :
    a ∈ lineReversals k rows ↔ a ∈ rows ∧ a.kind = .reversal ∧ a.key = k := by
  simp [lineReversals]

/-- A stored row made from a ledger row of one of the line's events is a reversal of the line. -/
theorem World.Sound.of_reversalEventId (h : w.Sound d) (hp : p ∈ finalizedLines w.batches)
    {row : CreditEvent × Uuid} (hrow : row ∈ ledgerReversals w.events)
    (hs : row.2 ∈ p.2.sourceCreditEventIds) {a : PayoutAccrual} (ha : a ∈ w.stored)
    (hid : a.reversalEventId = some row.1.creditEventId) :
    a ∈ lineReversals (lineKey p.1 p.2) w.stored := by
  obtain ⟨he, hr⟩ := mem_ledgerReversals.1 hrow
  have hk : a.kind = .reversal := by
    cases hk : a.kind with
    | reversal => rfl
    | credit => rw [(h.credit a ha hk).1] at hid; cases hid
  obtain ⟨⟨s, q, e, he', hr', hid', hq, hkey, hmem⟩, -⟩ := h.reversal a ha hk
  have hsrc := rowSource_eq h.events he hr hid
  rw [rowSource_eq h.events he' hr' hid', Option.some.injEq] at hsrc
  obtain rfl := h.batches.events q hq p hp _ (hsrc ▸ hmem) hs
  exact mem_lineReversals.2 ⟨ha, hk, hkey.symm⟩

/-- The sources a run starts from on a line are those of the line's stored reversals. -/
theorem World.Sound.lineStart_eq (h : w.Sound d) (r : PlanRun d w)
    (hp : p ∈ finalizedLines w.batches) : lineStart w.inputs r.taken p.1 p.2 = w.drawn p := by
  have ht := takenFrom_ok r.taken_ok (lineKey p.1 p.2)
  have hseen : sourcesReversedFrom w.inputs ∩ p.2.sourceCreditEventIds.toFinset =
      (w.drawn p).seen := by
    ext s
    simp only [sourcesReversedFrom, World.drawn, Finset.mem_inter, mem_toFinset,
      mem_map, mem_filter, mem_filterMap, decide_eq_true_eq]
    constructor
    · rintro ⟨⟨_, ⟨hrow, hid⟩, rfl⟩, hs⟩
      obtain ⟨he, hr⟩ := mem_ledgerReversals.1 hrow
      obtain ⟨a, ha, hid⟩ := mem_filterMap.1 (mem_toFinset.1 hid)
      exact ⟨a, h.of_reversalEventId hp hrow hs ha hid, rowSource_eq h.events he hr hid⟩
    · rintro ⟨a, hrev, hs⟩
      obtain ⟨ha, hk, hkey⟩ := mem_lineReversals.1 hrev
      obtain ⟨⟨s', q, e, he, hr, hid, hq, hqk, hmem⟩, -⟩ := h.reversal a ha hk
      obtain rfl : s' = s := by
        rw [rowSource_eq h.events he hr hid] at hs; exact Option.some.inj hs
      obtain rfl := h.batches.lines.key_inj hq hp (hqk.trans hkey)
      refine ⟨⟨(e, s'), ⟨mem_ledgerReversals.2 ⟨he, hr⟩, ?_⟩, rfl⟩, hmem⟩
      exact mem_toFinset.2 (mem_filterMap.2 ⟨a, ha, hid⟩)
  rw [lineStart, hseen, ht]
  rfl

/-- The reversals a run adds to a due, credited line extend what its pool has drawn. -/
theorem World.Sound.drawn_run (h : w.Sound d) (r : PlanRun d w) (hp : p ∈ dueLines w.inputs)
    {c : LineCredit} (hc : r.cs.credited (lineKey p.1 p.2) = some c) :
    r.booked.drawn p =
      Pool.resume (w.drawn p).seen (w.lineRun p c) := by
  have hstart := h.lineStart_eq r (mem_dueLines.1 hp).1
  have hrows : lineReversals (lineKey p.1 p.2) (w.stored ++ r.credits ++ r.reversals) =
      lineReversals (lineKey p.1 p.2) w.stored ++
        (w.lineRun p c).2.map (drawWrite d p.1 p.2 c) := by
    rw [lineReversals_append, r.lineReversals_credits h.batches, r.line_reversals h.batches hp hc,
      hstart]
  have hsrc : ((w.lineRun p c).2.map (drawWrite d p.1 p.2 c)).filterMap (rowSource w.events) =
      (w.lineRun p c).2.map (·.source) := by
    rw [filterMap_map, ← filterMap_eq_map]
    refine filterMap_congr fun dr hdr => ?_
    obtain ⟨-, -, en, hen, hl, hs⟩ := Pool.run_draw_mem _ _ hdr
    obtain ⟨_, hrow, rfl⟩ := mem_map.1 hen
    obtain ⟨he, hr⟩ := mem_ledgerReversals.1 (mem_of_mem_filter hrow)
    show rowSource w.events (drawWrite d p.1 p.2 c dr) = some dr.source
    rw [← hs]
    exact rowSource_eq h.events he hr (congrArg _ hl.symm)
  unfold World.drawn
  simp only [hrows, filterMap_append, hsrc, map_append, sum_append, map_map,
    toFinset_append, Pool.resume, Pool.run_base, Pool.run_quote]
  rfl

theorem World.Sound.drawn_run_of_not_due (h : w.Sound d) (r : PlanRun d w)
    (hp : p ∈ finalizedLines w.batches) (hdue : p ∉ dueLines w.inputs) :
    r.booked.drawn p = w.drawn p := by
  have hnil := h.reversals_of_not_due r hp hdue
  simp only [World.drawn, lineReversals_append _ (_ ++ _), hnil, append_nil,
    r.lineReversals_credits h.batches]

theorem World.Sound.drawn_credits (h : w.Sound d) (r : PlanRun d w) :
    r.credited.drawn p = w.drawn p := by
  simp [World.drawn, r.lineReversals_credits h.batches]

theorem World.drawn_claims (cs : List (String × Uuid)) :
    World.drawn { w with stored := claimAll w.stored cs } p = w.drawn p := by
  obtain ⟨g, hg⟩ := claimAll_eq w.stored cs
  simp only [World.drawn, hg, lineReversals_owners, map_map, filterMap_map]
  rfl

theorem World.Sound.drawn_of_uncredited (h : w.Sound d)
    (hno : ∀ c ∈ w.stored, c.kind = .credit → c.key ≠ lineKey p.1 p.2) : w.drawn p = ⟨∅, 0, 0⟩ := by
  simp [World.drawn, h.reversals_of_uncredited hno]

end drawn

/-! ## The invariant of a line over runs -/

/-- Every reversal row of the line's events takes back `m` of its event, in every reading. -/
def World.Amounts (w : World) (p : Batch × LineItem) (m : Uuid → Nat) : Prop :=
  ∀ row ∈ ledgerReversals w.events, row.2 ∈ p.2.sourceCreditEventIds →
    reversalAmount w.inputs row.1 row.2 = some (m row.2)

/-- The line's stored reversals are on the way to drawing its pool exactly. -/
def World.LineInv (w : World) (p : Batch × LineItem) (m : Uuid → Nat) : Prop :=
  ∀ c ∈ w.stored, c.kind = .credit → c.key = lineKey p.1 p.2 →
    (linePool w.inputs p.2 c.lineCredit).Tracks m (w.drawn p)

section lineInv

variable {d : RailDescriptor} {w : World} {p : Batch × LineItem} {m : Uuid → Nat}

theorem lineEntries_source {rows : List (CreditEvent × Uuid)} {en : Entry Uuid Uuid}
    (h : en ∈ lineEntries w.inputs p.2 rows) : en.source ∈ p.2.sourceCreditEventIds := by
  obtain ⟨_, hrow, rfl⟩ := mem_map.1 h
  exact (of_decide_eq_true (mem_filter.1 hrow).2).2

theorem World.Amounts.entry (h : w.Amounts p m) {en : Entry Uuid Uuid}
    (hen : en ∈ lineEntries w.inputs p.2 (ledgerReversals w.events)) :
    en.amount = some (m en.source) := by
  obtain ⟨row, hrow, rfl⟩ := mem_map.1 hen
  obtain ⟨hrow, hcond⟩ := mem_filter.1 hrow
  exact h row hrow (of_decide_eq_true hcond).2

theorem World.LineInv.add_credits (h : w.LineInv p m) (hs : w.Sound d)
    (hsrc : p.2.sourceCreditEventIds ≠ []) (r : PlanRun d w) :
    r.credited.LineInv p m := by
  intro c hc hk hkey
  rw [hs.drawn_credits r]
  rcases mem_append.1 hc with hc | hc
  · exact h c hc hk hkey
  obtain ⟨q, -, -, hnone, e, u, -, rfl⟩ := r.mem_credits hs.batches hc
  rw [hs.drawn_of_uncredited fun c' hc' hk' hkey' =>
    creditedFrom_eq_none.1 hnone c' hc' hk' (hkey'.trans hkey.symm)]
  exact Pool.Tracks.start hsrc

/-- A due line's pool, as the run that just credited or found it credited draws it down. -/
theorem World.LineInv.add_reversals (h : w.LineInv p m) (hs : w.Sound d)
    (hsrc : p.2.sourceCreditEventIds ≠ []) (ham : w.Amounts p m)
    (hp : p ∈ finalizedLines w.batches) (r : PlanRun d w) :
    r.booked.LineInv p m := by
  intro c hc hk hkey
  have hc1 := r.mem_of_credit hc hk
  have h1 := h.add_credits hs hsrc r c hc1 hk hkey
  rw [hs.drawn_credits r] at h1
  by_cases hdue : p ∈ dueLines w.inputs
  · have hcred := r.credited_of_mem hs hc1 hk hkey
    rw [hs.drawn_run r hdue hcred]
    refine h1.run (fun en hen => lineEntries_source hen) fun en hen a ha => ?_
    rw [ham.entry hen] at ha
    exact (Option.some.inj ha).symm
  · rw [hs.drawn_run_of_not_due r hp hdue]
    exact h1

theorem World.LineInv.claims (h : w.LineInv p m) (cs : List (String × Uuid)) :
    World.LineInv { w with stored := claimAll w.stored cs } p m := by
  intro a ha hk hkey
  rw [World.drawn_claims]
  obtain ⟨g, hg⟩ := claimAll_eq _ cs
  rw [hg] at ha
  obtain ⟨a0, ha0, rfl⟩ := mem_map.1 ha
  exact h a0 ha0 hk hkey

/-- Recording an epoch under a new version changes no stored credit's pool. -/
theorem World.Priced.linePool_epoch (h : w.Priced) {c : PayoutAccrual} (hc : c ∈ w.stored)
    (hk : c.kind = .credit) (e : RateEpoch) (l : LineItem) :
    linePool { w with epochs := w.epochs ++ [e] }.inputs l c.lineCredit =
      linePool w.inputs l c.lineCredit := by
  obtain ⟨x, hx, hv, -⟩ := h c hc hk
  have hfind : rateForVersion (w.epochs ++ [e]) c.rateVersion =
      rateForVersion w.epochs c.rateVersion := by
    unfold rateForVersion
    rw [map_append, find?_append]
    cases hf : (w.epochs.map _).find? _ with
    | none =>
      exact absurd (find?_eq_none.1 hf _ (mem_map_of_mem hx)) (by simp [hv])
    | some r => rfl
  simp [linePool, World.inputs, PayoutAccrual.lineCredit, hfind]

/-- One step under the line's amounts keeps its invariant, from when it is finalized on. -/
theorem World.Step.lineInv {w' : World} (hstep : World.Step d w w') (hs : w.Sound d)
    (hpr : w.Priced) (ham : w.Amounts p m) (hsrc : p.2.sourceCreditEventIds ≠ [])
    (h : p ∈ finalizedLines w.batches → w.LineInv p m) :
    p ∈ finalizedLines w'.batches → w'.LineInv p m := by
  cases hstep with
  | settle batches hwf hkeep =>
    intro hp c hc hk hkey
    obtain ⟨-, q, hq, -, hqk, -⟩ := hs.credit c hc hk
    obtain rfl := hwf.lines.key_inj (finalizedLines_mono hkeep hq) hp (hqk.trans hkey)
    exact h hq c hc hk hkey
  | ledger events hids hkeep =>
    intro hp c hc hk hkey
    have hdrawn : World.drawn { w with events := events } p = w.drawn p := by
      have hmap : (lineReversals (lineKey p.1 p.2) w.stored).filterMap (rowSource events) =
          (lineReversals (lineKey p.1 p.2) w.stored).filterMap (rowSource w.events) := by
        refine filterMap_congr fun a ha => ?_
        obtain ⟨ha, hka, -⟩ := mem_lineReversals.1 ha
        exact hs.rowSource_keep hids hkeep ha hka
      simp [World.drawn, hmap]
    rw [hdrawn]
    exact h hp c hc hk hkey
  | epoch e hnew =>
    intro hp c hc hk hkey
    rw [hpr.linePool_epoch hc hk]
    exact h hp c hc hk hkey
  | principals f => exact h
  | clock t => exact h
  | run stop =>
    intro hp
    rcases accrueRail_cases hs _ with e | ⟨cs, -, e⟩ | ⟨r, e⟩ | ⟨r, cs, -, e⟩
    · rw [e] at hp ⊢; exact h hp
    · rw [e] at hp ⊢; exact (h hp).claims cs
    · rw [e] at hp ⊢; exact (h hp).add_credits hs hsrc r
    · rw [e] at hp ⊢
      exact ((h hp).add_reversals hs hsrc ham hp r).claims cs

/-- Steps whose ledger gives line `p`'s events the amounts `m`. -/
def World.StepUnder (d : RailDescriptor) (p : Batch × LineItem) (m : Uuid → Nat)
    (w w' : World) : Prop :=
  World.Step d w w' ∧ w.Amounts p m

theorem World.Initial.lineInv {w0 : World} (h0 : w0.Initial)
    (hsrc : p.2.sourceCreditEventIds ≠ [])
    (h : Relation.ReflTransGen (World.StepUnder d p m) w0 w) :
    w.Sound d ∧ w.Priced ∧ (p ∈ finalizedLines w.batches → w.LineInv p m) := by
  induction h with
  | refl => exact ⟨h0.sound, by simp [World.Priced, h0.stored], by simp [World.LineInv, h0.stored]⟩
  | tail _ hstep ih =>
    obtain ⟨hs, hpr, hinv⟩ := ih
    exact ⟨hstep.1.sound hs, hstep.1.priced hs hpr, hstep.1.lineInv hs hpr hstep.2 hsrc hinv⟩

end lineInv

/-! ## Lines taken back exactly -/

/-- The line is credited, and its stored reversals take back exactly what it settled and
what its credit accrued. -/
def World.TakenBack (w : World) (p : Batch × LineItem) : Prop :=
  ∃ c ∈ w.stored, c.kind = .credit ∧ c.key = lineKey p.1 p.2 ∧
    ((lineReversals (lineKey p.1 p.2) w.stored).map (·.awardUnits)).sum =
      p.2.settledCreditDeltaMicros.toNat ∧
    ((lineReversals (lineKey p.1 p.2) w.stored).map (·.railUnits)).sum = c.railUnits

/-- The amounts of the other events leave some of the award to event `s`. -/
def RoomFor (l : LineItem) (m : Uuid → Nat) (s : Uuid) : Prop :=
  ∑ e ∈ l.sourceCreditEventIds.toFinset.erase s, m e < l.settledCreditDeltaMicros.toNat

/-- The rate prices the line, and the amount of each event but `s`, without rounding. -/
def PricesWhole (rate : RailRate) (l : LineItem) (m : Uuid → Nat) (s : Uuid) : Prop :=
  rate.denominator ∣ l.settledCreditDeltaMicros.toNat * rate.numerator ∧
    ∀ e ∈ l.sourceCreditEventIds, e ≠ s → rate.denominator ∣ m e * rate.numerator

section exact

variable {d : RailDescriptor} {w : World} {p : Batch × LineItem} {m : Uuid → Nat}

/-- A run over a line whose events are all reversed sees every one of them. -/
theorem World.Sound.run_covered (h : w.Sound d) (r : PlanRun d w) (hp : p ∈ finalizedLines w.batches)
    (hrev : ∀ s ∈ p.2.sourceCreditEventIds, ∃ row ∈ ledgerReversals w.events, row.2 = s)
    (c : LineCredit) : (linePool w.inputs p.2 c).Covered (w.lineRun p c).1.seen := by
  intro s hs
  obtain ⟨row, hrow, rfl⟩ := hrev s hs
  rw [Pool.run_seen, Finset.mem_union]
  by_cases hst : row.1.creditEventId ∈ reversedFrom w.inputs.existing
  · left
    rw [← h.lineStart_eq r hp]
    refine Finset.mem_inter.2 ⟨mem_toFinset.2 (mem_map.2 ⟨row, ?_, rfl⟩), mem_toFinset.2 hs⟩
    exact mem_filter.2 ⟨hrow, by simpa using hst⟩
  · right
    refine mem_toFinset.2 (mem_map.2 ⟨rowEntry w.inputs row, ?_, rfl⟩)
    exact mem_map_of_mem (mem_filter.2 ⟨hrow, by simpa using ⟨hst, hs⟩⟩)

/-- The run that sees the last of the line's events draws its award units exactly. -/
theorem World.LineInv.run_base (h : w.LineInv p m) (hs : w.Sound d)
    (hsrc : p.2.sourceCreditEventIds ≠ []) (ham : w.Amounts p m) (hdue : p ∈ dueLines w.inputs)
    (hrev : ∀ s ∈ p.2.sourceCreditEventIds, ∃ row ∈ ledgerReversals w.events, row.2 = s)
    (r : PlanRun d w) {c : PayoutAccrual} (hc : c ∈ w.stored ++ r.credits) (hk : c.kind = .credit)
    (hkey : c.key = lineKey p.1 p.2) :
    (r.booked.drawn p).base =
      p.2.settledCreditDeltaMicros.toNat := by
  have htr := h.add_credits hs hsrc r c hc hk hkey
  rw [hs.drawn_credits r] at htr
  have hcred := r.credited_of_mem hs hc hk hkey
  rw [hs.drawn_run r hdue hcred]
  refine Pool.run_base_of_seen htr.fits htr.covered (fun en hen => ?_)
    (hs.run_covered r (mem_dueLines.1 hdue).1 hrev _)
  rw [ham.entry hen]
  exact Option.some_ne_none _

/-- A rate without rounding on the line prices its pool without rounding. -/
theorem World.Priced.whole (hpr : w.Priced) (hs : w.Sound d) {c : PayoutAccrual} (hc : c ∈ w.stored)
    (hk : c.kind = .credit) (hkey : c.key = lineKey p.1 p.2) (hp : p ∈ finalizedLines w.batches)
    {rate : RailRate} (hrate : rateForVersion w.epochs c.rateVersion = some rate)
    (h : rate.denominator ∣ p.2.settledCreditDeltaMicros.toNat * rate.numerator) :
    (linePool w.inputs p.2 c.lineCredit).Whole rate.numerator rate.denominator := by
  obtain ⟨e, he, hv, hunits⟩ := hpr c hc hk
  obtain ⟨-, q, hq, -, hqk, haward⟩ := hs.credit c hc hk
  obtain rfl := hs.batches.lines.key_inj hq hp (hqk.trans hkey)
  have hsame : rateForVersion w.epochs c.rateVersion = some e.rate := by
    rw [← hv]; exact rateForVersion_eq hs.epochs he
  obtain rfl : e.rate = rate := Option.some.inj (hsame.symm.trans hrate)
  have hprice : (linePool w.inputs q.2 c.lineCredit).price = e.rate.floorPrice := by
    simp only [linePool, World.inputs, PayoutAccrual.lineCredit, hsame]
    rfl
  refine ⟨e.rate.denominator_pos, fun k => ?_, ?_, h⟩
  · rw [hprice]; rfl
  · rw [hprice]
    show c.railUnits = e.rate.floorPrice q.2.settledCreditDeltaMicros.toNat
    rw [hunits, haward]

theorem World.TakenBack.claims (h : w.TakenBack p) (cs : List (String × Uuid)) :
    World.TakenBack { w with stored := claimAll w.stored cs } p := by
  obtain ⟨g, hg⟩ := claimAll_eq _ cs
  obtain ⟨a, ha, hk, hkey, haward, hrail⟩ := h
  rw [hg]
  refine ⟨_, mem_map_of_mem ha, hk, hkey, ?_⟩
  rw [lineReversals_owners, map_map, map_map]
  exact ⟨haward, hrail⟩

/-- A pool that gave all its award gives nothing to a later run. -/
theorem World.TakenBack.add_reversals (h : w.TakenBack p) (hs : w.Sound d)
    (hp : p ∈ finalizedLines w.batches) (r : PlanRun d w) :
    r.booked.TakenBack p := by
  obtain ⟨c, hc, hk, hkey, haward, hrail⟩ := h
  have hdrawn : (r.booked.drawn p).base =
      (w.drawn p).base ∧
      (r.booked.drawn p).quote =
        (w.drawn p).quote := by
    by_cases hdue : p ∈ dueLines w.inputs
    · have hcred := r.credited_of_mem hs (mem_append_left _ hc) hk hkey
      have hnone := Pool.run_full (P := linePool w.inputs p.2 c.lineCredit) (t := w.drawn p) haward
        (lineEntries w.inputs p.2 (ledgerReversals w.events))
      rw [hs.drawn_run r hdue hcred]
      simp [Pool.resume, Pool.run_base, Pool.run_quote, hnone]
    · rw [hs.drawn_run_of_not_due r hp hdue]
      exact ⟨rfl, rfl⟩
  refine ⟨c, mem_append_left _ (mem_append_left _ hc), hk, hkey, ?_, ?_⟩
  · exact hdrawn.1.trans haward
  · exact hdrawn.2.trans hrail

theorem World.Step.takenBack {w' : World} (hstep : World.Step d w w') (hs : w.Sound d)
    (hp : p ∈ finalizedLines w.batches) (h : w.TakenBack p) :
    p ∈ finalizedLines w'.batches ∧ w'.TakenBack p := by
  cases hstep with
  | settle batches hwf hkeep => exact ⟨finalizedLines_mono hkeep hp, h⟩
  | ledger | epoch | principals | clock => exact ⟨hp, h⟩
  | run stop =>
    rcases accrueRail_cases hs _ with e | ⟨cs, -, e⟩ | ⟨r, e⟩ | ⟨r, cs, -, e⟩
    · rw [e]; exact ⟨hp, h⟩
    · rw [e]; exact ⟨hp, h.claims cs⟩
    · rw [e]
      obtain ⟨c, hc, hk, hkey, _⟩ := h
      refine ⟨hp, c, mem_append_left _ hc, hk, hkey, ?_⟩
      rwa [r.lineReversals_credits hs.batches]
    · rw [e]; exact ⟨hp, (h.add_reversals hs hp r).claims cs⟩

theorem World.TakenBack.steps {w' : World} (h : w.TakenBack p) (hs : w.Sound d)
    (hp : p ∈ finalizedLines w.batches) (hsteps : Relation.ReflTransGen (World.Step d) w w') :
    w'.TakenBack p := by
  suffices w'.Sound d ∧ p ∈ finalizedLines w'.batches ∧ w'.TakenBack p from this.2.2
  induction hsteps with
  | refl => exact ⟨hs, hp, h⟩
  | tail _ hstep ih => exact ⟨hstep.sound ih.1, hstep.takenBack ih.1 ih.2.1 ih.2.2⟩

end exact

/-- A line all of whose events are reversed is taken back exactly, by the run that sees them
and from then on, when for each event that may come last the others' amounts leave room for it, or
the credit's rate loses nothing to rounding on them. -/
theorem full_reversal_exact (d : RailDescriptor) (p : Batch × LineItem) (m : Uuid → Nat)
    (w₀ w : World) (h₀ : w₀.Initial)
    (hrun : Relation.ReflTransGen (World.StepUnder d p m) w₀ w) (ham : w.Amounts p m)
    (hsrc : p.2.sourceCreditEventIds ≠ [])
    (hp : p ∈ finalizedLines w.batches) (hdue : p.1.createdAt < w.now)
    (hrev : ∀ s ∈ p.2.sourceCreditEventIds, ∃ row ∈ ledgerReversals w.events, row.2 = s)
    (plan : AccrualPlan) (hplan : planRailAccruals d w.inputs = .ok plan)
    (stop : RunStop) (hstop : stop.storesReversals)
    (c : PayoutAccrual) (hc : c ∈ (accrueRail d stop w).stored) (hk : c.kind = .credit)
    (hkey : c.key = lineKey p.1 p.2)
    (hexact : ∀ s ∈ p.2.sourceCreditEventIds, RoomFor p.2 m s ∨
      ∃ rate, rateForVersion w.epochs c.rateVersion = some rate ∧ PricesWhole rate p.2 m s)
    (w' : World) (hlater : Relation.ReflTransGen (World.Step d) (accrueRail d stop w) w') :
    w'.TakenBack p := by
  obtain ⟨hs, hpr, hinv⟩ := h₀.lineInv hsrc hrun
  have hs' := hs.run stop
  have hpr' := (World.Step.run stop).priced hs hpr
  have hinv' := (World.Step.run stop).lineInv hs hpr ham hsrc hinv
  -- the plan is not that of a rail without epochs: the line is credited
  obtain ⟨r, hr⟩ : ∃ r : PlanRun d w, plan.writes = r.credits ++ r.reversals := by
    rcases PlanRun.of_plan hplan with ⟨hnone, -⟩ | hr
    · obtain ⟨e, he, -⟩ := hpr' c hc hk
      rw [accrueRail_eq, hnone] at he
      cases he
    · exact hr
  rcases accrueRail_of_plan hs hplan hr stop with ⟨rfl, -⟩ | ⟨rfl, -⟩ | ⟨-, cs, -, e⟩
  · cases hstop
  · cases hstop
  have hp' : p ∈ finalizedLines (accrueRail d stop w).batches := by rw [e]; exact hp
  have hbase : ((accrueRail d stop w).drawn p).base = p.2.settledCreditDeltaMicros.toNat := by
    obtain ⟨g, hg⟩ := claimAll_eq _ cs
    rw [e, hg] at hc
    obtain ⟨c0, hc0, rfl⟩ := mem_map.1 hc
    have hc1 := r.mem_of_credit hc0 hk
    rw [e, World.drawn_claims (w := r.booked)]
    exact (hinv hp).run_base hs hsrc ham (mem_dueLines.2 ⟨hp, hdue⟩) hrev r hc1 hk hkey
  have hquote : ((accrueRail d stop w).drawn p).quote = c.railUnits := by
    refine (hinv' hp' c hc hk hkey).exact hbase fun s hs => (hexact s hs).imp id ?_
    rintro ⟨_, hrate, hline, hothers⟩
    refine ⟨_, _, hpr'.whole hs' hc hk hkey hp' ?_ hline, hothers⟩
    rw [accrueRail_eq]; exact hrate
  exact World.TakenBack.steps ⟨c, hc, hk, hkey, hbase, hquote⟩ hs' hp' hlater

/-! ### A line of three events -/

def halfRate : RailRate := ⟨"v1", 1, 2, Nat.one_pos, Nat.two_pos⟩

def tripleLine : Batch × LineItem :=
  let l : LineItem := ⟨"principal-a", "sha256:a", 10, [1, 2, 3], none⟩
  (⟨9, .finalized, [1, 2, 3], [l], 100⟩, l)

/-- A line of 10 micros over three events of the amounts `a`, `b` and `c`, all reversed, at a
rate of one rail unit for two micros. -/
def tripleWorld (a b c : String) : World where
  batches := [tripleLine.1]
  events := [sourceEvent 1 a, sourceEvent 2 b, sourceEvent 3 c, reversalOf 1 a, reversalOf 2 b,
    reversalOf 3 c]
  epochs := [⟨halfRate, 50⟩]
  principalAccounts := fun _ => none
  now := 200
  stored := []

theorem tripleWorld_initial (a b c : String) : (tripleWorld a b c).Initial :=
  ⟨BatchesWF.singleton (l := tripleLine.2) rfl, by simp [tripleWorld, sourceEvent, reversalOf],
    by simp [tripleWorld], rfl⟩

instance (w : World) (p : Batch × LineItem) (m : Uuid → Nat) : Decidable (w.Amounts p m) :=
  inferInstanceAs (Decidable (∀ row ∈ ledgerReversals w.events, _))

instance (l : LineItem) (m : Uuid → Nat) (s : Uuid) : Decidable (RoomFor l m s) :=
  Nat.decLt _ _

def tripleCredit : PayoutAccrual :=
  ⟨"near_ai", .credit, 9, "sha256:a", none, none, 10, 5, "v1", "trace_credit"⟩

def tripleReversal (event : Uuid) (award units : Nat) : PayoutAccrual :=
  ⟨"near_ai", .reversal, 9, "sha256:a", some event, none, award, units, "v1", "trace_credit"⟩

/-- Amounts of 5, 5 and 1 micros, each rounded up on its own, use up the award before the last
event: its reversal is skipped and one of the credit's 5 rail units is never taken back. -/
theorem full_reversal_leaves_rail_unit :
    let w := tripleWorld "0.000005" "0.000005" "0.000001"
    let w' := accrueRail sampleRail (.claims 1) w
    w.Initial ∧ tripleLine ∈ finalizedLines w.batches ∧ tripleLine.1.createdAt < w.now ∧
    w.Amounts tripleLine (fun s => if s = 3 then 1 else 5) ∧
    (∀ s ∈ tripleLine.2.sourceCreditEventIds, ∃ row ∈ ledgerReversals w.events, row.2 = s) ∧
    w'.stored = [tripleCredit, tripleReversal 11 5 2, tripleReversal 12 5 2] ∧
    ¬ w'.TakenBack tripleLine := by
  intro w w'
  have hstored : w'.stored = [tripleCredit, tripleReversal 11 5 2, tripleReversal 12 5 2] := by
    decide +kernel
  refine ⟨tripleWorld_initial _ _ _, by decide +kernel, by decide, by decide +kernel,
    by decide +kernel, hstored, ?_⟩
  rintro ⟨c, hc, hk, -, -, hrail⟩
  rw [hstored] at hc hrail
  have hcredit : c = tripleCredit := by
    simp only [mem_cons, not_mem_nil, or_false] at hc
    rcases hc with rfl | rfl | rfl
    · rfl
    · cases hk
    · cases hk
  rw [hcredit] at hrail
  revert hrail
  decide

/-- Amounts of 3, 3 and 4 micros are taken back exactly: 1, 1 and 3 of the 5 rail units. -/
theorem full_reversal_exact_triple :
    let w := tripleWorld "0.000003" "0.000003" "0.000004"
    let w' := accrueRail sampleRail .reversals w
    w'.stored = [tripleCredit, tripleReversal 11 3 1, tripleReversal 12 3 1, tripleReversal 13 4 3] ∧
    w'.TakenBack tripleLine := by
  intro w w'
  have hstored : w'.stored =
      [tripleCredit, tripleReversal 11 3 1, tripleReversal 12 3 1, tripleReversal 13 4 3] := by
    decide +kernel
  obtain ⟨plan, hplan⟩ : ∃ plan, planRailAccruals sampleRail w.inputs = .ok plan := by
    cases h : planRailAccruals sampleRail w.inputs with
    | ok plan => exact ⟨plan, rfl⟩
    | error e =>
      have hnone : w'.stored = [] := by simp only [w', accrueRail, h]; rfl
      rw [hnone] at hstored; cases hstored
  have hroom : ∀ s ∈ tripleLine.2.sourceCreditEventIds,
      RoomFor tripleLine.2 (fun s => if s = 3 then 4 else 3) s := by decide
  exact ⟨hstored, full_reversal_exact sampleRail tripleLine (fun s => if s = 3 then 4 else 3) w w
      (tripleWorld_initial _ _ _) .refl (by decide +kernel) (by decide) (by decide +kernel)
      (by decide) (by decide +kernel) plan hplan .reversals rfl tripleCredit
      (hstored ▸ (.head _) ..) rfl rfl (fun s hs => .inl (hroom s hs)) _ .refl⟩

end TraceCommons.Payout
