import TraceCommons.Lib.Table
import TraceCommons.Payout.AccrualLine

/-!
# Accrual over runs

One tenant's rows on one rail: settlement batches, the credit ledger, rate
epochs, principal links and the stored accruals. Between runs batches are added
or finalized (a finalized one never changes), ledger rows are added, epochs are
recorded under new versions, principals move and the clock moves. A run is
`accrue_rail`, stopped anywhere between its store calls.

`World.Sound` is the invariant of all runs: at most one credit for a line, at
most one reversal for a source event, and no line taken back beyond what it
settled or beyond what its credit accrued.
-/

namespace TraceCommons.Payout

open Drawdown List

/-! ## The accrual table -/

/-- The two partial unique indexes of `trace_payout_accruals`: a rail's credits by line, its
reversals by ledger row. -/
def PayoutAccrual.Conflicts (a b : PayoutAccrual) : Prop :=
  a.railId = b.railId ∧
    ((a.kind = .credit ∧ b.kind = .credit ∧ a.key = b.key) ∨
      (a.kind = .reversal ∧ b.kind = .reversal ∧ a.reversalEventId = b.reversalEventId))

instance (a b : PayoutAccrual) : Decidable (a.Conflicts b) := inferInstanceAs (Decidable (_ ∧ _))

/-- `insert_payout_accruals`: each row `ON CONFLICT DO NOTHING`. -/
def insertPayoutAccruals (stored writes : List PayoutAccrual) : List PayoutAccrual :=
  writes.foldl (fun s w => if ∃ a ∈ s, a.Conflicts w then s else s ++ [w]) stored

/-- `claim_payout_accruals`: sets the owner of the hash's unowned rows. -/
def claimPayoutAccruals (stored : List PayoutAccrual) (hash : String) (account : Uuid) :
    List PayoutAccrual :=
  stored.map fun a =>
    if a.creditAccountHash = hash ∧ a.accountId = none then { a with accountId := some account }
    else a

def claimAll (stored : List PayoutAccrual) (claims : List (String × Uuid)) : List PayoutAccrual :=
  claims.foldl (fun s c => claimPayoutAccruals s c.1 c.2) stored

variable {stored : List PayoutAccrual}

theorem insertPayoutAccruals_eq {writes : List PayoutAccrual}
    (hs : ∀ a ∈ stored, ∀ w ∈ writes, ¬ a.Conflicts w)
    (hw : writes.Pairwise fun a w => ¬ a.Conflicts w) :
    insertPayoutAccruals stored writes = stored ++ writes := by
  unfold insertPayoutAccruals
  induction writes generalizing stored with
  | nil => simp
  | cons w ws ih =>
    rw [pairwise_cons] at hw
    have hno : ¬ ∃ a ∈ stored, a.Conflicts w := fun ⟨a, ha, hc⟩ => hs a ha w (by simp) hc
    rw [foldl_cons, if_neg hno, ih ?_ hw.2]
    · simp
    intro a ha w' hw'
    rcases mem_append.1 ha with ha | ha
    · exact hs a ha w' (by simp [hw'])
    · obtain rfl := mem_singleton.1 ha
      exact hw.1 w' hw'

/-! ## Worlds and steps -/

structure World where
  batches : List Batch
  events : List CreditEvent
  epochs : List RateEpoch
  principalAccounts : String → Option Uuid
  now : Time
  stored : List PayoutAccrual

namespace World

def inputs (w : World) : AccrualInputs :=
  ⟨w.batches, w.events, w.principalAccounts, w.stored, w.epochs, w.now⟩

end World

def finalizedLines (batches : List Batch) : List (Batch × LineItem) :=
  (batches.filter (·.status = .finalized)).flatMap batchLines

/-- What settlement guarantees of the batch table. -/
structure BatchesWF (batches : List Batch) : Prop where
  ids : (batches.map (·.settlementBatchId)).Nodup
  hashes : ∀ b ∈ batches, b.status = .finalized →
    (b.lineItems.map (·.creditAccountHash)).Nodup
  events : ∀ p ∈ finalizedLines batches, ∀ q ∈ finalizedLines batches, ∀ e,
    e ∈ p.2.sourceCreditEventIds → e ∈ q.2.sourceCreditEventIds → p = q

/-- Where a run of `accrue_rail` stops: before its first store call, after it stored the
credits, the reversals too, or also the first `n` claims. -/
inductive RunStop
  | planned | credits | reversals
  | claims (n : Nat)
  deriving DecidableEq

/-- `accrue_rail` up to `stop`. A plan that fails writes nothing. -/
def accrueRail (d : RailDescriptor) (stop : RunStop) (w : World) : World :=
  match planRailAccruals d w.inputs with
  | .error _ => w
  | .ok p =>
    let credits := insertPayoutAccruals w.stored (p.writes.filter (·.kind = .credit))
    let reversals := insertPayoutAccruals credits (p.writes.filter (·.kind ≠ .credit))
    match stop with
    | .planned => w
    | .credits => { w with stored := credits }
    | .reversals => { w with stored := reversals }
    | .claims n => { w with stored := claimAll reversals (p.claims.take n) }

/-- A run writes accruals only. -/
theorem accrueRail_eq (d : RailDescriptor) (stop : RunStop) (w : World) :
    accrueRail d stop w = { w with stored := (accrueRail d stop w).stored } := by
  unfold accrueRail
  split
  · rfl
  · cases stop <;> rfl

inductive World.Step (d : RailDescriptor) : World → World → Prop
  | settle {w : World} (batches : List Batch) (hwf : BatchesWF batches)
      (hkeep : ∀ b ∈ w.batches, b.status = .finalized → b ∈ batches) :
      Step d w { w with batches := batches }
  | ledger {w : World} (events : List CreditEvent) (hids : (events.map (·.creditEventId)).Nodup)
      (hkeep : ∀ e ∈ w.events, (reversalRow e).isSome → e ∈ events) :
      Step d w { w with events := events }
  | epoch {w : World} (e : RateEpoch) (hnew : ∀ x ∈ w.epochs, x.rate.version ≠ e.rate.version) :
      Step d w { w with epochs := w.epochs ++ [e] }
  | principals {w : World} (f : String → Option Uuid) : Step d w { w with principalAccounts := f }
  | clock {w : World} (t : Time) : Step d w { w with now := t }
  | run {w : World} (stop : RunStop) : Step d w (accrueRail d stop w)

/-- Before the first run: well-formed rows and an empty accrual table. -/
structure World.Initial (w : World) : Prop where
  batches : BatchesWF w.batches
  events : (w.events.map (·.creditEventId)).Nodup
  epochs : (w.epochs.map (·.rate.version)).Nodup
  stored : w.stored = []

/-- Some sequence of steps and runs leads here. -/
def World.Reachable (d : RailDescriptor) (w : World) : Prop :=
  ∃ w₀ : World, w₀.Initial ∧ Relation.ReflTransGen (World.Step d) w₀ w

/-! ## The invariant -/

/-- The source event a stored reversal takes back, by its ledger row. -/
def rowSource (events : List CreditEvent) (a : PayoutAccrual) : Option Uuid :=
  a.reversalEventId.bind fun r =>
    (events.find? (·.creditEventId = r)).bind reversedEventId

/-- A stored reversal's provenance: its ledger row, and the line of the event it reverses. -/
def Sourced (w : World) (a : PayoutAccrual) (s : Uuid) (p : Batch × LineItem) : Prop :=
  ∃ e ∈ w.events, reversalRow e = some (e, s) ∧ a.reversalEventId = some e.creditEventId ∧
    p ∈ finalizedLines w.batches ∧ lineKey p.1 p.2 = a.key ∧ s ∈ p.2.sourceCreditEventIds

structure World.Sound (d : RailDescriptor) (w : World) : Prop where
  batches : BatchesWF w.batches
  events : (w.events.map (·.creditEventId)).Nodup
  epochs : (w.epochs.map (·.rate.version)).Nodup
  rail : ∀ a ∈ w.stored, a.railId = d.railId
  credit : ∀ a ∈ w.stored, a.kind = .credit → a.reversalEventId = none ∧
    ∃ p ∈ finalizedLines w.batches, 0 < p.2.settledCreditDeltaMicros ∧
      lineKey p.1 p.2 = a.key ∧ a.awardUnits = p.2.settledCreditDeltaMicros.toNat
  oneCredit : ((w.stored.filter (·.kind = .credit)).map (·.key)).Nodup
  reversal : ∀ a ∈ w.stored, a.kind = .reversal → (∃ s p, Sourced w a s p) ∧
    ∃ c ∈ w.stored, c.kind = .credit ∧ c.key = a.key
  oneSource : ((w.stored.filter (·.kind = .reversal)).map (rowSource w.events)).Nodup
  fits : ∀ p ∈ finalizedLines w.batches, ∀ c ∈ w.stored, c.kind = .credit →
    c.key = lineKey p.1 p.2 →
    ((lineReversals (lineKey p.1 p.2) w.stored).map (·.awardUnits)).sum
      ≤ p.2.settledCreditDeltaMicros.toNat ∧
    ((lineReversals (lineKey p.1 p.2) w.stored).map (·.railUnits)).sum ≤ c.railUnits

/-! ## Lines and credits of a sound world -/

theorem filterMap_map_sublist {α β γ : Type*} {f : α → Option β} {g : β → γ} {h : α → γ}
    (hf : ∀ a b, f a = some b → g b = h a) (l : List α) :
    List.Sublist ((l.filterMap f).map g) (l.map h) := by
  induction l with
  | nil => simp
  | cons a l ih =>
    cases hfa : f a with
    | none => simpa [hfa] using ih.cons _
    | some b => simpa [hfa, hf a b hfa] using ih.cons_cons (h a)

variable {p : Batch × LineItem} {batches : List Batch}

theorem mem_finalizedLines :
    p ∈ finalizedLines batches ↔
      p.1 ∈ batches ∧ p.1.status = .finalized ∧ p.2 ∈ p.1.lineItems := by
  simp only [finalizedLines, batchLines, mem_flatMap, mem_filter, mem_map, decide_eq_true_eq]
  constructor
  · rintro ⟨b, ⟨hb, hf⟩, l, hl, rfl⟩; exact ⟨hb, hf, hl⟩
  · rintro ⟨hb, hf, hl⟩; exact ⟨p.1, ⟨hb, hf⟩, p.2, hl, rfl⟩

theorem mem_dueLines {inputs : AccrualInputs} :
    p ∈ dueLines inputs ↔
      p ∈ finalizedLines inputs.batches ∧ p.1.createdAt < inputs.now := by
  simp only [mem_finalizedLines, dueLines, dueBatches, batchLines, mem_flatMap,
    mem_filter, mem_map, decide_eq_true_eq]
  constructor
  · rintro ⟨b, ⟨hb, hf, hn⟩, l, hl, rfl⟩; exact ⟨⟨hb, hf, hl⟩, hn⟩
  · rintro ⟨⟨hb, hf, hl⟩, hn⟩; exact ⟨p.1, ⟨hb, hf, hn⟩, p.2, hl, rfl⟩

theorem lineKeys_nodup {bs : List Batch} (hids : (bs.map (·.settlementBatchId)).Nodup)
    (hh : ∀ b ∈ bs, (b.lineItems.map (·.creditAccountHash)).Nodup) :
    ((bs.flatMap batchLines).map fun p => lineKey p.1 p.2).Nodup := by
  induction bs with
  | nil => simp
  | cons b bs ih =>
    rw [map_cons, nodup_cons] at hids
    rw [flatMap_cons, map_append, nodup_append]
    refine ⟨?_, ih hids.2 fun b' hb' => hh b' (by simp [hb']), ?_⟩
    · have h1 := (hh b (by simp)).map (f := fun h => (b.settlementBatchId, h))
        fun _ _ h => (Prod.mk.inj h).2
      simpa [batchLines, lineKey, Function.comp_def] using h1
    · rintro x hx y hy rfl
      simp only [batchLines, map_map, mem_map, mem_flatMap] at hx hy
      obtain ⟨l, -, rfl⟩ := hx
      obtain ⟨p, ⟨b', hb', l', -, rfl⟩, hy⟩ := hy
      exact hids.1 (mem_map.2 ⟨b', hb', congrArg Prod.fst hy⟩)

theorem BatchesWF.lines (h : BatchesWF batches) :
    LinesWF (finalizedLines batches) where
  keys := lineKeys_nodup (h.ids.sublist (filter_sublist.map _)) fun b hb =>
    h.hashes b (mem_filter.1 hb).1 (of_decide_eq_true (mem_filter.1 hb).2)
  events := h.events

theorem BatchesWF.due (inputs : AccrualInputs) (h : BatchesWF inputs.batches) :
    LinesWF (dueLines inputs) where
  keys := lineKeys_nodup (h.ids.sublist (filter_sublist.map _)) fun b hb =>
    h.hashes b (mem_filter.1 hb).1 (of_decide_eq_true (mem_filter.1 hb).2).1
  events := fun p hp q hq =>
    h.events p (mem_dueLines.1 hp).1 q (mem_dueLines.1 hq).1

variable {k : LineKey}

theorem creditedFrom_eq_none :
    creditedFrom stored k = none ↔ ∀ a ∈ stored, a.kind = .credit → a.key ≠ k := by
  simp [creditedFrom]

variable {c : LineCredit}

theorem creditedFrom_eq_some (h : creditedFrom stored k = some c) :
    ∃ a ∈ stored, a.kind = .credit ∧ a.key = k ∧ a.lineCredit = c := by
  obtain ⟨a, ha, rfl⟩ := Option.map_eq_some_iff.1 h
  have hm := mem_of_find?_eq_some ha
  have hk := find?_some ha
  rw [mem_reverse, mem_filter] at hm
  exact ⟨a, hm.1, by simpa using hm.2, by simpa using hk, rfl⟩

/-- The stored credit of a line, where there is one, is the only one. -/
theorem World.Sound.credit_inj {d : RailDescriptor} {w : World} (h : w.Sound d)
    {a c : PayoutAccrual} (ha : a ∈ w.stored) (hc : c ∈ w.stored) (hak : a.kind = .credit)
    (hck : c.kind = .credit) (hk : a.key = c.key) : a = c :=
  inj_on_of_nodup_map h.oneCredit (mem_filter.2 ⟨ha, by simpa using hak⟩)
    (mem_filter.2 ⟨hc, by simpa using hck⟩) hk

variable {events : List CreditEvent}

/-- The source a stored reversal's ledger row names. -/
theorem rowSource_eq (hnd : (events.map (·.creditEventId)).Nodup) {a : PayoutAccrual}
    {e : CreditEvent} {s : Uuid} (he : e ∈ events) (hr : reversalRow e = some (e, s))
    (ha : a.reversalEventId = some e.creditEventId) : rowSource events a = some s := by
  have hfind := Table.find_of_mem hnd he
  have hsrc : reversedEventId e = some s := by
    unfold reversalRow at hr
    split at hr
    · obtain ⟨s', hs', heq⟩ := Option.map_eq_some_iff.1 hr
      rw [hs', (Prod.mk.inj heq).2]
    · cases hr
  simp [rowSource, ha, hfind, hsrc]

/-! ## What one run writes -/

theorem reversalRow_fst {e : CreditEvent} {r : CreditEvent × Uuid} (h : reversalRow e = some r) :
    r.1 = e := by
  unfold reversalRow at h
  split at h
  · obtain ⟨s, -, rfl⟩ := Option.map_eq_some_iff.1 h; rfl
  · cases h

theorem mem_ledgerReversals {r : CreditEvent × Uuid} :
    r ∈ ledgerReversals events ↔ r.1 ∈ events ∧ reversalRow r.1 = some r := by
  rw [ledgerReversals, (perm_insertionSort _ _).mem_iff, mem_filterMap]
  constructor
  · rintro ⟨e, he, hr⟩
    obtain rfl := reversalRow_fst hr
    exact ⟨he, hr⟩
  · rintro ⟨he, hr⟩; exact ⟨r.1, he, hr⟩

theorem ledgerReversals_nodup (hnd : (events.map (·.creditEventId)).Nodup) :
    ((ledgerReversals events).map (·.1.creditEventId)).Nodup := by
  refine (((perm_insertionSort _ _).map _).nodup_iff).2 ?_
  refine hnd.sublist (filterMap_map_sublist (h := (·.creditEventId)) (fun e r hr => ?_) _)
  rw [reversalRow_fst hr]

/-- A successful plan of a run: its loops' results and its reversals with their ledger rows. -/
structure PlanRun (d : RailDescriptor) (w : World) where
  taken : LineKey → Nat × Nat
  cs : CreditState
  st : ReversalState
  qs : List ((CreditEvent × Uuid) × PayoutAccrual)
  taken_ok : takenFrom w.stored = .ok taken
  credit_ok : creditPhase d w.inputs = .ok cs
  reversal_ok : reversalPhase d w.inputs cs taken = .ok st
  writes : st.plan.writes = cs.plan.writes ++ qs.map (·.2)
  rows : List.Sublist (qs.map (·.1)) (ledgerReversals w.events)
  sources : (qs.map (·.1.2)).Nodup
  fresh : ∀ q ∈ qs, q.1.2 ∉ sourcesReversedFrom w.inputs
  planned : ∀ q ∈ qs, PlannedReversal d w.inputs cs q

namespace PlanRun

variable {d : RailDescriptor} {w : World} (r : PlanRun d w)

def credits : List PayoutAccrual := r.cs.plan.writes

def reversals : List PayoutAccrual := r.qs.map (·.2)

abbrev credited : World := { w with stored := w.stored ++ r.credits }

abbrev booked : World := { w with stored := w.stored ++ r.credits ++ r.reversals }

theorem of_plan {p : AccrualPlan} (h : planRailAccruals d w.inputs = .ok p) :
    (w.epochs = [] ∧ p.writes = []) ∨
      ∃ r : PlanRun d w, p.writes = r.credits ++ r.reversals := by
  rcases planRailAccruals_ok h with h | ⟨taken, cs, st, ht, hc, hr, hw⟩
  · exact .inl h
  · obtain ⟨qs, hq⟩ := reversalPhase_writes hr
    exact .inr ⟨⟨taken, cs, st, qs, ht, hc, hr, hq.writes, hq.rows, hq.nodup, hq.fresh, hq.planned⟩,
      by rw [hw, hq.writes]; rfl⟩

theorem spec (hw : BatchesWF w.batches) : CreditSpec d w.inputs (dueLines w.inputs) r.cs :=
  creditPhase_spec d _ (BatchesWF.due _ hw).keys r.credit_ok

variable {a : PayoutAccrual}

theorem mem_credits (hw : BatchesWF w.batches) (ha : a ∈ r.credits) :
    ∃ p ∈ dueLines w.inputs, 0 < p.2.settledCreditDeltaMicros ∧
      creditedFrom w.stored (lineKey p.1 p.2) = none ∧
      ∃ e u, linePrice w.inputs p = some (e, u) ∧ a = creditWrite d p.1 p.2 e u := by
  rw [credits, (r.spec hw).writes, mem_filterMap] at ha
  obtain ⟨p, hp, hwr⟩ := ha
  obtain ⟨hp, hcond⟩ := mem_filter.1 hp
  obtain ⟨⟨e, u⟩, hpr, rfl⟩ := Option.map_eq_some_iff.1 hwr
  exact ⟨p, hp, (of_decide_eq_true hcond).1, (of_decide_eq_true hcond).2, e, u, hpr, rfl⟩

theorem credits_kind (hw : BatchesWF w.batches) (ha : a ∈ r.credits) : a.kind = .credit := by
  obtain ⟨p, -, -, -, e, u, -, rfl⟩ := r.mem_credits hw ha; rfl

theorem credits_nodup (hw : BatchesWF w.batches) : (r.credits.map (·.key)).Nodup := by
  have hk := (BatchesWF.due w.inputs hw).keys
  rw [credits, (r.spec hw).writes]
  refine (hk.sublist (filter_sublist.map _)).sublist
    (filterMap_map_sublist (fun p a ha => ?_) _)
  obtain ⟨⟨e, u⟩, -, rfl⟩ := Option.map_eq_some_iff.1 ha
  rfl

theorem mem_reversals (ha : a ∈ r.reversals) :
    ∃ row ∈ ledgerReversals w.events, ∃ b l c dr, (row, a) ∈ r.qs ∧
      PricedRow w.inputs r.cs row b l c ∧ a = drawWrite d b l c dr ∧
      dr.label = row.1.creditEventId := by
  obtain ⟨q, hq, rfl⟩ := mem_map.1 ha
  obtain ⟨b, l, c, dr, hp, he, hl, -⟩ := (r.planned q hq).draw
  exact ⟨q.1, r.rows.subset (mem_map_of_mem hq), b, l, c, dr, hq, hp, he, hl⟩

theorem reversals_kind (ha : a ∈ r.reversals) : a.kind = .reversal := by
  obtain ⟨_, -, b, l, c, dr, -, -, rfl, -⟩ := r.mem_reversals ha; rfl

/-- A run's reversals are not among the stored credits. -/
theorem mem_of_credit (ha : a ∈ w.stored ++ r.credits ++ r.reversals) (hk : a.kind = .credit) :
    a ∈ w.stored ++ r.credits := by
  rcases mem_append.1 ha with ha | ha
  · exact ha
  · rw [r.reversals_kind ha] at hk; cases hk

theorem reversals_eventId {q : (CreditEvent × Uuid) × PayoutAccrual} (hq : q ∈ r.qs) :
    q.2.reversalEventId = some q.1.1.creditEventId := by
  obtain ⟨b, l, c, dr, -, he, hl, -⟩ := (r.planned q hq).draw
  rw [he, ← hl]; rfl

theorem reversals_nodup (hnd : (w.events.map (·.creditEventId)).Nodup) :
    (r.reversals.map (·.reversalEventId)).Nodup := by
  have h1 : (r.qs.map fun q => q.1.1.creditEventId).Nodup := by
    have := (ledgerReversals_nodup hnd).sublist (r.rows.map _)
    simpa [Function.comp_def] using this
  have h2 : r.reversals.map (·.reversalEventId) =
      r.qs.map fun q => some q.1.1.creditEventId := by
    rw [reversals, map_map]
    exact map_congr_left fun q hq => r.reversals_eventId hq
  rw [h2]
  have := h1.map (Option.some_injective _)
  simpa [Function.comp_def] using this

/-- A due line that settled something is the first one found for its key. -/
theorem find?_due (hw : BatchesWF w.batches) (hp : p ∈ dueLines w.inputs)
    (hpos : 0 < p.2.settledCreditDeltaMicros) :
    (dueLines w.inputs).find? (Accrues (lineKey p.1 p.2)) = some p := by
  cases hf : (dueLines _).find? _ with
  | none => exact absurd (find?_eq_none.1 hf p hp) (by simp [Accrues, hpos])
  | some q =>
    have hacc : Accrues (lineKey p.1 p.2) q := by simpa using find?_some hf
    rw [(BatchesWF.due _ hw).key_inj (mem_of_find?_eq_some hf) hp hacc.2]

/-- A credit stored before the run or written by it is what the loop credits its line at. -/
theorem credited_of_mem (h : w.Sound d) {c : PayoutAccrual} (hc : c ∈ w.stored ++ r.credits)
    (hk : c.kind = .credit) (hkey : c.key = k) :
    r.cs.credited k = some c.lineCredit := by
  subst hkey
  rw [(r.spec h.batches).credited]
  rcases mem_append.1 hc with hc | hc
  · cases hf : creditedFrom _ _ with
    | none => exact absurd rfl (creditedFrom_eq_none.1 hf c hc hk)
    | some x =>
      obtain ⟨a, ha, hak, hakey, rfl⟩ := creditedFrom_eq_some hf
      rw [h.credit_inj ha hc hak hk hakey]; rfl
  · obtain ⟨p, hp, hpos, hnone, e, u, hpr, rfl⟩ := r.mem_credits h.batches hc
    have hkey : (creditWrite d p.1 p.2 e u).key = lineKey p.1 p.2 := rfl
    have hn : creditedFrom w.inputs.existing (lineKey p.1 p.2) = none := hnone
    rw [hkey, hn, find?_due h.batches hp hpos]
    simp [lineCredit, hpr, PayoutAccrual.lineCredit, creditWrite]

/-- A line the loop credits has a credit stored before the run or written by it. -/
theorem mem_of_credited (hw : BatchesWF w.batches) (hc : r.cs.credited k = some c) :
    ∃ a ∈ w.stored ++ r.credits, a.kind = .credit ∧ a.key = k ∧ a.lineCredit = c := by
  rw [(r.spec hw).credited, Option.or_eq_some_iff] at hc
  rcases hc with hc | ⟨hnone, hc⟩
  · obtain ⟨a, ha, hrest⟩ := creditedFrom_eq_some hc
    exact ⟨a, mem_append_left _ ha, hrest⟩
  obtain ⟨p, hp, hlc⟩ := Option.bind_eq_some_iff.1 hc
  obtain ⟨⟨e, u⟩, hpr, rfl⟩ := Option.map_eq_some_iff.1 hlc
  obtain ⟨hpos, rfl⟩ : Accrues k p := by simpa using find?_some hp
  refine ⟨creditWrite d p.1 p.2 e u, mem_append_right _ ?_, rfl, rfl, rfl⟩
  rw [credits, (r.spec hw).writes, mem_filterMap]
  refine ⟨p, mem_filter.2 ⟨mem_of_find?_eq_some hp, ?_⟩, by simp [lineWrite, hpr]⟩
  simpa using ⟨hpos, hnone⟩

theorem insert_credits (h : w.Sound d) :
    insertPayoutAccruals w.stored r.credits = w.stored ++ r.credits := by
  refine insertPayoutAccruals_eq ?_ ?_
  · rintro a ha c hc ⟨-, ⟨hak, -, hkey⟩ | ⟨-, hck, -⟩⟩
    · obtain ⟨p, -, -, hnone, e, u, -, rfl⟩ := r.mem_credits h.batches hc
      exact creditedFrom_eq_none.1 hnone a ha hak hkey
    · rw [r.credits_kind h.batches hc] at hck; cases hck
  · have hp := pairwise_map.1 (r.credits_nodup h.batches)
    refine hp.imp_of_mem ?_
    rintro a c ha hc hne ⟨-, ⟨-, -, hkey⟩ | ⟨hak, -, -⟩⟩
    · exact hne hkey
    · rw [r.credits_kind h.batches ha] at hak; cases hak

theorem insert_reversals (h : w.Sound d) :
    insertPayoutAccruals (w.stored ++ r.credits) r.reversals =
      w.stored ++ r.credits ++ r.reversals := by
  refine insertPayoutAccruals_eq ?_ ?_
  · rintro a ha c hc ⟨-, ⟨-, hck, -⟩ | ⟨hak, -, hid⟩⟩
    · rw [r.reversals_kind hc] at hck; cases hck
    · rcases mem_append.1 ha with ha | ha
      · obtain ⟨_, -, b, l, c', dr, hq, hp, -, -⟩ := r.mem_reversals hc
        rw [r.reversals_eventId hq] at hid
        exact hp.fresh (mem_toFinset.2 (mem_filterMap.2 ⟨a, ha, hid⟩))
      · rw [r.credits_kind h.batches ha] at hak; cases hak
  · have hp := pairwise_map.1 (r.reversals_nodup h.events)
    refine hp.imp_of_mem ?_
    rintro a c ha hc hne ⟨-, ⟨hak, -, -⟩ | ⟨-, -, hid⟩⟩
    · rw [r.reversals_kind ha] at hak; cases hak
    · exact hne hid

end PlanRun

/-! ## Runs keep the invariant -/

section keep

variable {d : RailDescriptor} {w : World}

theorem lineReversals_eq_nil {rows : List PayoutAccrual}
    (h : ∀ a ∈ rows, a.kind = .reversal → a.key ≠ k) : lineReversals k rows = [] :=
  filter_eq_nil_iff.2 fun a ha hk => h a ha (of_decide_eq_true hk).1 (of_decide_eq_true hk).2

theorem PlanRun.lineReversals_credits (r : PlanRun d w) (hw : BatchesWF w.batches) (k : LineKey) :
    lineReversals k (w.stored ++ r.credits) = lineReversals k w.stored := by
  have hnil : lineReversals k r.credits = [] :=
    lineReversals_eq_nil fun a ha hk => by rw [r.credits_kind hw ha] at hk; cases hk
  rw [lineReversals_append, hnil, append_nil]

theorem filter_kind_append {k : AccrualKind} (rows : List PayoutAccrual)
    {new : List PayoutAccrual} (hnew : ∀ a ∈ new, a.kind = k) :
    (rows ++ new).filter (·.kind = k) = rows.filter (·.kind = k) ++ new := by
  have hself : new.filter (·.kind = k) = new :=
    filter_eq_self.2 fun a ha => by simpa using hnew a ha
  rw [filter_append, hself]

theorem filter_kind_append_ne {k : AccrualKind} (rows : List PayoutAccrual)
    {new : List PayoutAccrual} (hnew : ∀ a ∈ new, a.kind ≠ k) :
    (rows ++ new).filter (·.kind = k) = rows.filter (·.kind = k) := by
  have hnil : new.filter (·.kind = k) = [] :=
    filter_eq_nil_iff.2 fun a ha => by simpa using hnew a ha
  rw [filter_append, hnil, append_nil]

section

variable (h : w.Sound d)

include h

/-- A line without a stored credit has no stored reversal. -/
theorem World.Sound.reversals_of_uncredited (hno : ∀ c ∈ w.stored, c.kind = .credit → c.key ≠ k) :
    lineReversals k w.stored = [] := by
  refine lineReversals_eq_nil fun a ha hk hkey => ?_
  obtain ⟨-, c, hc, hck, hckey⟩ := h.reversal a ha hk
  exact hno c hc hck (hckey.trans hkey)

theorem World.Sound.add_credits (r : PlanRun d w) :
    r.credited.Sound d := by
  have hkind := fun a ha => r.credits_kind h.batches (a := a) ha
  have hnorev : ∀ a ∈ r.credits, a.kind ≠ .reversal := fun a ha hk => by
    rw [hkind a ha] at hk; cases hk
  refine ⟨h.batches, h.events, h.epochs, ?_, ?_, ?_, ?_, ?_, ?_⟩
  · refine forall_mem_append.2 ⟨h.rail, fun a ha => ?_⟩
    obtain ⟨p, -, -, -, e, u, -, rfl⟩ := r.mem_credits h.batches ha; rfl
  · refine forall_mem_append.2 ⟨h.credit, fun a ha hk => ?_⟩
    obtain ⟨p, hp, hpos, -, e, u, -, rfl⟩ := r.mem_credits h.batches ha
    exact ⟨rfl, p, (mem_dueLines.1 hp).1, hpos, rfl, rfl⟩
  · rw [filter_kind_append _ hkind, map_append, nodup_append]
    refine ⟨h.oneCredit, r.credits_nodup h.batches, ?_⟩
    rintro x hx y hy rfl
    obtain ⟨a, ha, rfl⟩ := mem_map.1 hx
    obtain ⟨c, hc, hck⟩ := mem_map.1 hy
    obtain ⟨p, -, -, hnone, e, u, -, rfl⟩ := r.mem_credits h.batches hc
    obtain ⟨ha, hak⟩ := mem_filter.1 ha
    exact creditedFrom_eq_none.1 hnone a ha (by simpa using hak) hck.symm
  · intro a ha hk
    rcases mem_append.1 ha with ha | ha
    · obtain ⟨hsrc, c, hc, hrest⟩ := h.reversal a ha hk
      exact ⟨hsrc, c, mem_append_left _ hc, hrest⟩
    · exact absurd hk (hnorev a ha)
  · rw [filter_kind_append_ne _ hnorev]; exact h.oneSource
  · intro p hp c hc hk hkey
    rw [r.lineReversals_credits h.batches]
    rcases mem_append.1 hc with hc | hc
    · exact h.fits p hp c hc hk hkey
    -- a line credited only now has no stored reversal
    obtain ⟨q, -, -, hnone, e, u, -, rfl⟩ := r.mem_credits h.batches hc
    rw [h.reversals_of_uncredited fun x hx hxk hxkey =>
      creditedFrom_eq_none.1 hnone x hx hxk (hxkey.trans hkey.symm)]
    simp

/-- A run writes no reversal on a line that is not due. -/
theorem World.Sound.reversals_of_not_due (r : PlanRun d w) (hp : p ∈ finalizedLines w.batches)
    (hdue : p ∉ dueLines w.inputs) :
    lineReversals (lineKey p.1 p.2) r.reversals = [] := by
  refine lineReversals_eq_nil fun a ha _ hkey => hdue ?_
  obtain ⟨_, -, b, l, c, dr, -, hpr, rfl, -⟩ := r.mem_reversals ha
  obtain ⟨hbl, -⟩ :=
    ((r.spec h.batches).located_iff (BatchesWF.due _ h.batches)).1 hpr.located
  rwa [← h.batches.lines.key_inj (mem_dueLines.1 hbl).1 hp hkey]

/-- A line's stored totals, where the line is credited, leave its pool within bounds. -/
theorem World.Sound.start_fits (r : PlanRun d w) {b : Batch} {l : LineItem}
    (hbl : (b, l) ∈ dueLines w.inputs) (hc : r.cs.credited (lineKey b l) = some c) :
    (linePool w.inputs l c).Fits (lineStart w.inputs r.taken b l) := by
  obtain ⟨a, ha, hak, hkey, rfl⟩ := r.mem_of_credited h.batches hc
  have hfit := (h.add_credits r).fits _ (mem_dueLines.1 hbl).1 a ha hak hkey
  rw [r.lineReversals_credits h.batches] at hfit
  have ht := takenFrom_ok r.taken_ok (lineKey b l)
  exact ⟨by simpa [lineStart, ht, linePool] using hfit.1,
    by simpa [lineStart, ht, linePool, PayoutAccrual.lineCredit] using hfit.2⟩

omit h in
/-- The reversals a run writes on one credited line are its pool's draws. -/
theorem PlanRun.line_reversals (r : PlanRun d w) (hw : BatchesWF w.batches) {b : Batch}
    {l : LineItem} (hbl : (b, l) ∈ dueLines w.inputs) (hc : r.cs.credited (lineKey b l) = some c) :
    lineReversals (lineKey b l) r.reversals =
      ((linePool w.inputs l c).run (lineStart w.inputs r.taken b l)
        (lineEntries w.inputs l (ledgerReversals w.events))).2.map (drawWrite d b l c) := by
  have hline := (reversalPhase_line (r.spec hw) (BatchesWF.due w.inputs hw) hbl hc
    r.reversal_ok).2
  rw [r.writes, lineReversals_append] at hline
  exact append_cancel_left hline

theorem World.Sound.add_reversals (r : PlanRun d w) :
    r.booked.Sound d := by
  have h1 := h.add_credits r
  have hkind := fun a ha => r.reversals_kind (a := a) ha
  have hnocred : ∀ a ∈ r.reversals, a.kind ≠ .credit := fun a ha hk => by
    rw [hkind a ha] at hk; cases hk
  have hsource : ∀ q ∈ r.qs, rowSource w.events q.2 = some q.1.2 := by
    intro q hq
    obtain ⟨he, hr⟩ := mem_ledgerReversals.1 (r.rows.subset (mem_map_of_mem hq))
    exact rowSource_eq h.events he hr (r.reversals_eventId hq)
  refine ⟨h.batches, h.events, h.epochs, ?_, ?_, ?_, ?_, ?_, ?_⟩
  · refine forall_mem_append.2 ⟨h1.rail, fun a ha => ?_⟩
    obtain ⟨_, -, b, l, c, dr, -, -, rfl, -⟩ := r.mem_reversals ha; rfl
  · refine forall_mem_append.2 ⟨h1.credit, fun a ha hk => ?_⟩
    exact absurd hk (hnocred a ha)
  · rw [filter_kind_append_ne _ hnocred]; exact h1.oneCredit
  · intro a ha hk
    rcases mem_append.1 ha with ha | ha
    · obtain ⟨hsrc, c, hc, hrest⟩ := h1.reversal a ha hk
      exact ⟨hsrc, c, mem_append_left _ hc, hrest⟩
    obtain ⟨row, hrow, b, l, c, dr, hq, hp, rfl, hl⟩ := r.mem_reversals ha
    obtain ⟨he, hr⟩ := mem_ledgerReversals.1 hrow
    obtain ⟨hbl, hmem⟩ :=
      ((r.spec h.batches).located_iff (BatchesWF.due _ h.batches)).1 hp.located
    obtain ⟨cr, hcr, hck, hkey, -⟩ := r.mem_of_credited h.batches hp.credited
    refine ⟨⟨row.2, (b, l), row.1, he, hr, r.reversals_eventId hq, (mem_dueLines.1 hbl).1, rfl,
      hmem⟩, cr, mem_append_left _ hcr, hck, hkey⟩
  · rw [filter_kind_append _ hkind, map_append, nodup_append]
    have hmap : r.reversals.map (rowSource w.events) = (r.qs.map (·.1.2)).map some := by
      rw [PlanRun.reversals, map_map, map_map]
      exact map_congr_left hsource
    refine ⟨h1.oneSource, ?_, ?_⟩
    · rw [hmap]; exact r.sources.map (Option.some_injective _)
    rintro x hx y hy rfl
    obtain ⟨a, ha, rfl⟩ := mem_map.1 hx
    obtain ⟨a', ha', hay⟩ := mem_map.1 hy
    obtain ⟨q, hq, rfl⟩ := mem_map.1 ha'
    obtain ⟨ha, hak⟩ := mem_filter.1 ha
    have hak' : a.kind = .reversal := by simpa using hak
    obtain ⟨⟨s, p, e, he, hr, hid, -⟩, -⟩ := h1.reversal a ha hak'
    have hsa := rowSource_eq h.events he hr hid
    rw [hsource q hq, hsa] at hay
    obtain rfl : q.1.2 = s := by simpa using hay
    -- the stored row's ledger row puts the source among those taken back already
    refine r.fresh q hq (mem_toFinset.2 (mem_map.2 ⟨(e, q.1.2), ?_, rfl⟩))
    refine mem_filter.2 ⟨mem_ledgerReversals.2 ⟨he, hr⟩, ?_⟩
    have ha0 : a ∈ w.stored := by
      rcases mem_append.1 ha with ha | ha
      · exact ha
      · rw [r.credits_kind h.batches ha] at hak'; cases hak'
    exact decide_eq_true (mem_toFinset.2 (mem_filterMap.2 ⟨a, ha0, hid⟩))
  · intro p hp c hc hk hkey
    have hc1 := r.mem_of_credit hc hk
    rw [lineReversals_append]
    by_cases hdue : p ∈ dueLines w.inputs
    · have hcred := r.credited_of_mem h hc1 hk hkey
      have hfit := Pool.run_fits (h.start_fits r hdue hcred)
        (lineEntries w.inputs p.2 (ledgerReversals w.events))
      have ht := takenFrom_ok r.taken_ok (lineKey p.1 p.2)
      have hbase : (lineStart w.inputs r.taken p.1 p.2).base =
          ((lineReversals (lineKey p.1 p.2) w.stored).map (·.awardUnits)).sum := by
        rw [lineStart, ht]
      have hquote : (lineStart w.inputs r.taken p.1 p.2).quote =
          ((lineReversals (lineKey p.1 p.2) w.stored).map (·.railUnits)).sum := by
        rw [lineStart, ht]
      rw [r.line_reversals h.batches hdue hcred, r.lineReversals_credits h.batches]
      obtain ⟨hb, hq⟩ := hfit
      rw [Pool.run_base, hbase] at hb
      rw [Pool.run_quote, hquote] at hq
      simp only [map_append, sum_append, map_map]
      exact ⟨hb, hq⟩
    · rw [h.reversals_of_not_due r hp hdue, append_nil]
      exact h1.fits p hp c hc1 hk hkey

omit h in
/-- A claim changes owners only. -/
theorem claimPayoutAccruals_eq (stored : List PayoutAccrual) (hash : String) (account : Uuid) :
    ∃ g : PayoutAccrual → Option Uuid,
      claimPayoutAccruals stored hash account = stored.map fun a => { a with accountId := g a } := by
  refine ⟨fun a => if a.creditAccountHash = hash ∧ a.accountId = none then some account
    else a.accountId, ?_⟩
  refine map_congr_left fun a _ => ?_
  by_cases h : a.creditAccountHash = hash ∧ a.accountId = none
  · simp only [if_pos h]
  · simp only [if_neg h]

omit h in
theorem claimAll_eq (stored : List PayoutAccrual) (cs : List (String × Uuid)) :
    ∃ g : PayoutAccrual → Option Uuid,
      claimAll stored cs = stored.map fun a => { a with accountId := g a } := by
  unfold claimAll
  induction cs generalizing stored with
  | nil => exact ⟨(·.accountId), by simp⟩
  | cons c cs ih =>
    obtain ⟨g, hg⟩ := claimPayoutAccruals_eq stored c.1 c.2
    obtain ⟨g', hg'⟩ := ih (claimPayoutAccruals stored c.1 c.2)
    refine ⟨fun a => g' { a with accountId := g a }, ?_⟩
    rw [foldl_cons, hg', hg, map_map]
    rfl

omit h in
theorem lineReversals_owners (k : LineKey) (rows : List PayoutAccrual)
    (g : PayoutAccrual → Option Uuid) :
    lineReversals k (rows.map fun a => { a with accountId := g a }) =
      (lineReversals k rows).map fun a => { a with accountId := g a } := by
  unfold lineReversals
  rw [filter_map]; rfl

omit h in
theorem filter_kind_owners (k : AccrualKind) (rows : List PayoutAccrual)
    (g : PayoutAccrual → Option Uuid) :
    (rows.map fun a => { a with accountId := g a }).filter (·.kind = k) =
      (rows.filter (·.kind = k)).map fun a => { a with accountId := g a } := by
  rw [filter_map]; rfl

theorem World.Sound.owners (g : PayoutAccrual → Option Uuid) :
    World.Sound d { w with stored := w.stored.map fun a => { a with accountId := g a } } := by
  refine ⟨h.batches, h.events, h.epochs, forall_mem_map.2 h.rail, forall_mem_map.2 h.credit, ?_,
    forall_mem_map.2 fun a ha hk => ?_, ?_, fun p hp => forall_mem_map.2 fun c hc hk hkey => ?_⟩
  · rw [filter_kind_owners, map_map]; exact h.oneCredit
  · obtain ⟨hsrc, c, hc, hck, hkey⟩ := h.reversal a ha hk
    exact ⟨hsrc, _, mem_map_of_mem hc, hck, hkey⟩
  · rw [filter_kind_owners, map_map]; exact h.oneSource
  · rw [lineReversals_owners, map_map, map_map]
    exact h.fits p hp c hc hk hkey

theorem World.Sound.claims (cs : List (String × Uuid)) :
    World.Sound d { w with stored := claimAll w.stored cs } := by
  obtain ⟨g, hg⟩ := claimAll_eq _ cs
  rw [hg]
  exact h.owners g

def RunStop.storesReversals : RunStop → Bool
  | .planned | .credits => false
  | .reversals | .claims _ => true

def RunStop.claimed : RunStop → Bool
  | .claims _ => true
  | _ => false

/-- What a run that plans stores: nothing, its credits, or also its reversals and some claims. -/
theorem accrueRail_of_plan {p : AccrualPlan}
    (hp : planRailAccruals d w.inputs = .ok p) {r : PlanRun d w}
    (hr : p.writes = r.credits ++ r.reversals) (stop : RunStop) :
    (stop = .planned ∧ accrueRail d stop w = w) ∨
    (stop = .credits ∧ accrueRail d stop w = r.credited) ∨
    (stop.storesReversals ∧ ∃ cs, (stop.claimed = false → cs = []) ∧ accrueRail d stop w =
      { w with stored := claimAll (w.stored ++ r.credits ++ r.reversals) cs }) := by
  have hcr : p.writes.filter (·.kind = .credit) = r.credits := by
    rw [hr, filter_kind_append_ne _ fun a ha hk => by rw [r.reversals_kind ha] at hk; cases hk]
    exact filter_eq_self.2 fun a ha => by simpa using r.credits_kind h.batches ha
  have hrv : p.writes.filter (·.kind ≠ .credit) = r.reversals := by
    rw [hr, filter_append, filter_eq_nil_iff.2 fun a ha => by
      simpa using r.credits_kind h.batches ha]
    exact filter_eq_self.2 fun a ha => by simp [r.reversals_kind ha]
  simp only [accrueRail, hp, hcr, hrv, r.insert_credits h, r.insert_reversals h]
  cases stop with
  | planned => exact .inl ⟨rfl, rfl⟩
  | credits => exact .inr (.inl ⟨rfl, rfl⟩)
  | reversals => exact .inr (.inr ⟨rfl, [], fun _ => rfl, rfl⟩)
  | claims n => exact .inr (.inr ⟨rfl, _, nofun, rfl⟩)

/-- Whatever its stop, a run stores some of: its credits, its reversals, its claims. -/
theorem accrueRail_cases (stop : RunStop) : accrueRail d stop w = w ∨
    (∃ cs, stop.claimed ∧ accrueRail d stop w = { w with stored := claimAll w.stored cs }) ∨
    (∃ r : PlanRun d w, accrueRail d stop w = r.credited) ∨
    (∃ (r : PlanRun d w) (cs : List (String × Uuid)), (stop.claimed = false → cs = []) ∧
      accrueRail d stop w =
        { w with stored := claimAll (w.stored ++ r.credits ++ r.reversals) cs }) := by
  cases hp : planRailAccruals d w.inputs with
  | error e => exact .inl (by simp [accrueRail, hp])
  | ok p =>
    rcases PlanRun.of_plan hp with ⟨-, hnil⟩ | ⟨r, hr⟩
    · simp only [accrueRail, hp, hnil]
      cases stop with
      | claims n => exact .inr (.inl ⟨_, rfl, rfl⟩)
      | _ => exact .inl rfl
    · rcases accrueRail_of_plan h hp hr _ with ⟨-, e⟩ | ⟨-, e⟩ | ⟨-, cs, hcs, e⟩
      · exact .inl e
      · exact .inr (.inr (.inl ⟨r, e⟩))
      · exact .inr (.inr (.inr ⟨r, cs, hcs, e⟩))

theorem World.Sound.run (stop : RunStop) : (accrueRail d stop w).Sound d := by
  rcases accrueRail_cases h _ with e | ⟨cs, -, e⟩ | ⟨r, e⟩ | ⟨r, cs, -, e⟩
  · rw [e]; exact h
  · rw [e]; exact h.claims cs
  · rw [e]; exact h.add_credits r
  · rw [e]; exact (h.add_reversals r).claims cs

omit h in
theorem World.Initial.sound (h : w.Initial) : w.Sound d :=
  ⟨h.batches, h.events, h.epochs, by simp [h.stored], by simp [h.stored], by simp [h.stored],
    by simp [h.stored], by simp [h.stored], by simp [h.stored]⟩

omit h in
theorem finalizedLines_mono {batches' : List Batch}
    (hkeep : ∀ b ∈ batches, b.status = .finalized → b ∈ batches')
    (hp : p ∈ finalizedLines batches) :
    p ∈ finalizedLines batches' := by
  obtain ⟨hb, hf, hl⟩ := mem_finalizedLines.1 hp
  exact mem_finalizedLines.2 ⟨hkeep _ hb hf, hf, hl⟩

theorem World.Sound.settle (hwf : BatchesWF batches)
    (hkeep : ∀ b ∈ w.batches, b.status = .finalized → b ∈ batches) :
    World.Sound d { w with batches := batches } := by
  refine { h with batches := hwf, credit := ?_, reversal := ?_, fits := ?_ }
  · intro a ha hk
    obtain ⟨hnone, p, hp, hrest⟩ := h.credit a ha hk
    exact ⟨hnone, p, finalizedLines_mono hkeep hp, hrest⟩
  · intro a ha hk
    obtain ⟨⟨s, p, e, he, hr, hid, hp, hrest⟩, hc⟩ := h.reversal a ha hk
    exact ⟨⟨s, p, e, he, hr, hid, finalizedLines_mono hkeep hp, hrest⟩, hc⟩
  · intro p hp c hc hk hkey
    -- the credit's line was finalized before, and it is this line
    obtain ⟨-, q, hq, -, hqk, -⟩ := h.credit c hc hk
    obtain rfl := hwf.lines.key_inj (finalizedLines_mono hkeep hq) hp (hqk.trans hkey)
    exact h.fits q hq c hc hk hkey

/-- A stored reversal names the same source in a ledger that kept its reversal rows. -/
theorem World.Sound.rowSource_keep {events : List CreditEvent}
    (hids : (events.map (·.creditEventId)).Nodup)
    (hkeep : ∀ e ∈ w.events, (reversalRow e).isSome → e ∈ events) {a : PayoutAccrual}
    (ha : a ∈ w.stored) (hk : a.kind = .reversal) :
    rowSource events a = rowSource w.events a := by
  obtain ⟨⟨s, p, e, he, hr, hid, -⟩, -⟩ := h.reversal a ha hk
  rw [rowSource_eq h.events he hr hid, rowSource_eq hids (hkeep e he (by rw [hr]; rfl)) hr hid]

theorem World.Sound.ledger {events : List CreditEvent} (hids : (events.map (·.creditEventId)).Nodup)
    (hkeep : ∀ e ∈ w.events, (reversalRow e).isSome → e ∈ events) :
    World.Sound d { w with events := events } := by
  refine { h with events := hids, reversal := ?_, oneSource := ?_ }
  · intro a ha hk
    obtain ⟨⟨s, p, e, he, hr, hrest⟩, hc⟩ := h.reversal a ha hk
    exact ⟨⟨s, p, e, hkeep e he (by rw [hr]; rfl), hr, hrest⟩, hc⟩
  · have hmap : (w.stored.filter (·.kind = .reversal)).map (rowSource events) =
        (w.stored.filter (·.kind = .reversal)).map (rowSource w.events) := by
      refine map_congr_left fun a ha => ?_
      obtain ⟨ha, hk⟩ := mem_filter.1 ha
      exact h.rowSource_keep hids hkeep ha (by simpa using hk)
    rw [hmap]; exact h.oneSource

end

theorem World.Step.sound {w' : World} (hs : World.Step d w w') (h : w.Sound d) : w'.Sound d := by
  cases hs with
  | settle batches hwf hkeep => exact h.settle hwf hkeep
  | ledger events hids hkeep => exact h.ledger hids hkeep
  | epoch e hnew =>
    refine { h with epochs := ?_ }
    rw [map_append, nodup_append]
    refine ⟨h.epochs, by simp, ?_⟩
    rintro x hx y hy rfl
    obtain ⟨x', hx', rfl⟩ := mem_map.1 hx
    exact hnew x' hx' (by simpa using hy)
  | principals | clock => exact { h with }
  | run stop => exact h.run _

theorem World.Reachable.sound (h : World.Reachable d w) : w.Sound d := by
  obtain ⟨w0, h0, hs⟩ := h
  induction hs with
  | refl => exact h0.sound
  | tail _ hstep ih => exact hstep.sound ih

end keep

/-! ## Caps -/

/-- What the accrual table never breaks: one credit a line, one reversal a source event, each
reversal of an event of its line, and no line taken back beyond its settled micros or its
credit's rail units. -/
structure World.Capped (w : World) : Prop where
  oneCredit : ∀ k, (w.stored.filter fun a => a.kind = .credit ∧ a.key = k).length ≤ 1
  sourced : ∀ a ∈ w.stored, a.kind = .reversal → ∃ s, rowSource w.events a = some s ∧
    ∃ p ∈ finalizedLines w.batches, lineKey p.1 p.2 = a.key ∧ s ∈ p.2.sourceCreditEventIds
  oneReversal : ∀ s,
    (w.stored.filter fun a => a.kind = .reversal ∧ rowSource w.events a = some s).length ≤ 1
  credited : ∀ a ∈ w.stored, a.kind = .reversal →
    ∃ c ∈ w.stored, c.kind = .credit ∧ c.key = a.key
  award : ∀ p ∈ finalizedLines w.batches,
    ((lineReversals (lineKey p.1 p.2) w.stored).map (·.awardUnits)).sum
      ≤ p.2.settledCreditDeltaMicros.toNat
  rail : ∀ p ∈ finalizedLines w.batches, ∀ c ∈ w.stored, c.kind = .credit →
    c.key = lineKey p.1 p.2 →
    ((lineReversals (lineKey p.1 p.2) w.stored).map (·.railUnits)).sum ≤ c.railUnits

/-- Of a list whose `f` values are distinct, at most one element has a given value. -/
theorem length_filter_le_one {α β : Type*} [DecidableEq β] {f : α → β} {l : List α}
    (h : (l.map f).Nodup) (b : β) : (l.filter fun a => f a = b).length ≤ 1 := by
  have := nodup_iff_count_le_one.1 h b
  rwa [count_eq_countP, countP_map, countP_eq_length_filter] at this

theorem accrual_runs_capped (d : RailDescriptor) (w : World) (h : World.Reachable d w) :
    w.Capped := by
  have hs := h.sound
  refine ⟨fun k => ?_, fun a ha hk => ?_, fun s => ?_, fun a ha hk => ?_, fun p hp => ?_,
    fun p hp c hc hk hkey => (hs.fits p hp c hc hk hkey).2⟩
  · have := length_filter_le_one hs.oneCredit k
    simpa [Bool.and_comm] using this
  · obtain ⟨⟨s, p, e, he, hr, hid, hp, hkey, hmem⟩, -⟩ := hs.reversal a ha hk
    exact ⟨s, rowSource_eq hs.events he hr hid, p, hp, hkey, hmem⟩
  · have := length_filter_le_one hs.oneSource (some s)
    simpa [Bool.and_comm] using this
  · exact (hs.reversal a ha hk).2
  · by_cases hc : ∃ c ∈ w.stored, c.kind = .credit ∧ c.key = lineKey p.1 p.2
    · obtain ⟨c, hc, hk, hkey⟩ := hc
      exact (hs.fits p hp c hc hk hkey).1
    · rw [hs.reversals_of_uncredited fun c hcm hck hkey => hc ⟨c, hcm, hck, hkey⟩]
      simp

/-! ### A run on a small world -/

def sampleRail : RailDescriptor := ⟨"near_ai", "trace_credit"⟩

def sampleRate : RailRate := ⟨"v1", 3, 2, by decide, Nat.two_pos⟩

/-- Event `s`, with the points the ledger has for it. -/
def sourceEvent (s : Uuid) (points : String) : CreditEvent :=
  ⟨s, "principal-a", points, none, .final, 89 + s⟩

/-- The ledger row that reverses event `s`. -/
def reversalOf (s : Uuid) (points : String) : CreditEvent :=
  ⟨10 + s, "principal-a", points,
    some ("revocation_credit_reversal:00000000-0000-0000-0000-00000000000" ++ toString s),
    .reversed, 119 + s⟩

def pairLine : Batch × LineItem :=
  let l : LineItem := ⟨"principal-a", "sha256:a", 10, [1, 2], none⟩
  (⟨9, .finalized, [1, 2], [l], 100⟩, l)

/-- A line of 10 micros over events 1 and 2, whose principal has account 77. -/
def pairWorld (events : List CreditEvent) (epochs : List RateEpoch) : World where
  batches := [pairLine.1]
  events := events
  epochs := epochs
  principalAccounts := fun _ => some 77
  now := 150
  stored := []

theorem BatchesWF.singleton {b : Batch} {l : LineItem} (h : b.lineItems = [l]) :
    BatchesWF [b] := by
  refine ⟨by simp, by simp [h], ?_⟩
  intro p hp q hq e _ _
  have hline : ∀ x ∈ finalizedLines [b], x = (b, l) := by
    intro x hx
    obtain ⟨hb, -, hl⟩ := mem_finalizedLines.1 hx
    obtain rfl := mem_singleton.1 hb
    rw [h] at hl
    exact Prod.ext rfl (mem_singleton.1 hl)
  rw [hline p hp, hline q hq]

theorem pairWorld_initial {events : List CreditEvent} {epoch : RateEpoch}
    (h : (events.map (·.creditEventId)).Nodup) : (pairWorld events [epoch]).Initial :=
  ⟨BatchesWF.singleton (l := pairLine.2) rfl, h, nodup_singleton _, rfl⟩

/-- Each of the two reversals takes 6 micros back, the second in a later run than the first: what
is stored of it is what the line has left. -/
theorem accrual_runs_capped_sample :
    let events := [sourceEvent 1 "0.000006", sourceEvent 2 "0.000006", reversalOf 1 "-0.000006"]
    let first := accrueRail sampleRail .reversals (pairWorld events [⟨sampleRate, 50⟩])
    let last := accrueRail sampleRail .reversals
      { first with events := events ++ [reversalOf 2 "-0.000006"] }
    (last.stored.map fun a => (a.kind, a.awardUnits, a.railUnits)) =
      [(.credit, 10, 15), (.reversal, 6, 9), (.reversal, 4, 6)] ∧ last.Capped := by
  intro events first last
  have hevents : first.events = events := congrArg World.events (accrueRail_eq ..)
  have hgrown : World.Step sampleRail first
      { first with events := events ++ [reversalOf 2 "-0.000006"] } :=
    .ledger _ (by decide) fun e he _ => mem_append_left _ (hevents ▸ he)
  exact ⟨by decide +kernel, accrual_runs_capped sampleRail last ⟨pairWorld events _,
    pairWorld_initial (by decide), .tail (.tail (.single (.run .reversals)) hgrown)
      (.run .reversals)⟩⟩

end TraceCommons.Payout
