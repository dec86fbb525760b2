import TraceCommons.Payout.AccrualTotal

/-!
# Incremental accrual

A history of finalized batches, ledger rows and epochs may reach the runs piece
by piece. Where each line's reversal rows arrive in ledger order, an event's own
row no later than a reversal of it, and epochs in the order of their observation,
what the runs have stored in the end is what one run over the whole history
stores: on each line the stored reversals are the draws of its pool over a prefix
of the line's rows, and a later run over the longer prefix draws the rest.
-/

namespace TraceCommons.Payout

open Drawdown List

/-! ## Ledger order -/

/-- A sorted list whose new elements all come after the old ones extends the old list. -/
theorem prefix_of_pairwise {α : Type*} [DecidableEq α] {r : α → α → Prop} [Std.Total r]
    {l l' : List α} (hl : l.Pairwise r) (hl' : l'.Pairwise r) (hnd : l.Nodup) (hnd' : l'.Nodup)
    (hsub : l ⊆ l') (hnew : ∀ x ∈ l', x ∉ l → ∀ y ∈ l, ¬ r x y)
    (hanti : ∀ x ∈ l', ∀ y ∈ l', r x y → r y x → x = y) : l <+: l' := by
  -- the old list, then the new elements, is the sorted list with these elements
  have hperm : l ++ l'.filter (· ∉ l) ~ l' := by
    refine (perm_ext_iff_of_nodup (hnd.append (hnd'.filter _) fun x hx hx' => ?_) hnd').2
      fun x => ?_
    · simp [hx] at hx'
    · by_cases hx : x ∈ l
      · simp [hx, hsub hx]
      · simp [hx]
  refine ⟨_, hperm.eq_of_pairwise (fun x y hx hy => hanti x (hperm.subset hx) y hy) ?_ hl'⟩
  refine pairwise_append.2 ⟨hl, hl'.filter _, fun y hy x hx => ?_⟩
  obtain ⟨hx, hxl⟩ := mem_filter.1 hx
  exact (Std.Total.total y x).resolve_right (hnew x hx (of_decide_eq_true hxl) y hy)

theorem ledgerLe_iff {a b : CreditEvent × Uuid} : ledgerLe a b ↔
    toLex (a.1.occurredAt, a.1.creditEventId) ≤ toLex (b.1.occurredAt, b.1.creditEventId) :=
  (Prod.Lex.toLex_le_toLex (x := (_, _)) (y := (_, _))).symm

instance : Std.Total ledgerLe where
  total _ _ := by
    rw [ledgerLe_iff, ledgerLe_iff]
    exact le_total _ _

instance : IsTrans (CreditEvent × Uuid) ledgerLe where
  trans _ _ _ hab hbc := ledgerLe_iff.2 ((ledgerLe_iff.1 hab).trans (ledgerLe_iff.1 hbc))

theorem ledgerReversals_pairwise (events : List CreditEvent) :
    (ledgerReversals events).Pairwise ledgerLe := pairwise_insertionSort ..

/-- Distinct rows of a ledger are in order one way only. -/
theorem ledgerLe_antisymm {events : List CreditEvent} (hnd : (events.map (·.creditEventId)).Nodup)
    {x y : CreditEvent × Uuid} (hxm : x ∈ ledgerReversals events)
    (hym : y ∈ ledgerReversals events) (hxy : ledgerLe x y) (hyx : ledgerLe y x) : x = y := by
  have heq := le_antisymm (ledgerLe_iff.1 hxy) (ledgerLe_iff.1 hyx)
  exact inj_on_of_nodup_map (ledgerReversals_nodup hnd) hxm hym (congrArg (·.2) heq)

/-! ## A line's rows -/

/-- The reversal rows of a line's events, in ledger order, as entries of its pool. -/
def World.lineRows (w : World) (l : LineItem) : List (Entry Uuid Uuid) :=
  ((ledgerReversals w.events).filter (·.2 ∈ l.sourceCreditEventIds)).map (rowEntry w.inputs)

theorem eventsById_eq_some {events : List CreditEvent}
    (hnd : (events.map (·.creditEventId)).Nodup) {s : Uuid} {e : CreditEvent} :
    eventsById events s = some e ↔ e ∈ events ∧ e.creditEventId = s := by
  constructor
  · intro h
    exact ⟨mem_reverse.1 (mem_of_find?_eq_some h), by simpa using find?_some h⟩
  rintro ⟨he, rfl⟩
  refine Table.find_of_mem ?_ (mem_reverse.2 he)
  rwa [map_reverse, nodup_reverse]

theorem eventsById_eq_none {events : List CreditEvent} {s : Uuid} :
    eventsById events s = none ↔ ∀ e ∈ events, e.creditEventId ≠ s := by
  simp [eventsById]

def SameLine (lines : List (Batch × LineItem)) (s t : Uuid) : Prop :=
  ∃ p ∈ lines, s ∈ p.2.sourceCreditEventIds ∧ t ∈ p.2.sourceCreditEventIds

/-- How the ledger of a history whose finalized lines are `lines` may grow: rows are only
added, a reversal row not before one of its line that is there already, and an event's own
row not after a reversal of it. -/
structure LedgerGrows (lines : List (Batch × LineItem)) (old new : List CreditEvent) : Prop where
  ids : (new.map (·.creditEventId)).Nodup
  keep : ∀ e ∈ old, e ∈ new
  order : ∀ x ∈ ledgerReversals new, x.1 ∉ old → ∀ y ∈ ledgerReversals old,
    SameLine lines x.2 y.2 → ¬ ledgerLe x y
  source : ∀ e ∈ new, e ∉ old → ∀ y ∈ ledgerReversals old, SameLine lines y.2 y.2 →
    y.2 ≠ e.creditEventId

section rows

variable {lines : List (Batch × LineItem)} {w : World} {events : List CreditEvent}
  {p : Batch × LineItem}

/-- A row keeps its amount when the ledger grows. -/
theorem LedgerGrows.rowEntry_eq (h : LedgerGrows lines w.events events)
    (hnd : (w.events.map (·.creditEventId)).Nodup) (hp : p ∈ lines) {row : CreditEvent × Uuid}
    (hrow : row ∈ ledgerReversals w.events) (hs : row.2 ∈ p.2.sourceCreditEventIds) :
    rowEntry { w with events := events }.inputs row = rowEntry w.inputs row := by
  have hfind : eventsById events row.2 = eventsById w.events row.2 := by
    cases ho : eventsById w.events _ with
    | some e =>
      obtain ⟨he, hid⟩ := (eventsById_eq_some hnd).1 ho
      exact (eventsById_eq_some h.ids).2 ⟨h.keep e he, hid⟩
    | none =>
      rw [eventsById_eq_none] at ho ⊢
      intro e he hid
      by_cases hold : e ∈ w.events
      · exact ho e hold hid
      · exact h.source e he hold row hrow ⟨p, hp, hs, hs⟩ hid.symm
  simp [rowEntry, reversalAmount, World.inputs, hfind]

/-- The rows of a line that are there already come first in the grown ledger. -/
theorem LedgerGrows.lineRows_prefix (h : LedgerGrows lines w.events events)
    (hnd : (w.events.map (·.creditEventId)).Nodup) (hp : p ∈ lines) :
    w.lineRows p.2 <+: World.lineRows { w with events := events } p.2 := by
  have hsub : ∀ x ∈ ledgerReversals w.events, x ∈ ledgerReversals events := by
    intro x hx
    obtain ⟨he, hr⟩ := mem_ledgerReversals.1 hx
    exact mem_ledgerReversals.2 ⟨h.keep _ he, hr⟩
  have hpre : ((ledgerReversals w.events).filter (·.2 ∈ p.2.sourceCreditEventIds)) <+:
      ((ledgerReversals events).filter (·.2 ∈ p.2.sourceCreditEventIds)) := by
    refine prefix_of_pairwise (r := ledgerLe) ((ledgerReversals_pairwise _).filter _)
      ((ledgerReversals_pairwise _).filter _) (.filter _ (.of_map _ (ledgerReversals_nodup hnd)))
      (.filter _ (.of_map _ (ledgerReversals_nodup h.ids))) ?_ ?_ ?_
    · intro x hx
      obtain ⟨hx, hs⟩ := mem_filter.1 hx
      exact mem_filter.2 ⟨hsub x hx, hs⟩
    · intro x hx hxold y hy
      obtain ⟨hx, hxs⟩ := mem_filter.1 hx
      obtain ⟨hy, hys⟩ := mem_filter.1 hy
      refine h.order x hx (fun hmem => hxold ?_) y hy ⟨p, hp, by simpa using hxs, by simpa using hys⟩
      exact mem_filter.2
        ⟨mem_ledgerReversals.2 ⟨hmem, (mem_ledgerReversals.1 hx).2⟩, hxs⟩
    · intro x hx y hy
      exact ledgerLe_antisymm h.ids (mem_filter.1 hx).1 (mem_filter.1 hy).1
  have hmap : w.lineRows p.2 =
      ((ledgerReversals w.events).filter (·.2 ∈ p.2.sourceCreditEventIds)).map
        (rowEntry { w with events := events }.inputs) := by
    refine map_congr_left fun x hx => ?_
    obtain ⟨hx, hs⟩ := mem_filter.1 hx
    exact (h.rowEntry_eq hnd hp hx (by simpa using hs)).symm
  rw [hmap]
  exact hpre.map _

end rows

/-! ## Epochs recorded later -/

variable {e : RateEpoch}

theorem selectEpoch_append {swap : RateEpoch → RateEpoch → Bool} {epochs : List RateEpoch}
    (hne : epochs ≠ []) (h : ∀ x ∈ epochs, swap x e = false) :
    selectEpoch swap (epochs ++ [e]) = selectEpoch swap epochs := by
  cases epochs with
  | nil => exact absurd rfl hne
  | cons x xs =>
    have hmem : xs.foldl (fun m e => if swap m e then e else m) x ∈ x :: xs := selectEpoch_mem rfl
    simp only [cons_append, selectEpoch, foldl_append, foldl_cons]
    rw [h _ hmem]
    rfl

/-- The epoch in force at a time is not changed by one observed after it, and after the others. -/
theorem epochInForce_append {epochs : List RateEpoch} (hne : epochs ≠ []) {t : Time}
    (ht : t < e.observedAt) (hord : ∀ x ∈ epochs, x.le e) :
    epochInForce (epochs ++ [e]) t = epochInForce epochs t := by
  have hfirst : firstEpoch (epochs ++ [e]) = firstEpoch epochs :=
    selectEpoch_append hne fun x hx => by simpa using hord x hx
  have hfilter : (epochs ++ [e]).filter (·.observedAt ≤ t) = epochs.filter (·.observedAt ≤ t) := by
    simp [ht]
  rw [epochInForce, epochInForce, hfirst, hfilter]

theorem linePrice_epoch {w : World} {p : Batch × LineItem} {x : RateEpoch × Nat}
    (ht : p.1.createdAt < e.observedAt) (hord : ∀ x ∈ w.epochs, x.le e)
    (h : linePrice w.inputs p = some x) :
    linePrice { w with epochs := w.epochs ++ [e] }.inputs p = some x := by
  have hne : w.epochs ≠ [] := ne_nil_of_mem (epochInForce_mem (linePrice_eq_some h).1)
  have hforce := epochInForce_append hne ht hord
  simpa [linePrice, World.inputs, hforce] using h

/-! ## What the runs have stored -/

/-- The stored rows are those of one run over what each line's runs have seen: the credits at
the epochs in force, the reversals the draws over a prefix of the line's rows. -/
structure World.Replayed (d : RailDescriptor) (w : World) : Prop where
  credits : w.CreditsInForce d
  reversals : ∀ p ∈ finalizedLines w.batches, ∀ c ∈ w.stored, c.kind = .credit →
    c.key = lineKey p.1 p.2 → ∃ E, E <+: w.lineRows p.2 ∧
      (lineReversals (lineKey p.1 p.2) w.stored).map (·.unowned) =
        ((linePool w.inputs p.2 c.lineCredit).run ⟨∅, 0, 0⟩ E).2.map
          fun dr => (drawWrite d p.1 p.2 c.lineCredit dr).unowned

section replay

variable {d : RailDescriptor} {w : World} {p : Batch × LineItem}

/-- Draws over rows of the ledger name their rows' events. -/
theorem run_draw_row {P : Pool Uuid} {t : Drawn Uuid} {E : List (Entry Uuid Uuid)} {l : LineItem}
    (hE : E <+: w.lineRows l) {dr : Draw Uuid Uuid} (hdr : dr ∈ (P.run t E).2) :
    ∃ row ∈ ledgerReversals w.events, row.1.creditEventId = dr.label ∧ row.2 = dr.source := by
  obtain ⟨-, -, en, hen, hl, hs⟩ := Pool.run_draw_mem _ _ hdr
  obtain ⟨row, hrow, rfl⟩ := mem_map.1 (hE.subset hen)
  exact ⟨row, mem_of_mem_filter hrow, hl, hs⟩

/-- What stored rows have drawn, read off the draws they come from. -/
theorem World.drawn_eq_of_rows (hnd : (w.events.map (·.creditEventId)).Nodup) {c : LineCredit}
    {ds : List (Draw Uuid Uuid)}
    (hds : ∀ dr ∈ ds, ∃ row ∈ ledgerReversals w.events,
      row.1.creditEventId = dr.label ∧ row.2 = dr.source)
    (h : (lineReversals (lineKey p.1 p.2) w.stored).map (·.unowned) =
      ds.map fun dr => (drawWrite d p.1 p.2 c dr).unowned) :
    w.drawn p = ⟨(ds.map (·.source)).toFinset, (ds.map (·.base)).sum, (ds.map (·.quote)).sum⟩ := by
  have haward := congrArg (map (·.awardUnits)) h
  have hrail := congrArg (map (·.railUnits)) h
  have hsrc := congrArg (filterMap (rowSource w.events)) h
  have hdraw : ∀ dr ∈ ds, rowSource w.events (drawWrite d p.1 p.2 c dr).unowned = some dr.source := by
    intro dr hdr
    obtain ⟨_, hrow, hl, hs⟩ := hds dr hdr
    obtain ⟨he, hr⟩ := mem_ledgerReversals.1 hrow
    rw [← hs]
    exact rowSource_eq hnd he hr (congrArg _ hl.symm)
  simp only [map_map, filterMap_map] at haward hrail hsrc
  have hds' : ds.filterMap (rowSource w.events ∘ fun dr => (drawWrite d p.1 p.2 c dr).unowned) =
      ds.map (·.source) := by
    rw [← filterMap_eq_map]
    exact filterMap_congr hdraw
  rw [hds'] at hsrc
  rw [Drawn.mk.injEq]
  exact ⟨congrArg toFinset hsrc, congrArg sum haward, congrArg sum hrail⟩

/-- Of a line's rows, those stored already are those of the line's stored reversals. -/
theorem World.Sound.mem_reversedFrom (h : w.Sound d) (hp : p ∈ finalizedLines w.batches)
    {row : CreditEvent × Uuid} (hrow : row ∈ ledgerReversals w.events)
    (hs : row.2 ∈ p.2.sourceCreditEventIds) :
    row.1.creditEventId ∈ reversedFrom w.stored ↔
      some row.1.creditEventId ∈
        (lineReversals (lineKey p.1 p.2) w.stored).map (·.reversalEventId) := by
  simp only [reversedFrom, mem_toFinset, mem_filterMap, mem_map]
  constructor
  · rintro ⟨a, ha, hid⟩
    exact ⟨a, h.of_reversalEventId hp hrow hs ha hid, hid⟩
  · rintro ⟨a, ha, hid⟩
    exact ⟨a, (mem_lineReversals.1 ha).1, hid⟩

theorem lineEntries_eq_filter (l : LineItem) :
    lineEntries w.inputs l (ledgerReversals w.events) =
      (w.lineRows l).filter fun en => en.label ∉ reversedFrom w.stored := by
  unfold lineEntries World.lineRows
  rw [filter_map, filter_filter]
  congr 1
  exact filter_congr fun row _ => by rw [Bool.decide_and]; rfl

theorem lineRows_label_nodup (hnd : (w.events.map (·.creditEventId)).Nodup) (l : LineItem) :
    ((w.lineRows l).map (·.label)).Nodup := by
  have h := (ledgerReversals_nodup hnd).sublist
    ((filter_sublist (p := fun row => row.2 ∈ l.sourceCreditEventIds)
      (l := ledgerReversals _)).map _)
  rw [World.lineRows, map_map]
  exact h

/-- Running on from stored draws over a prefix of the line's rows draws the rest of them. -/
theorem World.Sound.run_rest (h : w.Sound d) (hp : p ∈ finalizedLines w.batches) {c : LineCredit}
    {E : List (Entry Uuid Uuid)} (hE : E <+: w.lineRows p.2)
    (hrows : (lineReversals (lineKey p.1 p.2) w.stored).map (·.unowned) =
      ((linePool w.inputs p.2 c).run ⟨∅, 0, 0⟩ E).2.map
        fun dr => (drawWrite d p.1 p.2 c dr).unowned) :
    ((linePool w.inputs p.2 c).run ⟨∅, 0, 0⟩ E).2 ++ (w.lineRun p c).2 =
      ((linePool w.inputs p.2 c).run ⟨∅, 0, 0⟩ (w.lineRows p.2)).2 := by
  obtain ⟨F, hF⟩ := hE
  have hnd := lineRows_label_nodup h.events p.2
  set P := linePool w.inputs p.2 c with hP
  have hdrawn : w.drawn p = Pool.resume ∅ (P.run ⟨∅, 0, 0⟩ E) := by
    rw [World.drawn_eq_of_rows h.events (fun dr hdr => run_draw_row ⟨F, hF⟩ hdr) hrows]
    simp [Pool.resume, Pool.drawnSources, Pool.run_base, Pool.run_quote]
  -- a row of the line is stored exactly if it drew in the run over the prefix
  have hst : ∀ en ∈ w.lineRows p.2, (en.label ∈ reversedFrom w.stored ↔
      en.label ∈ (P.run ⟨∅, 0, 0⟩ E).2.map (·.label)) := by
    refine forall_mem_map.2 fun row hrow => ?_
    obtain ⟨hrow, hs⟩ := mem_filter.1 hrow
    have hids := congrArg (map (·.reversalEventId)) hrows
    simp only [map_map] at hids
    have hleft : (lineReversals (lineKey p.1 p.2) w.stored).map (·.reversalEventId) =
        (P.run ⟨∅, 0, 0⟩ E).2.map fun dr => some dr.label := hids
    show row.1.creditEventId ∈ reversedFrom w.stored ↔
      row.1.creditEventId ∈ (P.run ⟨∅, 0, 0⟩ E).2.map (·.label)
    rw [h.mem_reversedFrom hp hrow (by simpa using hs), hleft]
    simp
  rw [World.lineRun, lineEntries_eq_filter, ← hF, filter_append, hdrawn, Pool.run_append,
    Pool.run_append]
  have hndE : (E.map (·.label)).Nodup := by
    rw [← hF, map_append, nodup_append] at hnd; exact hnd.1
  have hrerun := Pool.rerun (P := P) (t := ⟨∅, 0, 0⟩) ⟨Nat.zero_le _, Nat.zero_le _⟩ hndE
    _ fun en hen => hst en (hF ▸ mem_append_left _ hen)
  have hrest : F.filter (fun en => en.label ∉ reversedFrom w.stored) = F := by
    refine filter_eq_self.2 fun en hen => ?_
    rw [decide_eq_true_eq, hst en (hF ▸ mem_append_right _ hen)]
    intro hm
    have hmE := (P.run_draw_labels _ E).subset hm
    rw [← hF, map_append, nodup_append] at hnd
    exact hnd.2.2 _ hmE _ (mem_map_of_mem hen) rfl
  rw [hrerun, hrest]
  rfl

section

variable (h : w.Replayed d)

include h

theorem World.Replayed.add_credits (hs : w.Sound d) (r : PlanRun d w) :
    r.credited.Replayed d where
  credits := by
    refine forall_mem_append.2 ⟨h.credits, fun c hc hk => ?_⟩
    obtain ⟨p, hp, hpos, -, e, u, hpr, rfl⟩ := r.mem_credits hs.batches hc
    obtain ⟨hp, hdue⟩ := mem_dueLines.1 hp
    exact ⟨p, hp, hpos, hdue, e, u, hpr, rfl⟩
  reversals := by
    intro p hp c hc hk hkey
    rw [r.lineReversals_credits hs.batches]
    rcases mem_append.1 hc with hc | hc
    · exact h.reversals p hp c hc hk hkey
    obtain ⟨q, -, -, hnone, e, u, -, rfl⟩ := r.mem_credits hs.batches hc
    rw [hs.reversals_of_uncredited fun x hx hxk hxkey =>
      creditedFrom_eq_none.1 hnone x hx hxk (hxkey.trans hkey.symm)]
    exact ⟨[], nil_prefix, rfl⟩

/-- After a run, a due line's stored reversals are the draws over all of its rows. -/
theorem World.Replayed.line_full (hs : w.Sound d) (r : PlanRun d w)
    (hp : p ∈ dueLines w.inputs) {c : PayoutAccrual} (hc : c ∈ w.stored ++ r.credits)
    (hk : c.kind = .credit) (hkey : c.key = lineKey p.1 p.2) :
    (lineReversals (lineKey p.1 p.2) (w.stored ++ r.credits ++ r.reversals)).map (·.unowned) =
      ((linePool w.inputs p.2 c.lineCredit).run ⟨∅, 0, 0⟩ (w.lineRows p.2)).2.map
        fun dr => (drawWrite d p.1 p.2 c.lineCredit dr).unowned := by
  have hfin := (mem_dueLines.1 hp).1
  obtain ⟨E, hE, hrows⟩ := (h.add_credits hs r).reversals p hfin c hc hk hkey
  rw [r.lineReversals_credits hs.batches] at hrows
  have hcred := r.credited_of_mem hs hc hk hkey
  rw [lineReversals_append, r.lineReversals_credits hs.batches,
    r.line_reversals hs.batches hp hcred, hs.lineStart_eq r hfin, map_append, map_map,
    ← hs.run_rest hfin hE hrows, map_append]
  exact congrArg₂ _ hrows rfl

theorem World.Replayed.add_reversals (hs : w.Sound d) (r : PlanRun d w) :
    r.booked.Replayed d where
  credits := by
    intro c hc hk
    exact (h.add_credits hs r).credits c (r.mem_of_credit hc hk) hk
  reversals := by
    intro p hp c hc hk hkey
    have hc1 := r.mem_of_credit hc hk
    by_cases hdue : p ∈ dueLines w.inputs
    · exact ⟨_, prefix_rfl, h.line_full hs r hdue hc1 hk hkey⟩
    · rw [lineReversals_append, hs.reversals_of_not_due r hp hdue, append_nil]
      exact (h.add_credits hs r).reversals p hp c hc1 hk hkey

theorem World.Replayed.claims (cs : List (String × Uuid)) :
    World.Replayed d { w with stored := claimAll w.stored cs } := by
  obtain ⟨g, hg⟩ := claimAll_eq _ cs
  rw [hg]
  constructor
  · refine forall_mem_map.2 fun a0 ha0 hk => ?_
    exact h.credits a0 ha0 hk
  intro p hp a ha hk hkey
  obtain ⟨a0, ha0, rfl⟩ := mem_map.1 ha
  rw [lineReversals_owners, map_map]
  exact h.reversals p hp a0 ha0 hk hkey

theorem World.Replayed.run (hs : w.Sound d) (stop : RunStop) :
    (accrueRail d stop w).Replayed d := by
  rcases accrueRail_cases hs _ with e | ⟨cs, -, e⟩ | ⟨r, e⟩ | ⟨r, cs, -, e⟩
  · rw [e]; exact h
  · rw [e]; exact h.claims cs
  · rw [e]; exact h.add_credits hs r
  · rw [e]; exact (h.add_reversals hs r).claims cs

theorem World.Replayed.clock {t : Time} (ht : w.now ≤ t) :
    World.Replayed d { w with now := t } := by
  refine ⟨fun c hc hk => ?_, h.reversals⟩
  obtain ⟨p, hp, hpos, hdue, hrest⟩ := h.credits c hc hk
  exact ⟨p, hp, hpos, lt_of_lt_of_le hdue ht, hrest⟩

theorem World.Replayed.settle (hs : w.Sound d) {batches : List Batch}
    (hwf : BatchesWF batches) (hkeep : ∀ b ∈ w.batches, b.status = .finalized → b ∈ batches) :
    World.Replayed d { w with batches := batches } where
  credits := by
    intro c hc hk
    obtain ⟨p, hp, hrest⟩ := h.credits c hc hk
    exact ⟨p, finalizedLines_mono hkeep hp, hrest⟩
  reversals := by
    intro p hp c hc hk hkey
    obtain ⟨-, q, hq, -, hqk, -⟩ := hs.credit c hc hk
    obtain rfl := hwf.lines.key_inj (finalizedLines_mono hkeep hq) hp (hqk.trans hkey)
    exact h.reversals q hq c hc hk hkey

theorem World.Replayed.ledger (hs : w.Sound d)
    {lines : List (Batch × LineItem)} (hlines : ∀ p ∈ finalizedLines w.batches, p ∈ lines)
    {events : List CreditEvent} (hgrow : LedgerGrows lines w.events events) :
    World.Replayed d { w with events := events } where
  credits := h.credits
  reversals := by
    intro p hp c hc hk hkey
    obtain ⟨E, hE, hrows⟩ := h.reversals p hp c hc hk hkey
    exact ⟨E, hE.trans (hgrow.lineRows_prefix hs.events (hlines p hp)), hrows⟩

theorem World.Replayed.epoch (hpr : w.Priced) (hobs : w.now ≤ e.observedAt)
    (hord : ∀ x ∈ w.epochs, x.le e) :
    World.Replayed d { w with epochs := w.epochs ++ [e] } where
  credits := by
    intro c hc hk
    obtain ⟨p, hp, hpos, hdue, e', u, hprice, heq⟩ := h.credits c hc hk
    exact ⟨p, hp, hpos, hdue, e', u, linePrice_epoch (lt_of_lt_of_le hdue hobs) hord hprice, heq⟩
  reversals := by
    intro p hp c hc hk hkey
    rw [hpr.linePool_epoch hc hk]
    exact h.reversals p hp c hc hk hkey

end

end replay

/-! ## Histories revealed in pieces -/

/-- A step of a history whose finalized lines are `lines`: more of it is revealed, or an
accrual run at the clock's time `t` is stopped somewhere. `claims` says whether runs reach
their claims. -/
inductive World.Reveal (d : RailDescriptor) (lines : List (Batch × LineItem)) (claims : Bool) :
    World → World → Prop
  | settle {w : World} (batches : List Batch) (hwf : BatchesWF batches)
      (hkeep : ∀ b ∈ w.batches, b.status = .finalized → b ∈ batches)
      (hlines : ∀ p ∈ finalizedLines batches, p ∈ lines) :
      Reveal d lines claims w { w with batches := batches }
  | ledger {w : World} (events : List CreditEvent) (hgrow : LedgerGrows lines w.events events) :
      Reveal d lines claims w { w with events := events }
  | epoch {w : World} (e : RateEpoch) (hnew : ∀ x ∈ w.epochs, x.rate.version ≠ e.rate.version)
      (hobs : w.now ≤ e.observedAt) (hord : ∀ x ∈ w.epochs, x.le e) :
      Reveal d lines claims w { w with epochs := w.epochs ++ [e] }
  | principals {w : World} (f : String → Option Uuid) :
      Reveal d lines claims w { w with principalAccounts := f }
  | run {w : World} (t : Time) (ht : w.now ≤ t) (stop : RunStop)
      (hclaims : claims = false → stop.claimed = false) :
      Reveal d lines claims w (accrueRail d stop { w with now := t })

section reveal

variable {d : RailDescriptor} {lines : List (Batch × LineItem)} {claims : Bool} {w w' : World}

theorem World.Reveal.steps (h : World.Reveal d lines claims w w') :
    Relation.ReflTransGen (World.Step d) w w' := by
  cases h with
  | settle batches hwf hkeep _ => exact .single (.settle _ hwf hkeep)
  | ledger events hgrow => exact .single (.ledger _ hgrow.ids fun e he _ => hgrow.keep e he)
  | epoch e hnew _ _ => exact .single (.epoch e hnew)
  | principals f => exact .single (.principals f)
  | run t _ stop _ => exact .tail (.single (.clock t)) (.run _)

/-- What revealing a history piece by piece keeps. -/
structure World.Revealed (d : RailDescriptor) (lines : List (Batch × LineItem)) (w : World) :
    Prop where
  sound : w.Sound d
  priced : w.Priced
  lines : ∀ p ∈ finalizedLines w.batches, p ∈ lines
  replayed : w.Replayed d

theorem World.Revealed.step (hr : w.Revealed d lines) (h : World.Reveal d lines claims w w') :
    w'.Revealed d lines := by
  obtain ⟨hs, hpr, hl, hrep⟩ := hr
  have hsp : w'.Sound d ∧ w'.Priced := by
    have hsteps := h.steps
    clear h
    induction hsteps with
    | refl => exact ⟨hs, hpr⟩
    | tail _ hstep ih => exact ⟨hstep.sound ih.1, hstep.priced ih.1 ih.2⟩
  refine ⟨hsp.1, hsp.2, ?_, ?_⟩
  · cases h with
    | settle batches hwf hkeep hlines => exact hlines
    | run t ht stop _ => rw [accrueRail_eq]; exact hl
    | _ => exact hl
  · cases h with
    | settle batches hwf hkeep _ => exact hrep.settle hs hwf hkeep
    | ledger events hgrow => exact hrep.ledger hs hl hgrow
    | epoch e hnew hobs hord => exact hrep.epoch hpr hobs hord
    | principals f => exact ⟨hrep.credits, hrep.reversals⟩
    | run t ht stop _ =>
      exact (hrep.clock ht).run ((World.Step.clock t).sound hs) _

/-- Each stored row has the owner its line's credit account names. -/
def World.OwnedByLine (w : World) : Prop :=
  ∀ a ∈ w.stored, ∀ p ∈ finalizedLines w.batches, lineKey p.1 p.2 = a.key →
    a.accountId = accrualOwnerForLine p.2.creditAccountRef

theorem World.OwnedByLine.run (h : w.OwnedByLine) (hs : w.Sound d) {stop : RunStop}
    (hcl : stop.claimed = false) : (accrueRail d stop w).OwnedByLine := by
  have hcredits : ∀ r : PlanRun d w,
      r.credited.OwnedByLine := by
    intro r a ha p hp hkey
    rcases mem_append.1 ha with ha | ha
    · exact h a ha p hp hkey
    · obtain ⟨q, hq, -, -, e, u, -, rfl⟩ := r.mem_credits hs.batches ha
      obtain rfl := hs.batches.lines.key_inj hp (mem_dueLines.1 hq).1 hkey
      rfl
  rcases accrueRail_cases hs _ with e | ⟨cs, hc, -⟩ | ⟨r, e⟩ | ⟨r, cs, hcs, e⟩
  · rw [e]; exact h
  · rw [hcl] at hc; cases hc
  · rw [e]; exact hcredits r
  · rw [e, hcs hcl]
    refine forall_mem_append.2 ⟨hcredits r, fun a ha p hp hkey => ?_⟩
    -- a reversal takes the owner of the credit it takes back
    obtain ⟨_, -, b, l, c, dr, -, hpr, rfl, -⟩ := r.mem_reversals ha
    obtain ⟨cr, hcr, -, hckey, rfl⟩ := r.mem_of_credited hs.batches hpr.credited
    exact hcredits r cr hcr p hp (hkey.trans hckey.symm)

theorem World.Sound.line_of_mem (h : w.Sound d) {a : PayoutAccrual} (ha : a ∈ w.stored) :
    ∃ p ∈ finalizedLines w.batches, lineKey p.1 p.2 = a.key := by
  cases hk : a.kind with
  | credit =>
    obtain ⟨-, p, hp, -, hpk, -⟩ := h.credit a ha hk
    exact ⟨p, hp, hpk⟩
  | reversal =>
    obtain ⟨⟨s, p, e, -, -, -, hp, hpk, -⟩, -⟩ := h.reversal a ha hk
    exact ⟨p, hp, hpk⟩

theorem World.OwnedByLine.step (h : w.OwnedByLine) (hs : w.Sound d)
    (hstep : World.Reveal d lines false w w') : w'.OwnedByLine := by
  cases hstep with
  | settle batches hwf hkeep _ =>
    intro a ha p hp hkey
    obtain ⟨q, hq, hqk⟩ := hs.line_of_mem ha
    obtain rfl := hwf.lines.key_inj (finalizedLines_mono hkeep hq) hp (hqk.trans hkey.symm)
    exact h a ha q hq hkey
  | ledger | epoch | principals => exact h
  | run t ht stop hcl =>
    exact World.OwnedByLine.run (w := { w with now := t }) h ((World.Step.clock t).sound hs) (hcl rfl)

/-! ## Complete runs -/

/-- What one run over everything `w` holds stores on line `p`, priced at `e`. -/
def World.lineAccruals (d : RailDescriptor) (w : World) (p : Batch × LineItem) (e : RateEpoch)
    (u : Nat) : List PayoutAccrual :=
  let c : LineCredit := ⟨e.rate.version, accrualOwnerForLine p.2.creditAccountRef, u⟩
  creditWrite d p.1 p.2 e u ::
    ((linePool w.inputs p.2 c).run ⟨∅, 0, 0⟩ (w.lineRows p.2)).2.map (drawWrite d p.1 p.2 c)

/-- A row of some due line's accruals, owner aside. -/
def World.Due (d : RailDescriptor) (w : World) (a : PayoutAccrual) : Prop :=
  ∃ p ∈ dueLines w.inputs, 0 < p.2.settledCreditDeltaMicros ∧
    ∃ e u, linePrice w.inputs p = some (e, u) ∧
      a ∈ (w.lineAccruals d p e u).map (·.unowned)

/-- A credit of a due line, stored before the run or by it, with the line's price. -/
theorem World.Replayed.credit_of_due (h : w.Replayed d) (hs : w.Sound d) (r : PlanRun d w)
    {p : Batch × LineItem} (hp : p ∈ dueLines w.inputs) (hpos : 0 < p.2.settledCreditDeltaMicros)
    {u : Nat} (hpr : linePrice w.inputs p = some (e, u)) :
    ∃ c ∈ w.stored ++ r.credits, c.kind = .credit ∧ c.key = lineKey p.1 p.2 ∧
      c.unowned = (creditWrite d p.1 p.2 e u).unowned ∧
      c.lineCredit = ⟨e.rate.version, c.accountId, u⟩ := by
  have hcred : r.cs.credited (lineKey p.1 p.2) ≠ none := by
    rw [(r.spec hs.batches).credited]
    cases hst : creditedFrom _ _ with
    | some c => simp
    | none => simp [PlanRun.find?_due hs.batches hp hpos, lineCredit, hpr]
  obtain ⟨lc, hlc⟩ := Option.ne_none_iff_exists'.1 hcred
  obtain ⟨c, hc, hk, hkey, -⟩ := r.mem_of_credited hs.batches hlc
  obtain ⟨q, hq, -, -, e', u', hpr', heq⟩ := (h.add_credits hs r).credits c hc hk
  obtain ⟨hqk, hlc'⟩ := unowned_creditWrite heq
  obtain rfl := hs.batches.lines.key_inj hq (mem_dueLines.1 hp).1 (hqk.symm.trans hkey)
  obtain ⟨rfl, rfl⟩ : e' = e ∧ u' = u := by
    have : some (e', u') = some (e, u) := hpr'.symm.trans hpr
    simpa using this
  exact ⟨c, hc, hk, hkey, heq, hlc'⟩

/-- After a complete run the stored rows are those of all due lines, each over all its rows. -/
theorem World.Replayed.complete (h : w.Replayed d) (hs : w.Sound d) (r : PlanRun d w)
    (a : PayoutAccrual) :
    a ∈ (w.stored ++ r.credits ++ r.reversals).map (·.unowned) ↔ w.Due d a := by
  constructor
  · intro ha
    obtain ⟨a0, ha0, rfl⟩ := mem_map.1 ha
    have hafter := h.add_reversals hs r
    cases hk : a0.kind with
    | credit =>
      obtain ⟨p, hp, hpos, hdue, e, u, hpr, heq⟩ := hafter.credits a0 ha0 hk
      exact ⟨p, mem_dueLines.2 ⟨hp, hdue⟩, hpos, e, u, hpr, by rw [heq]; exact .head _ ..⟩
    | reversal =>
      obtain ⟨-, c, hc, hck, hckey⟩ := (hs.add_reversals r).reversal a0 ha0 hk
      obtain ⟨p, hp, hpos, hdue, e, u, hpr, heq⟩ := hafter.credits c hc hck
      obtain ⟨hpk, hlc⟩ := unowned_creditWrite heq
      have hc1 := r.mem_of_credit hc hck
      have hpd : p ∈ dueLines w.inputs := mem_dueLines.2 ⟨hp, hdue⟩
      have hmem : a0.unowned ∈ (lineReversals (lineKey p.1 p.2)
          (w.stored ++ r.credits ++ r.reversals)).map (·.unowned) :=
        mem_map_of_mem (mem_lineReversals.2 ⟨ha0, hk, hckey.symm.trans hpk⟩)
      rw [h.line_full hs r hpd hc1 hck hpk, hlc] at hmem
      refine ⟨p, hpd, hpos, e, u, hpr, ?_⟩
      rw [World.lineAccruals, map_cons, map_map]
      exact .tail _ hmem
  · rintro ⟨p, hp, hpos, e, u, hpr, ha⟩
    obtain ⟨c, hc, hk, hkey, heq, hlc⟩ := h.credit_of_due hs r hp hpos hpr
    rw [World.lineAccruals, map_cons, map_map] at ha
    rcases mem_cons.1 ha with rfl | ha
    · exact heq ▸ mem_map_of_mem (mem_append_left _ hc)
    have hfull := h.line_full hs r hp hc hk hkey
    rw [hlc] at hfull
    have hmem : a ∈ (lineReversals (lineKey p.1 p.2)
        (w.stored ++ r.credits ++ r.reversals)).map (·.unowned) := by
      rw [hfull]; exact ha
    obtain ⟨a0, ha0, rfl⟩ := mem_map.1 hmem
    exact mem_map_of_mem (mem_lineReversals.1 ha0).1

theorem map_unowned_claimAll (rows : List PayoutAccrual) (cs : List (String × Uuid)) :
    (claimAll rows cs).map (·.unowned) = rows.map (·.unowned) := by
  obtain ⟨g, hg⟩ := claimAll_eq _ cs
  rw [hg, map_map]
  rfl

/-- Without an epoch nothing is stored. -/
theorem World.Sound.stored_eq_nil (hs : w.Sound d) (hpr : w.Priced) (he : w.epochs = []) :
    w.stored = [] := by
  have hcredit : ∀ c ∈ w.stored, c.kind ≠ .credit := by
    intro c hc hk
    obtain ⟨e, hmem, -⟩ := hpr c hc hk
    rw [he] at hmem
    cases hmem
  refine eq_nil_iff_forall_not_mem.2 fun a ha => ?_
  cases hk : a.kind with
  | credit => exact hcredit a ha hk
  | reversal =>
    obtain ⟨-, c, hc, hck, -⟩ := hs.reversal a ha hk
    exact hcredit c hc hck

/-- The rows stored after a run that plans and stores its reversals. -/
theorem World.Replayed.stored_complete (h : w.Replayed d) (hs : w.Sound d) (hpr : w.Priced)
    {plan : AccrualPlan} (hplan : planRailAccruals d w.inputs = .ok plan) {stop : RunStop}
    (hstop : stop.storesReversals) (a : PayoutAccrual) :
    a ∈ (accrueRail d stop w).stored.map (·.unowned) ↔ w.Due d a := by
  rcases PlanRun.of_plan hplan with ⟨he, _⟩ | ⟨r, hr⟩
  · constructor
    · intro ha
      have hnone : (accrueRail d stop w).stored = [] :=
        (hs.run _).stored_eq_nil ((World.Step.run stop).priced hs hpr)
          (by rw [accrueRail_eq]; exact he)
      rw [hnone] at ha
      cases ha
    · rintro ⟨p, -, -, e, u, hprice, -⟩
      have hmem := epochInForce_mem (linePrice_eq_some hprice).1
      rw [show w.inputs.epochs = [] from he] at hmem
      cases hmem
  · rcases accrueRail_of_plan hs hplan hr stop with ⟨rfl, -⟩ | ⟨rfl, -⟩ | ⟨-, cs, -, e⟩
    · cases hstop
    · cases hstop
    · rw [e, map_unowned_claimAll]
      exact h.complete hs r a

/-- Two rows of one line that differ at most in their owner are equal where owners are lines'. -/
theorem World.OwnedByLine.eq_of_unowned (h : w.OwnedByLine) (h' : w'.OwnedByLine)
    (hb : w.batches = w'.batches) (hs : w.Sound d) {a b : PayoutAccrual} (ha : a ∈ w.stored)
    (hb' : b ∈ w'.stored) (heq : a.unowned = b.unowned) : a = b := by
  have hkey : b.key = a.key := (congrArg PayoutAccrual.key heq).symm
  obtain ⟨p, hp, hpk⟩ := hs.line_of_mem ha
  have ho : a.accountId = b.accountId := by
    rw [h a ha p hp hpk, h' b hb' p (hb ▸ hp) (hpk.trans hkey.symm)]
  cases a; cases b
  simp only [PayoutAccrual.unowned, PayoutAccrual.mk.injEq] at heq ho ⊢
  exact ⟨heq.1, heq.2.1, heq.2.2.1, heq.2.2.2.1, heq.2.2.2.2.1, ho, heq.2.2.2.2.2.2⟩

/-- A run that finds every due line's rows run already writes nothing. -/
theorem World.Replayed.plan_nothing (h : w.Replayed d) (hs : w.Sound d)
    (hcredit : ∀ p ∈ dueLines w.inputs, 0 < p.2.settledCreditDeltaMicros →
      ∃ c ∈ w.stored, c.kind = .credit ∧ c.key = lineKey p.1 p.2)
    (hrows : ∀ p ∈ dueLines w.inputs, ∀ c ∈ w.stored, c.kind = .credit →
      c.key = lineKey p.1 p.2 → (lineReversals (lineKey p.1 p.2) w.stored).length =
        ((linePool w.inputs p.2 c.lineCredit).run ⟨∅, 0, 0⟩ (w.lineRows p.2)).2.length)
    {plan : AccrualPlan} (hplan : planRailAccruals d w.inputs = .ok plan) : plan.writes = [] := by
  rcases PlanRun.of_plan hplan with ⟨-, hnil⟩ | ⟨r, hr⟩
  · exact hnil
  have hcredits : r.credits = [] := by
    refine eq_nil_iff_forall_not_mem.2 fun a ha => ?_
    obtain ⟨p, hp, hpos, hnone, -⟩ := r.mem_credits hs.batches ha
    obtain ⟨c, hc, hk, hkey⟩ := hcredit p hp hpos
    exact creditedFrom_eq_none.1 hnone c hc hk hkey
  have hreversals : r.reversals = [] := by
    refine eq_nil_iff_forall_not_mem.2 fun a ha => ?_
    obtain ⟨_, -, b, l, lc, dr, -, hpr, rfl, -⟩ := r.mem_reversals ha
    obtain ⟨hbl, -⟩ :=
      ((r.spec hs.batches).located_iff (BatchesWF.due _ hs.batches)).1 hpr.located
    obtain ⟨c, hc, hk, hkey, -⟩ := r.mem_of_credited hs.batches hpr.credited
    have hfull := congrArg length (h.line_full hs r hbl hc hk hkey)
    rw [hcredits, append_nil] at hc
    rw [length_map, lineReversals_append, r.lineReversals_credits hs.batches,
      length_append, hrows _ hbl c hc hk hkey] at hfull
    have hnone : lineReversals (lineKey b l) r.reversals = [] :=
      length_eq_zero_iff.1 (by simpa using hfull)
    have hmem := mem_lineReversals.2 ⟨ha, rfl, rfl⟩
    rw [show (drawWrite d b l lc dr).key = lineKey b l from rfl, hnone] at hmem
    cases hmem
  rw [hr, hcredits, hreversals, append_nil]

end reveal

theorem World.Initial.revealed {d : RailDescriptor} {lines : List (Batch × LineItem)} {w : World}
    (h : w.Initial) (hl : ∀ p ∈ finalizedLines w.batches, p ∈ lines) : w.Revealed d lines :=
  ⟨h.sound, by simp [World.Priced, h.stored], hl, by simp [World.CreditsInForce, h.stored],
    by simp [h.stored]⟩

theorem World.Initial.reveal {d : RailDescriptor} {lines : List (Batch × LineItem)} {claims : Bool}
    {w0 w : World} (h0 : w0.Initial) (hl : ∀ p ∈ finalizedLines w0.batches, p ∈ lines)
    (hrun : Relation.ReflTransGen (World.Reveal d lines claims) w0 w) :
    w.Revealed d lines ∧ (claims = false → w.OwnedByLine) := by
  induction hrun with
  | refl => exact ⟨h0.revealed hl, fun _ => by simp [World.OwnedByLine, h0.stored]⟩
  | tail _ hstep ih =>
    refine ⟨ih.1.step hstep, fun hcl => ?_⟩
    subst hcl
    exact (ih.2 rfl).step ih.1.sound hstep

section oneRun

variable {d : RailDescriptor} {lines : List (Batch × LineItem)} {w : World} {plan : AccrualPlan}

theorem World.Revealed.fresh (h : w.Revealed d lines) :
    World.Revealed d lines { w with stored := [] } :=
  World.Initial.revealed ⟨h.sound.batches, h.sound.events, h.sound.epochs, rfl⟩ h.lines

/-- Every due line has a price where one run over everything plans. -/
theorem linesPriced_of_plan (hw : BatchesWF w.batches)
    (hplan : planRailAccruals d { w with stored := [] }.inputs = .ok plan) (hne : w.epochs ≠ []) :
    ∀ p ∈ dueLines w.inputs, 0 < p.2.settledCreditDeltaMicros → (linePrice w.inputs p).isSome := by
  intro p hp hpos
  rcases PlanRun.of_plan hplan with ⟨he, -⟩ | ⟨r, -⟩
  · exact absurd he hne
  · exact (r.spec hw).priced p hp hpos rfl

theorem planRailAccruals_of_no_epochs (he : w.epochs = []) :
    planRailAccruals d w.inputs = .ok .empty := by
  simp only [World.inputs, he]
  rfl

/-- Where one run over everything plans, so does a run over what is stored. -/
theorem World.Revealed.plan_total (h : w.Revealed d lines)
    (hplan : planRailAccruals d { w with stored := [] }.inputs = .ok plan) :
    ∃ plan, planRailAccruals d w.inputs = .ok plan := by
  by_cases he : w.epochs = []
  · exact ⟨_, planRailAccruals_of_no_epochs he⟩
  · exact h.sound.plan_total h.replayed.credits (linesPriced_of_plan h.sound.batches hplan he)

/-- After a run that stored its reversals, a run over the same due lines writes nothing. -/
theorem World.Revealed.plan_again (h : w.Revealed d lines)
    (hplan : planRailAccruals d { w with stored := [] }.inputs = .ok plan) {stop : RunStop}
    (hstop : stop.storesReversals) {t : Time} (ht : w.now ≤ t)
    (hdue : ∀ b ∈ w.batches, b.status = .finalized → b.createdAt < t → b.createdAt < w.now) :
    ∃ again, planRailAccruals d { accrueRail d stop w with now := t }.inputs = .ok again ∧
      again.writes = [] := by
  by_cases he : w.epochs = []
  · exact ⟨_, planRailAccruals_of_no_epochs (by rw [accrueRail_eq]; exact he), rfl⟩
  have hprice := linesPriced_of_plan h.sound.batches hplan he
  obtain ⟨plan', hplan'⟩ := h.plan_total hplan
  obtain ⟨r, hr⟩ : ∃ r : PlanRun d w, plan'.writes = r.credits ++ r.reversals :=
    (PlanRun.of_plan hplan').resolve_left fun hno => he hno.1
  -- the later run finds no line due that this one did not
  have hlines : ∀ p ∈ dueLines { accrueRail d stop w with now := t }.inputs,
      p ∈ dueLines w.inputs := by
    intro p hp
    rw [accrueRail_eq] at hp
    obtain ⟨hfin, hlt⟩ := mem_dueLines.1 hp
    obtain ⟨hb, hf, -⟩ := mem_finalizedLines.1 hfin
    exact mem_dueLines.2 ⟨hfin, hdue _ hb hf hlt⟩
  have hs' : World.Sound d { accrueRail d stop w with now := t } :=
    (World.Step.clock t).sound (h.sound.run stop)
  have hrep' : World.Replayed d { accrueRail d stop w with now := t } :=
    (h.replayed.run h.sound stop).clock (by rw [accrueRail_eq]; exact ht)
  rcases accrueRail_of_plan h.sound hplan' hr stop with ⟨rfl, -⟩ | ⟨rfl, -⟩ | ⟨-, cs, -, e⟩
  · cases hstop
  · cases hstop
  rw [e] at hlines hs' hrep' ⊢
  obtain ⟨g, hg⟩ := claimAll_eq _ cs
  rw [hg] at hlines hs' hrep' ⊢
  obtain ⟨again, hagain⟩ := hs'.plan_total hrep'.credits
    fun p hp hpos => hprice p (hlines p hp) hpos
  refine ⟨again, hagain, hrep'.plan_nothing hs' ?_ ?_ hagain⟩
  · intro p hp hpos
    obtain ⟨⟨e, u⟩, hpr⟩ := Option.isSome_iff_exists.1 (hprice p (hlines p hp) hpos)
    obtain ⟨c, hc, hk, hkey, -⟩ := h.replayed.credit_of_due h.sound r (hlines p hp) hpos hpr
    exact ⟨_, mem_map_of_mem (mem_append_left _ hc), hk, hkey⟩
  · intro p hp c hc hk hkey
    obtain ⟨c0, hc0, rfl⟩ := mem_map.1 hc
    have hc1 := r.mem_of_credit hc0 hk
    have hfull := congrArg length
      (h.replayed.line_full h.sound r (hlines p hp) hc1 hk hkey)
    rw [length_map, length_map] at hfull
    rw [lineReversals_owners, length_map]
    exact hfull

end oneRun

/-- What incremental runs have stored is what one run over the whole history stores, up to
owners if claims were made between the runs, and a further run over the same rows writes
nothing. -/
theorem incremental_accrual_eq_one_run (d : RailDescriptor) (lines : List (Batch × LineItem))
    (claims : Bool) (w₀ w : World) (h₀ : w₀.Initial)
    (hl : ∀ p ∈ finalizedLines w₀.batches, p ∈ lines)
    (hrun : Relation.ReflTransGen (World.Reveal d lines claims) w₀ w)
    (t : Time) (ht : w.now ≤ t) (stop : RunStop) (hstop : stop.storesReversals)
    (hclaims : claims = false → stop.claimed = false)
    (plan : AccrualPlan)
    (hplan : planRailAccruals d { w with now := t, stored := [] }.inputs = .ok plan) :
    let last := accrueRail d stop { w with now := t }
    let one := accrueRail d .reversals { w with now := t, stored := [] }
    (∀ a, a ∈ last.stored.map (·.unowned) ↔ a ∈ one.stored.map (·.unowned)) ∧
    (claims = false → ∀ a, a ∈ last.stored ↔ a ∈ one.stored) ∧
    ∀ t', t ≤ t' → (∀ b ∈ w.batches, b.status = .finalized → b.createdAt < t' → b.createdAt < t) →
      ∃ again, planRailAccruals d { last with now := t' }.inputs = .ok again ∧
        again.writes = [] := by
  intro last one
  obtain ⟨hrev, howned⟩ := h₀.reveal hl hrun
  have hclock : World.Revealed d lines { w with now := t } :=
    ⟨(World.Step.clock t).sound hrev.sound, hrev.priced, hrev.lines, hrev.replayed.clock ht⟩
  obtain ⟨_, hplan'⟩ := hclock.plan_total hplan
  have hrows : ∀ a, a ∈ last.stored.map (·.unowned) ↔ a ∈ one.stored.map (·.unowned) := fun a =>
    (hclock.replayed.stored_complete hclock.sound hclock.priced hplan' hstop a).trans
      (hclock.fresh.replayed.stored_complete hclock.fresh.sound hclock.fresh.priced hplan rfl a).symm
  refine ⟨hrows, fun hcl a => ?_, fun t' ht' hsame => hclock.plan_again hplan hstop ht' hsame⟩
  have hlast : last.OwnedByLine :=
    World.OwnedByLine.run (w := { w with now := t }) (howned hcl) hclock.sound (hclaims hcl)
  have hone : one.OwnedByLine :=
    World.OwnedByLine.run (w := { w with now := t, stored := [] }) (by simp [World.OwnedByLine])
      hclock.fresh.sound rfl
  have hb : last.batches = one.batches := by
    simp only [last, one]
    rw [accrueRail_eq, accrueRail_eq d .reversals]
  constructor
  · intro ha
    obtain ⟨b, hbm, hba⟩ := mem_map.1 ((hrows _).1 (mem_map_of_mem ha))
    rw [hlast.eq_of_unowned hone hb (hclock.sound.run _) ha hbm hba.symm]
    exact hbm
  · intro ha
    obtain ⟨b, hbm, hba⟩ := mem_map.1 ((hrows _).2 (mem_map_of_mem ha))
    rw [hone.eq_of_unowned hlast hb.symm (hclock.fresh.sound.run _) ha hbm hba.symm]
    exact hbm

/-! ### A line of two events -/

def pairEvent : CreditEvent := sourceEvent 1 "0.000005"

def pairReversal : CreditEvent := reversalOf 1 "-0.000002"

def wholeRate (version : String) (n : Nat) (h : 0 < n) : RailRate :=
  ⟨version, n, 1, h, Nat.one_pos⟩

def World.rows (w : World) : List (Option Uuid × Nat × Nat) :=
  w.stored.map fun a => (a.accountId, a.awardUnits, a.railUnits)

/-- Two runs differ from one over the same rows when the event's own row arrives after its
reversal, when a second epoch observed at the same time has the smaller version, when a claim
comes between, and when the rows revealed last cannot be priced. -/
theorem incremental_accrual_differs :
    let v1 : List RateEpoch := [⟨wholeRate "v1" 1 (by decide), 50⟩]
    let two := fun (w : World) (stop : RunStop) (reveal : World → World) =>
      (accrueRail sampleRail .reversals (reveal (accrueRail sampleRail stop w))).rows
    let one := fun (w : World) (reveal : World → World) =>
      (accrueRail sampleRail .reversals (reveal w)).rows
    (let late := fun w : World => { w with events := w.events ++ [pairEvent] }
     two (pairWorld [pairReversal] v1) .reversals late = [(none, 10, 10), (none, 2, 2)] ∧
     one (pairWorld [pairReversal] v1) late = [(none, 10, 10), (none, 5, 5)]) ∧
    (let late := fun w : World =>
      { w with epochs := w.epochs ++ [⟨wholeRate "a" 2 (by decide), 150⟩] }
     two (pairWorld [] [⟨wholeRate "b" 1 (by decide), 150⟩]) .reversals late = [(none, 10, 10)] ∧
     one (pairWorld [] [⟨wholeRate "b" 1 (by decide), 150⟩]) late = [(none, 10, 20)]) ∧
    (let late := fun w : World => { w with events := w.events ++ [pairReversal] }
     two (pairWorld [pairEvent] v1) (.claims 1) late = [(some 77, 10, 10), (some 77, 5, 5)] ∧
     one (pairWorld [pairEvent] v1) late = [(none, 10, 10), (none, 5, 5)]) ∧
    (let late := fun w : World => { w with batches := w.batches ++
      [⟨10, .finalized, [3], [⟨"principal-b", "sha256:b", 16, [3], none⟩], 100⟩] }
     let v2 : List RateEpoch := [⟨wholeRate "v2" (2 ^ 124) (by decide), 50⟩]
     two (pairWorld [] v2) .reversals late = [(none, 10, 10 * 2 ^ 124)] ∧
     one (pairWorld [] v2) late = []) := by
  decide +kernel

/-- The reversal revealed between two runs is stored as one run over both rows stores it. -/
theorem incremental_accrual_eq_one_run_pair :
    let v1 : List RateEpoch := [⟨wholeRate "v1" 1 (by decide), 50⟩]
    let w : World := { accrueRail sampleRail .reversals (pairWorld [pairEvent] v1) with
      events := [pairEvent, pairReversal] }
    let last := accrueRail sampleRail .reversals { w with now := 200 }
    last.rows = [(none, 10, 10), (none, 5, 5)] ∧
    ∀ a, a ∈ last.stored ↔
      a ∈ (accrueRail sampleRail .reversals { w with now := 200, stored := [] }).stored := by
  intro v1 w last
  have hinit : (pairWorld [pairEvent] v1).Initial := pairWorld_initial (by decide)
  have hgrow : LedgerGrows [pairLine] [pairEvent] [pairEvent, pairReversal] := by
    have hnone : ledgerReversals [pairEvent] = [] := by decide
    refine ⟨by decide, by simp, ?_, ?_⟩
    · rw [hnone]; simp
    · rw [hnone]; simp
  have hreveal : Relation.ReflTransGen (World.Reveal sampleRail [pairLine] false)
      (pairWorld [pairEvent] v1) w := by
    refine .tail (.single (.run 150 (le_refl _) .reversals fun _ => rfl)) ?_
    exact .ledger _ (by rw [accrueRail_eq]; exact hgrow)
  obtain ⟨plan, hplan⟩ :
      ∃ plan, planRailAccruals sampleRail { w with now := 200, stored := [] }.inputs = .ok plan := by
    have hok : (planRailAccruals sampleRail { w with now := 200, stored := [] }.inputs).isOk := by
      decide +kernel
    cases h : planRailAccruals sampleRail { w with now := 200, stored := [] }.inputs with
    | ok plan => exact ⟨plan, rfl⟩
    | error e => rw [h] at hok; cases hok
  exact ⟨by decide +kernel,
    (incremental_accrual_eq_one_run sampleRail [pairLine] false _ w hinit (by decide) hreveal 200
      (by decide +kernel) .reversals rfl (fun _ => rfl) plan hplan).2.1 rfl⟩

end TraceCommons.Payout
