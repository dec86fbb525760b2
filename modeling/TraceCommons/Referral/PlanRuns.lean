import TraceCommons.Lib.Allot
import TraceCommons.Referral.Plan

/-! # Bonus runs over a referee's accruals

Accruals are only ever added, each run plans from them and from the rows stored so far, and its
rows are stored or, when a void came between, dropped. Every stored reversal is the floored share
of its own accrual at the rate of its line's bonus row, which decides what the rows of a line sum
to. -/

namespace TraceCommons.Referral

open Payout List

/-! ## Floored shares -/

theorem bonusUnits_mono {x y : Nat} (h : x ≤ y) (bps : Nat) :
    bonusUnits x bps ≤ bonusUnits y bps := by
  rw [bonusUnits_eq, bonusUnits_eq]
  exact Nat.div_le_div_right (Nat.mul_le_mul_right _ h)

/-- Floors sum to at most the floor of the sum. -/
theorem bonusUnits_add_le (x y bps : Nat) :
    bonusUnits x bps + bonusUnits y bps ≤ bonusUnits (x + y) bps := by
  simp only [bonusUnits_eq, Nat.add_mul]
  exact Nat.div_add_div_le_add_div

theorem bonusUnits_add_lt (x y bps : Nat) :
    bonusUnits (x + y) bps ≤ bonusUnits x bps + bonusUnits y bps + 1 := by
  simp only [bonusUnits_eq, Nat.add_mul]
  omega

variable {α : Type} (f : α → Nat) (bps : Nat)

theorem sum_bonusUnits_le (l : List α) :
    (l.map fun a => bonusUnits (f a) bps).sum ≤ bonusUnits (l.map f).sum bps := by
  induction l with
  | nil => exact Nat.zero_le _
  | cons a l ih =>
    exact (Nat.add_le_add_left ih _).trans (bonusUnits_add_le _ _ _)

/-- They fall short of it by less than their number. -/
theorem bonusUnits_sum_lt {l : List α} (hl : l ≠ []) :
    bonusUnits (l.map f).sum bps < (l.map fun a => bonusUnits (f a) bps).sum + l.length := by
  induction l with
  | nil => exact absurd rfl hl
  | cons a l ih =>
    simp only [map_cons, sum_cons, length_cons]
    cases l with
    | nil => simp
    | cons b l =>
      have := ih (cons_ne_nil b l)
      have := bonusUnits_add_lt (f a) ((b :: l).map f).sum bps
      omega

/-! ## The tables -/

/-- What the tables promise of accruals: unique ids, one credit a line, amounts in range, and a
line's reversals within its credit. -/
structure WellAccrued (accruals : List ReferralRefereeAccrual) : Prop where
  ids : (accruals.map (·.accrualId)).Nodup
  credits : ∀ a ∈ accruals, ∀ b ∈ accruals, a.kind = .credit → b.kind = .credit →
    a.line = b.line → a = b
  bound : ∀ a ∈ accruals, a.railUnits < 2 ^ 128
  reversed : ∀ c ∈ accruals, c.kind = .credit →
    ((accruals.filter fun a => a.kind = .reversal && a.line = c.line).map (·.railUnits)).sum ≤
      c.railUnits

/-- Every stored row is the share of its source at its line's rate. -/
structure RowsInv (accruals : List ReferralRefereeAccrual) (rows : List ReferralBonusRecord) :
    Prop where
  bonus : ∀ r ∈ rows, r.kind = .bonus → ∃ c ∈ accruals, c.kind = .credit ∧
    r.sourceAccrualId = some c.accrualId ∧ 0 < c.railUnits ∧
    r.bonusUnits = bonusUnits c.railUnits r.bps
  reversal : ∀ r ∈ rows, r.kind = .reversal → ∃ a ∈ accruals, a.kind = .reversal ∧
    r.sourceAccrualId = some a.accrualId ∧ r.baseUnits = a.railUnits ∧
    r.bonusUnits = bonusUnits r.baseUnits r.bps ∧
    ∃ c ∈ accruals, c.kind = .credit ∧ c.line = a.line ∧
      ∃ b ∈ rows, b.kind = .bonus ∧ b.sourceAccrualId = some c.accrualId ∧ b.bps = r.bps
  voids : ∀ r ∈ rows, r.kind = .void → r.sourceAccrualId = none
  sources : (rows.filterMap (·.sourceAccrualId)).Nodup

theorem RowsInv.mono {accruals accruals' : List ReferralRefereeAccrual}
    {rows : List ReferralBonusRecord} (hr : RowsInv accruals rows)
    (hsub : ∀ a ∈ accruals, a ∈ accruals') : RowsInv accruals' rows where
  bonus r hr' hk := by
    obtain ⟨c, hc, h⟩ := hr.bonus r hr' hk
    exact ⟨c, hsub c hc, h⟩
  reversal r hr' hk := by
    obtain ⟨a, ha, hak, hs, hb, hu, c, hc, h⟩ := hr.reversal r hr' hk
    exact ⟨a, hsub a ha, hak, hs, hb, hu, c, hsub c hc, h⟩
  voids := hr.voids
  sources := hr.sources

theorem RowsInv.append {accruals : List ReferralRefereeAccrual} {rows : List ReferralBonusRecord}
    {r : ReferralBonusRecord} (h : RowsInv accruals rows)
    (hbonus : r.kind = .bonus → ∃ c ∈ accruals, c.kind = .credit ∧
      r.sourceAccrualId = some c.accrualId ∧ 0 < c.railUnits ∧
      r.bonusUnits = bonusUnits c.railUnits r.bps)
    (hreversal : r.kind = .reversal → ∃ a ∈ accruals, a.kind = .reversal ∧
      r.sourceAccrualId = some a.accrualId ∧ r.baseUnits = a.railUnits ∧
      r.bonusUnits = bonusUnits r.baseUnits r.bps ∧
      ∃ c ∈ accruals, c.kind = .credit ∧ c.line = a.line ∧
        ∃ b ∈ rows, b.kind = .bonus ∧ b.sourceAccrualId = some c.accrualId ∧ b.bps = r.bps)
    (hvoid : r.kind = .void → r.sourceAccrualId = none)
    (hsources : ((rows ++ [r]).filterMap (·.sourceAccrualId)).Nodup) :
    RowsInv accruals (rows ++ [r]) where
  bonus := forall_mem_append.2 ⟨h.bonus, forall_mem_singleton.2 hbonus⟩
  reversal := by
    intro x hx hk
    have hrow := forall_mem_append.2 ⟨h.reversal, forall_mem_singleton.2 hreversal⟩ x hx hk
    obtain ⟨a, ha, hak, hs, hb, hu, c, hc, hck, hl, b, hb', h⟩ := hrow
    exact ⟨a, ha, hak, hs, hb, hu, c, hc, hck, hl, b, mem_append_left _ hb', h⟩
  voids := forall_mem_append.2 ⟨h.voids, forall_mem_singleton.2 hvoid⟩
  sources := hsources

section lookups

variable {accruals : List ReferralRefereeAccrual} {rows : List ReferralBonusRecord}
  {a c : ReferralRefereeAccrual} {r b : ReferralBonusRecord} {id : Uuid}

theorem WellAccrued.ext (hw : WellAccrued accruals) (ha : a ∈ accruals) (hc : c ∈ accruals)
    (hid : a.accrualId = c.accrualId) : a = c :=
  inj_on_of_nodup_map hw.ids ha hc hid

/-- The last of a list whose members are all one value. -/
theorem getLast?_eq_some_of_forall {β : Type} {l : List β} {x : β} (hx : x ∈ l)
    (hall : ∀ y ∈ l, y = x) : l.getLast? = some x := by
  obtain ⟨y, hy⟩ := Option.ne_none_iff_exists'.1
    fun h => ne_nil_of_mem hx (getLast?_eq_none_iff.1 h)
  rw [hy, hall y (mem_of_getLast? hy)]

theorem WellAccrued.accrualById (hw : WellAccrued accruals) (ha : a ∈ accruals) :
    accrualById accruals a.accrualId = some a := by
  refine getLast?_eq_some_of_forall (mem_filter.2 ⟨ha, decide_eq_true rfl⟩) fun y hy => ?_
  obtain ⟨hy, hid⟩ := mem_filter.1 hy
  exact hw.ext hy ha (of_decide_eq_true hid)

theorem WellAccrued.creditOfLine (hw : WellAccrued accruals) (hc : c ∈ accruals)
    (hk : c.kind = .credit) : creditOfLine accruals c.line = some c.accrualId := by
  have hlast := getLast?_eq_some_of_forall
    (l := accruals.filter fun a => a.kind = .credit && a.line = c.line) (x := c)
    (mem_filter.2 ⟨hc, by simp [hk]⟩) fun y hy => by
      simp only [mem_filter, Bool.and_eq_true, decide_eq_true_eq] at hy
      exact hw.credits y hy.1 c hc hy.2.1 hk hy.2.2
  rw [Referral.creditOfLine, hlast]
  rfl

variable {line : Uuid × String}

theorem creditOfLine_eq_some (h : creditOfLine accruals line = some id) :
    ∃ c ∈ accruals, c.kind = .credit ∧ c.line = line ∧ c.accrualId = id := by
  obtain ⟨c, hc, rfl⟩ := Option.map_eq_some_iff.1 h
  have := mem_of_getLast? hc
  simp only [mem_filter, Bool.and_eq_true, decide_eq_true_eq] at this
  exact ⟨c, this.1, this.2.1, this.2.2, rfl⟩

theorem RowsInv.ext (hr : RowsInv accruals rows) (hmem : r ∈ rows) (hb : b ∈ rows)
    (hrs : r.sourceAccrualId = some id) (hbs : b.sourceAccrualId = some id) : r = b := by
  have hr' : r ∈ rows.filter (·.sourceAccrualId = some id) := mem_filter.2 ⟨hmem, by simpa⟩
  have hb' : b ∈ rows.filter (·.sourceAccrualId = some id) := mem_filter.2 ⟨hb, by simpa⟩
  obtain h | ⟨x, -, -, h⟩ := Allot.filter_key_cases
    _ hr.sources id
  · rw [h] at hr'
    cases hr'
  · rw [h, mem_singleton] at hr' hb'
    rw [hr', hb']

theorem bonusOfCredit_eq_some {bps units : Nat} (h : bonusOfCredit rows id = some (bps, units)) :
    ∃ b ∈ rows, b.kind = .bonus ∧ b.sourceAccrualId = some id ∧ b.bps = bps ∧
      b.bonusUnits = units := by
  obtain ⟨b, hb, he⟩ := Option.map_eq_some_iff.1 h
  have := mem_of_getLast? hb
  simp only [mem_filter, Bool.and_eq_true, decide_eq_true_eq] at this
  exact ⟨b, this.1, this.2.1, this.2.2, congrArg Prod.fst he, congrArg Prod.snd he⟩

/-! ## What the reversals of a line sum to -/

def lineRows (accruals : List ReferralRefereeAccrual) (rows : List ReferralBonusRecord)
    (line : Uuid × String) : List ReferralBonusRecord :=
  rows.filter fun r => r.kind = .reversal &&
    (r.sourceAccrualId.bind (accrualById accruals)).any (·.line = line)

def lineReversals (accruals : List ReferralRefereeAccrual) (line : Uuid × String) :
    List ReferralRefereeAccrual :=
  accruals.filter fun a => a.kind = .reversal && a.line = line

theorem mem_lineReversals : a ∈ lineReversals accruals line ↔
    a ∈ accruals ∧ a.kind = .reversal ∧ a.line = line := by
  simp [lineReversals]

theorem mem_lineRows (hw : WellAccrued accruals) (hr : RowsInv accruals rows) :
    r ∈ lineRows accruals rows line ↔ r ∈ rows ∧ r.kind = .reversal ∧
      ∃ a ∈ lineReversals accruals line, r.sourceAccrualId = some a.accrualId := by
  simp only [lineRows, mem_filter, Bool.and_eq_true, decide_eq_true_eq]
  refine and_congr_right fun hmem => and_congr_right fun hk => ?_
  obtain ⟨a, ha, hak, hs, -⟩ := hr.reversal r hmem hk
  rw [hs, Option.bind_some, hw.accrualById ha, Option.any_some, decide_eq_true_eq]
  constructor
  · exact fun hline => ⟨a, mem_lineReversals.2 ⟨ha, hak, hline⟩, rfl⟩
  rintro ⟨a', ha', he⟩
  obtain ⟨hmem', -, hline⟩ := mem_lineReversals.1 ha'
  rw [hw.ext ha hmem' (Option.some.inj he)]
  exact hline

def pricedUnits (rows : List ReferralBonusRecord) (a : ReferralRefereeAccrual) : Nat :=
  if rows.any (·.sourceAccrualId = some a.accrualId) then a.railUnits else 0

theorem sum_lineRows (hw : WellAccrued accruals) (hr : RowsInv accruals rows)
    (line : Uuid × String) : ((lineRows accruals rows line).map (·.baseUnits)).sum =
      ((lineReversals accruals line).map (pricedUnits rows)).sum := by
  have hkeys : ((lineReversals accruals line).map fun a => some a.accrualId).Nodup := by
    have hids : ((lineReversals accruals line).map (·.accrualId)).Nodup :=
      hw.ids.sublist (filter_sublist.map _)
    simpa [Function.comp_def] using hids.map (Option.some_injective _)
  rw [← Allot.sum_by_key _ _ hkeys fun r hr' => by
    obtain ⟨-, -, a, ha, hs⟩ := (mem_lineRows hw hr).1 hr'
    exact mem_map.2 ⟨a, ha, hs.symm⟩, map_map]
  refine congrArg sum (map_congr_left fun a ha => ?_)
  -- The rows of one accrual: none, or the one that prices it.
  obtain ⟨hmem, hak, hline⟩ := mem_lineReversals.1 ha
  have hkind : ∀ r ∈ rows, r.sourceAccrualId = some a.accrualId → r.kind = .reversal := by
    intro r hr' hs
    cases hk : r.kind with
    | bonus =>
      obtain ⟨c, hc, hck, hcs, -⟩ := hr.bonus r hr' hk
      have := hw.ext hmem hc (Option.some.inj (hs.symm.trans hcs))
      simp [this, hck] at hak
    | reversal => rfl
    | void => simp [hr.voids r hr' hk] at hs
  have hsub : (lineRows accruals rows line).filter (·.sourceAccrualId = some a.accrualId) =
      rows.filter (·.sourceAccrualId = some a.accrualId) := by
    rw [lineRows, filter_filter]
    refine filter_congr fun r hr' => ?_
    by_cases hs : r.sourceAccrualId = some a.accrualId
    · simp [hs, hkind r hr' hs, hw.accrualById hmem, hline]
    · simp [hs]
  simp only [Function.comp_apply, hsub, pricedUnits]
  obtain h | ⟨r, hr', hs, h⟩ := Allot.filter_key_cases
    _ hr.sources _
  · have hany : rows.any (·.sourceAccrualId = some a.accrualId) = false := by
      rw [any_eq_false]
      exact filter_eq_nil_iff.1 h
    simp [h, hany]
  · have hany : rows.any (·.sourceAccrualId = some a.accrualId) := by
      rw [any_eq_true]
      exact ⟨r, hr', by simpa⟩
    obtain ⟨a', ha', -, hs', hbase, -⟩ := hr.reversal r hr' (hkind r hr' hs)
    rw [h, if_pos hany, hw.ext hmem ha' (Option.some.inj (hs.symm.trans hs'))]
    simp [hbase]

theorem pricedUnits_le (rows : List ReferralBonusRecord) (a : ReferralRefereeAccrual) :
    pricedUnits rows a ≤ a.railUnits := by
  unfold pricedUnits
  split
  · exact le_rfl
  · exact Nat.zero_le _

section line

variable (hw : WellAccrued accruals) (hr : RowsInv accruals rows) (hc : c ∈ accruals)
  (hk : c.kind = .credit) (hb : b ∈ rows) (hbk : b.kind = .bonus)
  (hbs : b.sourceAccrualId = some c.accrualId)

include hw hr hc hk hb hbs

/-- The stored reversals of a line have the rate of its bonus row. -/
theorem RowsInv.line_bps (hmem : r ∈ lineRows accruals rows c.line) :
    r.bps = b.bps ∧ r.bonusUnits = bonusUnits r.baseUnits b.bps := by
  obtain ⟨hr', hrk, a, ha, hs⟩ := (mem_lineRows hw hr).1 hmem
  obtain ⟨ha', -, hline⟩ := mem_lineReversals.1 ha
  obtain ⟨a1, ha1, -, hs1, -, hunits, c1, hc1, hk1, hline1, b1, hb1, -, hbs1, hbps⟩ :=
    hr.reversal r hr' hrk
  obtain rfl := hw.ext ha' ha1 (Option.some.inj (hs.symm.trans hs1))
  obtain rfl := hw.credits c hc c1 hc1 hk hk1 (hline.symm.trans hline1.symm)
  obtain rfl := hr.ext hb hb1 hbs hbs1
  exact ⟨hbps.symm, by rw [hunits, hbps]⟩

theorem RowsInv.sum_line : ((lineRows accruals rows c.line).map (·.bonusUnits)).sum =
    ((lineRows accruals rows c.line).map fun r => bonusUnits r.baseUnits b.bps).sum :=
  congrArg sum (map_congr_left fun _ hmem =>
    (hr.line_bps hw hc hk hb hbs hmem).2)

include hbk

omit hk in
theorem RowsInv.bonus_units :
    0 < c.railUnits ∧ b.bonusUnits = bonusUnits c.railUnits b.bps := by
  obtain ⟨c1, hc1, -, hs1, hpos, hunits⟩ := hr.bonus b hb hbk
  obtain rfl := hw.ext hc hc1 (Option.some.inj (hbs.symm.trans hs1))
  exact ⟨hpos, hunits⟩

/-- The reversals of a line take at most its bonus, an unpriced one included. -/
theorem RowsInv.line_le (ha : a ∈ lineReversals accruals c.line)
    (hnew : rows.any (·.sourceAccrualId = some a.accrualId) = false) :
    ((lineRows accruals rows c.line).map (·.bonusUnits)).sum + bonusUnits a.railUnits b.bps ≤
      b.bonusUnits := by
  have hbase : ((lineRows accruals rows c.line).map (·.baseUnits)).sum + a.railUnits ≤
      c.railUnits := by
    refine le_trans ?_ (hw.reversed c hc hk)
    rw [sum_lineRows hw hr]
    change ((lineReversals accruals c.line).map (pricedUnits rows)).sum + a.railUnits ≤
      ((lineReversals accruals c.line).map (·.railUnits)).sum
    have hperm := perm_cons_erase ha
    rw [(hperm.map _).sum_eq, (hperm.map ReferralRefereeAccrual.railUnits).sum_eq, map_cons,
      map_cons, sum_cons, sum_cons, pricedUnits, hnew]
    have := sum_le_sum (l := (lineReversals accruals c.line).erase a)
      fun x _ => pricedUnits_le rows x
    simp only [Bool.false_eq_true, if_false]
    omega
  rw [hr.sum_line hw hc hk hb hbs, (hr.bonus_units hw hc hb hbk hbs).2]
  calc _ ≤ bonusUnits ((lineRows accruals rows c.line).map (·.baseUnits)).sum b.bps +
        bonusUnits a.railUnits b.bps := Nat.add_le_add_right (sum_bonusUnits_le _ _ _) _
    _ ≤ _ := (bonusUnits_add_le _ _ _).trans (bonusUnits_mono hbase _)

theorem RowsInv.line_sum_le :
    ((lineRows accruals rows c.line).map (·.bonusUnits)).sum ≤ b.bonusUnits := by
  rw [hr.sum_line hw hc hk hb hbs, (hr.bonus_units hw hc hb hbk hbs).2]
  refine (sum_bonusUnits_le _ _ _).trans (bonusUnits_mono ?_ _)
  rw [sum_lineRows hw hr]
  exact (sum_le_sum fun x _ => pricedUnits_le _ x).trans (hw.reversed c hc hk)

/-- When all of a credit is reversed and priced, less is left of its bonus than it has reversal
rows. -/
theorem RowsInv.line_left
    (hall : ((lineReversals accruals c.line).map (·.railUnits)).sum = c.railUnits)
    (hpriced : ∀ a ∈ lineReversals accruals c.line, 0 < a.railUnits →
      ∃ r ∈ rows, r.sourceAccrualId = some a.accrualId) :
    b.bonusUnits < ((lineRows accruals rows c.line).map (·.bonusUnits)).sum +
      (lineRows accruals rows c.line).length := by
  obtain ⟨hpos, hunits⟩ := hr.bonus_units hw hc hb hbk hbs
  have hbase : ((lineRows accruals rows c.line).map (·.baseUnits)).sum = c.railUnits := by
    rw [sum_lineRows hw hr, ← hall]
    refine congrArg sum (map_congr_left fun a ha => ?_)
    unfold pricedUnits
    split
    · rfl
    rename_i hno
    refine (Nat.eq_zero_of_not_pos fun hpos => hno ?_).symm
    obtain ⟨r, hr', hs⟩ := hpriced a ha hpos
    exact any_eq_true.2 ⟨r, hr', by simpa⟩
  have hne : lineRows accruals rows c.line ≠ [] := by
    intro h
    rw [h] at hbase
    exact hpos.ne hbase
  rw [hr.sum_line hw hc hk hb hbs, hunits, ← hbase]
  exact bonusUnits_sum_lt _ _ hne

end line

end lookups

/-! ## The maps of a plan -/

section maps

variable {accruals : List ReferralRefereeAccrual} {rows : List ReferralBonusRecord}
  {r : ReferralBonusRecord} {id : Uuid}

theorem bonusOfCredit_append_bonus (hk : r.kind = .bonus) (hs : r.sourceAccrualId = some id) :
    bonusOfCredit (rows ++ [r]) =
      Function.update (bonusOfCredit rows) id (some (r.bps, r.bonusUnits)) := by
  funext c
  by_cases hc : c = id
  · subst hc
    simp [bonusOfCredit, hk, hs]
  · simp [bonusOfCredit, hs, hc, Ne.symm hc]

theorem bonusOfCredit_append_other (hk : r.kind ≠ .bonus) :
    bonusOfCredit (rows ++ [r]) = bonusOfCredit rows := by
  funext c
  simp [bonusOfCredit, hk]

theorem takenBack_append_other (hk : r.kind ≠ .reversal) :
    takenBack accruals (rows ++ [r]) = takenBack accruals rows := by
  funext c
  simp [takenBack, hk]

theorem takenBack_append_reversal (hk : r.kind = .reversal)
    (hc : creditOfReversal accruals r = some id) :
    takenBack accruals (rows ++ [r]) = Function.update (takenBack accruals rows) id
      (saturatingAdd 128 (takenBack accruals rows id) r.bonusUnits) := by
  funext c
  by_cases he : c = id
  · subst he
    simp [takenBack, hk, hc]
  · simp [takenBack, hc, he, Ne.symm he]

theorem foldl_saturatingAdd_le (l : List ReferralBonusRecord) (n : Nat) :
    l.foldl (fun taken r => saturatingAdd 128 taken r.bonusUnits) n ≤
      n + (l.map (·.bonusUnits)).sum := by
  induction l generalizing n with
  | nil => exact le_rfl
  | cons r l ih =>
    refine (ih _).trans ?_
    rw [map_cons, sum_cons, ← Nat.add_assoc]
    exact Nat.add_le_add_right (min_le_left _ _) _

/-- The reversals charged to a credit are those of its line. -/
theorem takenBack_le (hw : WellAccrued accruals) {c : ReferralRefereeAccrual} (hc : c ∈ accruals)
    (hk : c.kind = .credit) : takenBack accruals rows c.accrualId ≤
      ((lineRows accruals rows c.line).map (·.bonusUnits)).sum := by
  have hfilter : (rows.filter fun r => r.kind = .reversal &&
      creditOfReversal accruals r = some c.accrualId) = lineRows accruals rows c.line := by
    refine filter_congr fun r _ => ?_
    congr 1
    have hbind : creditOfReversal accruals r = (r.sourceAccrualId.bind (accrualById accruals)).bind
        fun a => creditOfLine accruals a.line := (Option.bind_assoc _ _ _).symm
    rw [hbind]
    cases r.sourceAccrualId.bind _ with
    | none => rfl
    | some a =>
      rw [Option.bind_some]
      refine decide_eq_decide.2 ⟨fun h => ?_, fun h => h ▸ hw.creditOfLine hc hk⟩
      obtain ⟨c', hc', -, hline, hid⟩ := creditOfLine_eq_some h
      rw [← hline, hw.ext hc' hc hid]
  rw [takenBack, hfilter]
  exact (foldl_saturatingAdd_le _ _).trans (Nat.zero_add _).le

end maps

/-! ## One run -/

def ReferralBonusWrite.record (w : ReferralBonusWrite) : ReferralBonusRecord :=
  ⟨w.kind, w.sourceAccrualId, w.bps, w.baseUnits, w.bonusUnits⟩

/-- Only skips differ. -/
structure Planning.Same (s s' : Planning) : Prop where
  writes : s'.writes = s.writes
  bonusOf : s'.bonusOf = s.bonusOf
  taken : s'.taken = s.taken

namespace BonusInputs

variable {inp : BonusInputs} {s : Planning} {a : ReferralRefereeAccrual}

/-- The rows once the plan so far is stored. -/
def rowsAfter (inp : BonusInputs) (s : Planning) : List ReferralBonusRecord :=
  inp.existing ++ s.writes.map ReferralBonusWrite.record

def pricedAfter (inp : BonusInputs) (s : Planning) (id : Uuid) : Prop :=
  ∃ r ∈ inp.rowsAfter s, r.sourceAccrualId = some id

/-- A credit a run has nothing to write for, whatever rows there are. -/
def NoBonus (inp : BonusInputs) (a : ReferralRefereeAccrual) : Prop :=
  a.accountId = some inp.attribution.accountId → inp.creditRefusal a ≠ none

theorem planCredit_cases (inp : BonusInputs) (s : Planning) (a : ReferralRefereeAccrual) :
    (s.Same (inp.planCredit s a) ∧ (inp.NoBonus a ∨ inp.priced a.accrualId)) ∨
    (¬inp.NoBonus a ∧ inp.priced a.accrualId = false ∧ 0 < a.railUnits ∧
      inp.planCredit s a = { s with
        writes := s.writes ++ [inp.write a .bonus inp.bps (bonusUnits a.railUnits inp.bps)]
        bonusOf := Function.update s.bonusOf a.accrualId
          (some (inp.bps, bonusUnits a.railUnits inp.bps)) }) := by
  unfold planCredit NoBonus
  split
  next hnone => exact .inl ⟨⟨rfl, rfl, rfl⟩, .inl fun h => by simp [hnone] at h⟩
  rename_i owner howner
  split
  next hne =>
    refine .inl ⟨⟨rfl, rfl, rfl⟩, .inl fun h => ?_⟩
    exact absurd (Option.some.inj (howner.symm.trans h)) hne
  next heq =>
    split
    next hp => exact .inl ⟨⟨rfl, rfl, rfl⟩, .inr hp⟩
    next hp =>
    split
    next label hlabel => exact .inl ⟨⟨rfl, rfl, rfl⟩, .inl fun _ => by simp [hlabel]⟩
    rename_i hok
    refine .inr ⟨fun h => h (by rw [howner, not_not.1 heq]) hok, by simpa using hp, ?_, rfl⟩
    simp only [creditRefusal] at hok
    split at hok
    · cases hok
    split at hok
    · cases hok
    split at hok
    · cases hok
    next hpos => exact Nat.pos_of_ne_zero hpos

/-- A reversal a run has nothing to write for once it has the bonuses `bonusOf`. -/
def NoReversal (inp : BonusInputs) (bonusOf : Uuid → Option (Nat × Nat))
    (a : ReferralRefereeAccrual) : Prop :=
  a.accountId = some inp.attribution.accountId → a.railUnits ≠ 0 →
    (creditOfLine inp.accruals a.line).bind bonusOf = none

theorem planReversal_cases (inp : BonusInputs) (s : Planning) (a : ReferralRefereeAccrual) :
    (s.Same (inp.planReversal s a) ∧ (inp.NoReversal s.bonusOf a ∨ inp.priced a.accrualId)) ∨
    (¬inp.NoReversal s.bonusOf a ∧ inp.priced a.accrualId = false ∧ ∃ credit bps creditBonus,
      creditOfLine inp.accruals a.line = some credit ∧
      s.bonusOf credit = some (bps, creditBonus) ∧
      inp.planReversal s a = { s with
        writes := s.writes ++ [inp.write a .reversal bps
          (min (bonusUnits a.railUnits bps) (creditBonus - s.taken credit))]
        taken := Function.update s.taken credit (saturatingAdd 128 (s.taken credit)
          (min (bonusUnits a.railUnits bps) (creditBonus - s.taken credit))) }) := by
  unfold planReversal NoReversal
  split
  next hne => exact .inl ⟨⟨rfl, rfl, rfl⟩, .inl fun h => absurd h hne⟩
  rename_i heq
  split
  next hp => exact .inl ⟨⟨rfl, rfl, rfl⟩, .inr hp⟩
  next hp =>
  split
  next hnone =>
    refine .inl ⟨⟨rfl, rfl, rfl⟩, .inl fun _ _ => ?_⟩
    cases hc : creditOfLine _ _ with
    | none => rfl
    | some c => simpa [hc] using hnone
  next credit bps creditBonus hsome =>
    obtain ⟨c, hc, hb⟩ := Option.bind_eq_some_iff.1 hsome
    obtain ⟨x, hx, he⟩ := Option.map_eq_some_iff.1 hb
    cases he
    split
    next hz => exact .inl ⟨⟨rfl, rfl, rfl⟩, .inl fun _ h => absurd hz h⟩
    next hz =>
      refine .inr ⟨fun h => ?_, by simpa using hp, credit, bps, creditBonus, hc, hx, rfl⟩
      simpa [hc, hx] using h (not_not.1 heq) hz

/-- The plan's maps are those of the rows it would leave, and the rows are sound. -/
structure PlanInv (inp : BonusInputs) (s : Planning) : Prop where
  rows : RowsInv inp.accruals (inp.rowsAfter s)
  bonusOf : s.bonusOf = bonusOfCredit (inp.rowsAfter s)
  taken : s.taken = takenBack inp.accruals (inp.rowsAfter s)

theorem PlanInv.start (hr : RowsInv inp.accruals inp.existing) : inp.PlanInv inp.start :=
  ⟨by simpa [rowsAfter, BonusInputs.start] using hr, by simp [rowsAfter, BonusInputs.start],
    by simp [rowsAfter, BonusInputs.start]⟩

theorem PlanInv.same (hi : inp.PlanInv s) {s' : Planning} (hs : s.Same s') : inp.PlanInv s' := by
  have hrows : inp.rowsAfter s' = inp.rowsAfter s := by simp [rowsAfter, hs.writes]
  exact ⟨hrows ▸ hi.rows, hs.bonusOf.trans (hrows ▸ hi.bonusOf), hs.taken.trans (hrows ▸ hi.taken)⟩

theorem rowsAfter_append {w : ReferralBonusWrite} {bonusOf : Uuid → Option (Nat × Nat)}
    {taken : Uuid → Nat} {skipped : List String} :
    inp.rowsAfter ⟨s.writes ++ [w], skipped, bonusOf, taken⟩ = inp.rowsAfter s ++ [w.record] := by
  simp [rowsAfter]

/-- One more row with a source no row has. -/
theorem sources_append {rows : List ReferralBonusRecord} {r : ReferralBonusRecord} {id : Uuid}
    (hn : (rows.filterMap (·.sourceAccrualId)).Nodup) (hs : r.sourceAccrualId = some id)
    (hnew : ¬∃ x ∈ rows, x.sourceAccrualId = some id) :
    ((rows ++ [r]).filterMap (·.sourceAccrualId)).Nodup := by
  have hnot : id ∉ rows.filterMap (·.sourceAccrualId) := fun h => hnew (mem_filterMap.1 h)
  simpa [hs, nodup_append, hn] using
    fun x hx (he : x = id) => hnot (he ▸ hx)

theorem not_pricedAfter {id : Uuid} (hp : inp.priced id = false)
    (hnew : ∀ w ∈ s.writes, w.sourceAccrualId ≠ some id) : ¬inp.pricedAfter s id := by
  rintro ⟨r, hr, hs⟩
  rcases mem_append.1 hr with hr | hr
  · rw [priced, any_eq_false] at hp
    exact hp r hr (decide_eq_true hs)
  · obtain ⟨w, hw, rfl⟩ := mem_map.1 hr
    exact hnew w hw hs

theorem PlanInv.planCredit (hi : inp.PlanInv s) (ha : a ∈ inp.accruals) (hk : a.kind = .credit)
    (hnew : ∀ w ∈ s.writes, w.sourceAccrualId ≠ some a.accrualId) :
    inp.PlanInv (inp.planCredit s a) := by
  obtain ⟨hsame, -⟩ | ⟨-, hp, hpos, hplan⟩ := inp.planCredit_cases s a
  · exact hi.same hsame
  have hnew := not_pricedAfter hp hnew
  rw [hplan]
  refine ⟨?_, ?_, ?_⟩
  · rw [rowsAfter_append]
    exact hi.rows.append (fun _ => ⟨a, ha, hk, rfl, hpos, rfl⟩) nofun nofun
      (sources_append hi.rows.sources rfl hnew)
  · rw [rowsAfter_append, bonusOfCredit_append_bonus rfl rfl, ← hi.bonusOf]
    rfl
  · rw [rowsAfter_append, takenBack_append_other (by simp [ReferralBonusWrite.record, write])]
    exact hi.taken

section

variable (hw : WellAccrued inp.accruals)

include hw

/-- The cap never binds: what the line's reversals have taken leaves room for one more share. -/
theorem PlanInv.cap (hi : inp.PlanInv s) (ha : a ∈ inp.accruals)
    (hk : a.kind = .reversal) (hnew : ¬inp.pricedAfter s a.accrualId) {credit : Uuid}
    {bps creditBonus : Nat} (hc : creditOfLine inp.accruals a.line = some credit)
    (hb : s.bonusOf credit = some (bps, creditBonus)) :
    min (bonusUnits a.railUnits bps) (creditBonus - s.taken credit) =
      bonusUnits a.railUnits bps ∧
    ∃ c ∈ inp.accruals, c.kind = .credit ∧ c.line = a.line ∧
      ∃ b ∈ inp.rowsAfter s, b.kind = .bonus ∧ b.sourceAccrualId = some c.accrualId ∧
        b.bps = bps := by
  obtain ⟨c, hc', hck, hline, rfl⟩ := creditOfLine_eq_some hc
  rw [hi.bonusOf] at hb
  obtain ⟨b, hb', hbk, hbs, rfl, _⟩ := bonusOfCredit_eq_some hb
  refine ⟨min_eq_left ?_, c, hc', hck, hline, b, hb', hbk, hbs, rfl⟩
  have hfit := hi.rows.line_le hw hc' hck hb' hbk hbs
    (mem_lineReversals.2 ⟨ha, hk, hline.symm⟩) (by
      rw [any_eq_false]
      exact fun x hx hs => hnew ⟨x, hx, of_decide_eq_true hs⟩)
  have htaken := @takenBack_le _ (inp.rowsAfter s) hw _ hc' hck
  rw [hi.taken]
  omega

theorem PlanInv.planReversal (hi : inp.PlanInv s) (ha : a ∈ inp.accruals) (hk : a.kind = .reversal)
    (hnew : ∀ w ∈ s.writes, w.sourceAccrualId ≠ some a.accrualId) :
    inp.PlanInv (inp.planReversal s a) := by
  obtain ⟨hsame, -⟩ | ⟨-, hp, credit, bps, _, hc, hb, hplan⟩ :=
    inp.planReversal_cases s a
  · exact hi.same hsame
  have hnew := not_pricedAfter hp hnew
  obtain ⟨hcap, hline⟩ := hi.cap hw ha hk hnew hc hb
  rw [hplan, hcap]
  refine ⟨?_, ?_, ?_⟩
  · rw [rowsAfter_append]
    exact hi.rows.append nofun (fun _ => ⟨a, ha, hk, rfl, rfl, rfl, hline⟩) nofun
      (sources_append hi.rows.sources rfl hnew)
  · rw [rowsAfter_append, bonusOfCredit_append_other (by simp [ReferralBonusWrite.record, write])]
    exact hi.bonusOf
  · have hcredit : creditOfReversal inp.accruals
        (inp.write a .reversal bps (bonusUnits a.railUnits bps)).record = some credit := by
      simp [creditOfReversal, ReferralBonusWrite.record, write, hw.accrualById ha, hc]
    rw [rowsAfter_append, takenBack_append_reversal rfl hcredit, ← hi.taken]
    rfl

/-- What a loop over accruals leaves: sound maps, rows only for accruals it went over, and every
one of them either priced or, for a reason `Q` that lasts, not to be priced. -/
structure LoopDone (inp : BonusInputs) (l : List ReferralRefereeAccrual) (s s' : Planning)
    (Q : ReferralRefereeAccrual → Prop) : Prop where
  inv : inp.PlanInv s'
  kept : ∀ w ∈ s.writes, w ∈ s'.writes
  added : ∀ w ∈ s'.writes, w ∈ s.writes ∨ ∃ a ∈ l, w.sourceAccrualId = some a.accrualId
  done : ∀ a ∈ l, Q a ∨ inp.pricedAfter s' a.accrualId

omit hw in
theorem pricedAfter_mono {s' : Planning} (hkept : ∀ w ∈ s.writes, w ∈ s'.writes) {id : Uuid}
    (hp : inp.pricedAfter s id) : inp.pricedAfter s' id := by
  obtain ⟨r, hr, hs⟩ := hp
  refine ⟨r, ?_, hs⟩
  rcases mem_append.1 hr with hr | hr
  · exact mem_append_left _ hr
  · obtain ⟨w, hw, rfl⟩ := mem_map.1 hr
    exact mem_append_right _ (mem_map_of_mem (hkept w hw))

omit hw in
theorem pricedAfter_of_priced {id : Uuid} (hp : inp.priced id) : inp.pricedAfter s id := by
  obtain ⟨r, hr, hs⟩ := any_eq_true.1 hp
  exact ⟨r, mem_append_left _ hr, of_decide_eq_true hs⟩

omit hw in
/-- A step that only skips, or adds a row for its accrual. -/
theorem LoopDone.of_step {s' : Planning} {Q : ReferralRefereeAccrual → Prop} (hinv : inp.PlanInv s')
    (h : (s.Same s' ∧ (Q a ∨ inp.priced a.accrualId)) ∨
      ∃ w, s'.writes = s.writes ++ [w] ∧ w.sourceAccrualId = some a.accrualId) :
    inp.LoopDone [a] s s' Q := by
  obtain ⟨hsame, hdone⟩ | ⟨w, hwrites, hw⟩ := h
  · exact ⟨hinv, fun w hw => hsame.writes ▸ hw, fun w hw => .inl (hsame.writes ▸ hw),
      forall_mem_singleton.2 (hdone.imp_right pricedAfter_of_priced)⟩
  have hmem : ∀ x, x ∈ s'.writes ↔ x ∈ s.writes ∨ x = w := by simp [hwrites]
  refine ⟨hinv, fun x hx => (hmem x).2 (.inl hx), fun x hx => ?_, ?_⟩
  · rcases (hmem x).1 hx with hx | rfl
    · exact .inl hx
    · exact .inr ⟨a, mem_singleton.2 rfl, hw⟩
  · refine forall_mem_singleton.2 (.inr ⟨w.record, ?_, hw⟩)
    exact mem_append_right _ (mem_map_of_mem ((hmem w).2 (.inr rfl)))

omit hw in
/-- The loop, from what one step does to a planning `P` keeps. -/
theorem loopDone {step : Planning → ReferralRefereeAccrual → Planning}
    {P : Planning → Prop} {Q : ReferralRefereeAccrual → Prop} {l : List ReferralRefereeAccrual}
    (hstep : ∀ s a, a ∈ l → P s → inp.PlanInv s →
      (∀ w ∈ s.writes, w.sourceAccrualId ≠ some a.accrualId) →
      P (step s a) ∧ inp.LoopDone [a] s (step s a) Q)
    (hn : (l.map (·.accrualId)).Nodup) (hP : P s) (hi : inp.PlanInv s)
    (hnew : ∀ a ∈ l, ∀ w ∈ s.writes, w.sourceAccrualId ≠ some a.accrualId) :
    P (l.foldl step s) ∧ inp.LoopDone l s (l.foldl step s) Q := by
  induction l generalizing s with
  | nil => exact ⟨hP, hi, fun _ h => h, fun _ h => .inl h, by simp⟩
  | cons a l ih =>
    rw [map_cons, nodup_cons] at hn
    obtain ⟨hP1, h1⟩ := hstep s a (.head _) hP hi (hnew a (.head _))
    obtain ⟨hP2, h2⟩ := ih (fun s b hb => hstep s b (.tail a hb)) hn.2 hP1 h1.inv
      fun b hb w hw hs => by
        rcases h1.added w hw with hw | ⟨x, hx, hxs⟩
        · exact hnew b (.tail a hb) w hw hs
        · obtain rfl := mem_singleton.1 hx
          rw [hs] at hxs
          exact hn.1 (Option.some.inj hxs ▸ mem_map_of_mem hb)
    refine ⟨hP2, h2.inv, fun w hw => h2.kept w (h1.kept w hw), fun w hw => ?_, fun b hb => ?_⟩
    · rcases h2.added w hw with hw | ⟨x, hx, hxs⟩
      · rcases h1.added w hw with hw | ⟨x, hx, hxs⟩
        · exact .inl hw
        · obtain rfl := mem_singleton.1 hx
          exact .inr ⟨x, .head _, hxs⟩
      · exact .inr ⟨x, .tail a hx, hxs⟩
    · rcases mem_cons.1 hb with rfl | hb
      · exact (h1.done b (mem_singleton.2 rfl)).imp_right (pricedAfter_mono h2.kept)
      · exact h2.done b hb

omit hw in
theorem planCredit_loop (hi : inp.PlanInv s) (ha : a ∈ inp.accruals) (hk : a.kind = .credit)
    (hnew : ∀ w ∈ s.writes, w.sourceAccrualId ≠ some a.accrualId) :
    inp.LoopDone [a] s (inp.planCredit s a) inp.NoBonus := by
  refine .of_step (hi.planCredit ha hk hnew) ((inp.planCredit_cases s a).imp_right ?_)
  rintro ⟨-, -, -, hplan⟩
  rw [hplan]
  exact ⟨_, rfl, rfl⟩

theorem planReversal_loop (hi : inp.PlanInv s) (ha : a ∈ inp.accruals) (hk : a.kind = .reversal)
    (hnew : ∀ w ∈ s.writes, w.sourceAccrualId ≠ some a.accrualId) :
    (inp.planReversal s a).bonusOf = s.bonusOf ∧
      inp.LoopDone [a] s (inp.planReversal s a) (inp.NoReversal s.bonusOf) := by
  have hinv := hi.planReversal hw ha hk hnew
  obtain ⟨hsame, hdone⟩ | ⟨-, -, _, _, _, -, -, hplan⟩ :=
    inp.planReversal_cases s a
  · exact ⟨hsame.bonusOf, .of_step hinv (.inl ⟨hsame, hdone⟩)⟩
  · rw [hplan] at hinv ⊢
    exact ⟨rfl, .of_step hinv (.inr ⟨_, rfl, rfl⟩)⟩

omit hw in
theorem mem_ordered {kind : AccrualKind} :
    a ∈ inp.ordered kind ↔ a ∈ inp.accruals ∧ a.kind = kind := by
  simp [ordered, (perm_insertionSort _ _).mem_iff]

theorem ordered_nodup (kind : AccrualKind) : ((inp.ordered kind).map (·.accrualId)).Nodup := by
  refine List.Nodup.sublist (filter_sublist.map _) ?_
  exact ((perm_insertionSort _ _).map _).nodup_iff.2 hw.ids

/-- What a run plans: sound rows, and nothing left that the same run would still price. -/
theorem planned_spec (hr : RowsInv inp.accruals inp.existing) : inp.PlanInv inp.planned ∧
    (∀ a ∈ inp.accruals, a.kind = .credit →
      inp.NoBonus a ∨ inp.pricedAfter inp.planned a.accrualId) ∧
    ∀ a ∈ inp.accruals, a.kind = .reversal →
      inp.NoReversal inp.planned.bonusOf a ∨ inp.pricedAfter inp.planned a.accrualId := by
  obtain ⟨-, hc⟩ := loopDone (P := fun _ => True) (Q := inp.NoBonus) (l := inp.ordered _)
    (fun s a ha _ hi hnew => ⟨trivial, planCredit_loop hi (mem_ordered.1 ha).1
      (mem_ordered.1 ha).2 hnew⟩) (ordered_nodup hw _) trivial (.start hr) (by simp [start])
  generalize hs : (inp.ordered _).foldl _ _ = s1 at hc
  have hplanned : inp.planned = (inp.ordered .reversal).foldl inp.planReversal s1 := by
    rw [planned, hs]
  obtain ⟨hb, hd⟩ := loopDone (P := fun s => s.bonusOf = s1.bonusOf)
    (Q := inp.NoReversal _) (l := inp.ordered _)
    (fun s a ha hP hi hnew => by
      obtain ⟨hb, hd⟩ := planReversal_loop hw hi (mem_ordered.1 ha).1 (mem_ordered.1 ha).2 hnew
      exact ⟨hb.trans hP, hP ▸ hd⟩) (ordered_nodup hw _) rfl hc.inv fun a ha w hw' hs' => by
      -- The first loop priced credits, this one reversals.
      rcases hc.added w hw' with hw' | ⟨x, hx, hxs⟩
      · simp [start] at hw'
      obtain ⟨hx, hxk⟩ := mem_ordered.1 hx
      obtain ⟨ha, hak⟩ := mem_ordered.1 ha
      rw [hs', Option.some.injEq] at hxs
      rw [hw.ext ha hx hxs, hxk] at hak
      cases hak
  rw [← hplanned] at hb hd
  refine ⟨hd.inv, fun a ha hk => ?_, fun a ha hk => hb ▸ hd.done a (mem_ordered.2 ⟨ha, hk⟩)⟩
  exact (hc.done a (mem_ordered.2 ⟨ha, hk⟩)).imp_right (pricedAfter_mono hd.kept)

omit hw in
/-- A loop whose steps only skip. -/
theorem same_foldl {bonusOf : Uuid → Option (Nat × Nat)}
    {step : Planning → ReferralRefereeAccrual → Planning} {l : List ReferralRefereeAccrual}
    (hstep : ∀ s : Planning, ∀ a ∈ l, s.bonusOf = bonusOf → s.Same (step s a)) (s : Planning)
    (hs : s.bonusOf = bonusOf) : s.Same (l.foldl step s) := by
  induction l generalizing s with
  | nil => exact ⟨rfl, rfl, rfl⟩
  | cons a l ih =>
    have h1 := hstep s a (.head _) hs
    have h2 := ih (fun s b hb => hstep s b (.tail a hb)) (step s a)
      (h1.bonusOf.trans hs)
    exact ⟨h2.writes.trans h1.writes, h2.bonusOf.trans h1.bonusOf, h2.taken.trans h1.taken⟩

/-- The same run over the rows it left writes nothing. -/
theorem rerun_writes (hr : RowsInv inp.accruals inp.existing) :
    ({ inp with existing := inp.rowsAfter inp.planned } : BonusInputs).planned.writes = [] := by
  obtain ⟨hi, hcredits, hreversals⟩ := inp.planned_spec hw hr
  generalize hinp : { inp with existing := inp.rowsAfter _ } = inp'
  have hpriced : ∀ id, inp.pricedAfter inp.planned id → inp'.priced id := by
    rintro id ⟨r, hr', hs⟩
    rw [← hinp]
    exact any_eq_true.2 ⟨r, hr', decide_eq_true hs⟩
  have hstart : inp'.start.bonusOf = inp.planned.bonusOf := by rw [hi.bonusOf, ← hinp]; rfl
  have h1 : inp'.start.Same ((inp'.ordered .credit).foldl inp'.planCredit inp'.start) :=
    same_foldl (fun s a ha _ => by
    obtain ⟨ha, hk⟩ := mem_ordered.1 ha
    obtain ⟨h, -⟩ | ⟨hbonus, hp, -⟩ := inp'.planCredit_cases s a
    · exact h
    subst hinp
    rcases hcredits a ha hk with h | h
    · exact absurd h hbonus
    · rw [hpriced _ h] at hp
      cases hp) _ hstart
  have h2 : ((inp'.ordered .credit).foldl inp'.planCredit inp'.start).Same inp'.planned :=
    same_foldl (fun s a ha hs => by
    obtain ⟨ha, hk⟩ := mem_ordered.1 ha
    obtain ⟨h, -⟩ | ⟨hrev, hp, -⟩ := inp'.planReversal_cases s a
    · exact h
    subst hinp
    rcases hreversals a ha hk with h | h
    · exact absurd (hs ▸ h) hrev
    · rw [hpriced _ h] at hp
      cases hp) _ (h1.bonusOf.trans hstart)
  exact h2.writes.trans h1.writes

end

end BonusInputs

/-! ## Runs -/

/-- A referee's stored accruals and bonus rows on a rail. -/
structure BonusBooks where
  accruals : List ReferralRefereeAccrual
  rows : List ReferralBonusRecord

/-- What a run reads besides. -/
structure BonusSettings where
  attribution : ReferralAttribution
  bps : Nat
  earnUntil : Time
  refereeHeld : Bool
  mirrorVoided : Bool

namespace BonusBooks

def inputs (b : BonusBooks) (st : BonusSettings) : BonusInputs where
  attribution := st.attribution
  accruals := b.accruals
  existing := b.rows
  bps := st.bps
  earnUntil := st.earnUntil
  refereeHeld := st.refereeHeld
  mirrorVoided := st.mirrorVoided

def writes (b : BonusBooks) (st : BonusSettings) : List ReferralBonusWrite :=
  (b.inputs st).planReferralBonus.writes

def run (b : BonusBooks) (st : BonusSettings) : BonusBooks :=
  { b with rows := b.rows ++ (b.writes st).map ReferralBonusWrite.record }

def accrue (b : BonusBooks) (a : ReferralRefereeAccrual) : BonusBooks :=
  { b with accruals := b.accruals ++ [a] }

/-- Bonus units the stored reversals of a line have taken back. -/
def reversedBonus (b : BonusBooks) (line : Uuid × String) : Nat :=
  ((lineRows b.accruals b.rows line).map (·.bonusUnits)).sum

end BonusBooks

/-- An accrual comes in, a run stores what it planned, or the referee's void row is written. -/
inductive BonusStep : BonusBooks → BonusBooks → Prop
  | accrue (b : BonusBooks) (a : ReferralRefereeAccrual)
      (hw : WellAccrued (b.accrue a).accruals) : BonusStep b (b.accrue a)
  | run (b : BonusBooks) (st : BonusSettings) : BonusStep b (b.run st)
  | void (b : BonusBooks) (taken : Nat) :
      BonusStep b { b with rows := b.rows ++ [⟨.void, none, 10000, 0, taken⟩] }

namespace BonusBooks

structure Inv (b : BonusBooks) : Prop where
  accrued : WellAccrued b.accruals
  rows : RowsInv b.accruals b.rows

variable {b b' : BonusBooks} {st : BonusSettings}

/-- A run stores nothing, or what its loops planned. -/
theorem run_cases (b : BonusBooks) (st : BonusSettings) :
    ((b.inputs st).voided ∧ b.run st = b) ∨ ((b.inputs st).voided = false ∧
      b.run st = { b with rows := (b.inputs st).rowsAfter (b.inputs st).planned }) := by
  cases hv : (b.inputs st).voided with
  | true => exact .inl ⟨rfl, by simp [run, writes, BonusInputs.planReferralBonus, hv]⟩
  | false =>
    refine .inr ⟨rfl, ?_⟩
    simp only [run, writes, BonusInputs.planReferralBonus, hv]
    rfl

theorem Inv.run (hi : b.Inv) (st : BonusSettings) : (b.run st).Inv := by
  obtain ⟨-, h⟩ | ⟨-, h⟩ := b.run_cases st
  · rw [h]
    exact hi
  · rw [h]
    exact ⟨hi.accrued, ((b.inputs st).planned_spec hi.accrued hi.rows).1.rows⟩

theorem Inv.step (hi : b.Inv) (hs : BonusStep b b') : b'.Inv := by
  cases hs with
  | accrue a hw => exact ⟨hw, hi.rows.mono fun x hx => mem_append_left _ hx⟩
  | run st => exact hi.run st
  | void taken =>
    refine ⟨hi.accrued, hi.rows.append nofun nofun (fun _ => rfl) ?_⟩
    simpa using hi.rows.sources

theorem inv_of_runs (hr : Relation.ReflTransGen BonusStep ⟨[], []⟩ b) : b.Inv := by
  induction hr with
  | refl =>
    exact ⟨⟨nodup_nil, nofun, nofun, nofun⟩, nofun, nofun, nofun, nodup_nil⟩
  | tail _ hs ih => exact ih.step hs

theorem rerun (hi : b.Inv) (st : BonusSettings) : (b.run st).writes st = [] := by
  obtain ⟨hv, h⟩ | ⟨hv, h⟩ := b.run_cases st
  · simp [h, writes, BonusInputs.planReferralBonus, hv]
  rw [h, writes, BonusInputs.planReferralBonus]
  split
  · rfl
  · have hw : WellAccrued (b.inputs st).accruals := hi.accrued
    exact BonusInputs.rerun_writes hw hi.rows

end BonusBooks

theorem bonus_runs {b : BonusBooks} (hruns : Relation.ReflTransGen BonusStep ⟨[], []⟩ b) :
    (∀ c ∈ b.accruals, c.kind = .credit → ∀ bonus ∈ b.rows, bonus.kind = .bonus →
      bonus.sourceAccrualId = some c.accrualId →
      b.reversedBonus c.line ≤ bonus.bonusUnits ∧
      (∀ r ∈ lineRows b.accruals b.rows c.line, r.bps = bonus.bps ∧
        r.bonusUnits = bonusUnits r.baseUnits bonus.bps) ∧
      (((lineReversals b.accruals c.line).map (·.railUnits)).sum = c.railUnits →
        (∀ a ∈ lineReversals b.accruals c.line, 0 < a.railUnits →
          ∃ r ∈ b.rows, r.sourceAccrualId = some a.accrualId) →
        bonus.bonusUnits < b.reversedBonus c.line +
          (lineRows b.accruals b.rows c.line).length)) ∧
    ∀ st, (b.run st).writes st = [] := by
  have hi := BonusBooks.inv_of_runs hruns
  refine ⟨fun c hc hk bonus hb hbk hbs => ⟨?_, fun r hr => ?_, fun hall hpriced => ?_⟩,
    BonusBooks.rerun hi⟩
  · exact hi.rows.line_sum_le hi.accrued hc hk hb hbk hbs
  · exact hi.rows.line_bps hi.accrued hc hk hb hbs hr
  · exact hi.rows.line_left hi.accrued hc hk hb hbk hbs hall hpriced

section sample

def accrualOf (id : Uuid) (kind : AccrualKind) (units : Nat) : ReferralRefereeAccrual :=
  ⟨id, kind, 1, "h", some 1, units, "v1", "near_ai_usd", 10⟩

def tenPercent : BonusSettings := ⟨⟨1, 2, "x", 0, false⟩, 1000, 100, false, false⟩

/-- A credit of 38 earns 3, and its two halves give back 1 each. -/
def reversedInParts : BonusBooks :=
  ((((BonusBooks.mk [] []).accrue (accrualOf 1 .credit 38)).run tenPercent).accrue
    (accrualOf 2 .reversal 19) |>.accrue (accrualOf 3 .reversal 19)).run tenPercent

theorem reversedInParts_runs : Relation.ReflTransGen BonusStep ⟨[], []⟩ reversedInParts := by
  refine .tail (.tail (.tail (.tail (.tail .refl (.accrue _ _ ?_)) (.run _ _)) (.accrue _ _ ?_))
    (.accrue _ _ ?_)) (.run _ _)
  all_goals exact ⟨by decide, by decide, by decide, by decide⟩

end sample

/-- All 38 units are reversed and priced, and 1 of the bonus is still there. -/
theorem split_reversal_keeps_bonus : ∃ b, Relation.ReflTransGen BonusStep ⟨[], []⟩ b ∧
    ((lineReversals b.accruals (1, "h")).map (·.railUnits)).sum = 38 ∧
    (∀ a ∈ lineReversals b.accruals (1, "h"), ∃ r ∈ b.rows, r.sourceAccrualId = some a.accrualId) ∧
    (∃ bonus ∈ b.rows, bonus.kind = .bonus ∧ bonus.sourceAccrualId = some 1 ∧
      bonus.baseUnits = 38 ∧ bonus.bonusUnits = 3) ∧ b.reversedBonus (1, "h") = 2 := by
  refine ⟨reversedInParts, reversedInParts_runs, ?_⟩
  decide +kernel

theorem bonus_runs_in_parts : reversedInParts.reversedBonus (1, "h") ≤ 3 ∧
    (reversedInParts.run tenPercent).writes tenPercent = [] := by
  obtain ⟨hlines, hrerun⟩ := bonus_runs reversedInParts_runs
  refine ⟨?_, hrerun tenPercent⟩
  exact (hlines (accrualOf 1 .credit 38) (by decide +kernel) rfl ⟨.bonus, some 1, 1000, 38, 3⟩
    (by decide +kernel) rfl rfl).1

end TraceCommons.Referral
