import TraceCommons.Referral.Plan
import TraceCommons.Referral.Void

/-! # What is sent stays within what was earned

Bonus rows, voids, lines and their resolutions of any number of accounts, in any order. A
reversal may leave more sent than is owed; nothing else does. -/

namespace TraceCommons.Payout

namespace Db

open Referral List

variable {db db' : Db} {t h : String} {a : Uuid}

/-! ## Bonuses less voids, and reversals -/

/-- What reversal rows have taken from the account. -/
def reversals (db : Db) (t : String) (a : Uuid) : Nat :=
  (((db.bonusRows t a).filter (·.kind = .reversal)).map (·.bonusUnits.natAbs)).sum

/-- A row counted as if there were no reversals. -/
def keptUnits (b : ReferralBonusAccrual) : Int := if b.kind = .reversal then 0 else b.bonusUnits

/-- Bonuses less voids of one referee. -/
def kept (db : Db) (t : String) (a : Uuid) (h : String) : Int :=
  ((db.refereeRows t a h).map keptUnits).sum

def keptTotal (db : Db) (t : String) (a : Uuid) : Int := ((db.bonusRows t a).map keptUnits).sum

theorem sum_kept (db : Db) (t : String) (a : Uuid) :
    ((db.order t a).map (db.kept t a)).sum = db.keptTotal t a := by
  refine Allot.sum_by_key _ _ (db.order_nodup t a)
    fun b hb => ?_
  exact (perm_insertionSort _ _).mem_iff.2 (mem_dedup.2 (mem_map_of_mem hb))

/-- The account's rows keep the signs of their kinds. -/
def Signed (db : Db) (t : String) (a : Uuid) : Prop :=
  ∀ b ∈ db.bonusRows t a, signShape b

theorem units_le_keptUnits {b : ReferralBonusAccrual} (hb : signShape b) :
    b.bonusUnits ≤ keptUnits b := by
  unfold keptUnits
  split
  next hk => simpa [hk] using (by simpa [signShape, hk] using hb : _ ∧ _).2
  next => exact le_rfl

theorem net_le_kept (hs : db.Signed t a) : db.net t a h ≤ db.kept t a h := by
  refine sum_le_sum fun b hb => units_le_keptUnits (hs b ?_)
  exact (mem_filter.1 hb).1

theorem keptTotal_eq (hs : db.Signed t a) :
    db.keptTotal t a = db.total t a + db.reversals t a := by
  unfold keptTotal total reversals
  unfold Signed at hs
  generalize db.bonusRows t a = rows at hs
  induction rows with
  | nil => rfl
  | cons b rows ih =>
    have hb := hs b (.head _)
    have ih := ih fun r hr => hs r (.tail b hr)
    simp only [map_cons, sum_cons, filter_cons, keptUnits] at ih ⊢
    by_cases hk : b.kind = .reversal
    · have hneg : b.bonusUnits ≤ 0 := (by simpa [signShape, hk] using hb : _ ∧ _).2
      simp only [hk, if_true, decide_true, map_cons, sum_cons]
      omega
    · simp only [hk, if_false, decide_false, Bool.false_eq_true]
      omega

/-! ## The account's invariant -/

/-- What was sent fits into bonuses less voids, and no referee's voids exceed its bonuses. -/
structure MoneyInv (db : Db) (t : String) (a : Uuid) : Prop where
  signed : db.Signed t a
  kept_nonneg : ∀ h, 0 ≤ db.kept t a h
  sent_le : (db.referralSent t a : Int) ≤ db.keptTotal t a

/-- Reversals are all that can put the owed amount below what was sent. -/
theorem MoneyInv.sent_le_owed (hi : db.MoneyInv t a) :
    db.referralSent t a ≤ db.owedUnits t a + db.reversals t a := by
  have hsent := hi.sent_le
  rw [keptTotal_eq hi.signed] at hsent
  unfold owedUnits
  omega

/-- Only the account's rows and its sent amount count. -/
theorem MoneyInv.congr (hi : db.MoneyInv t a) (hrows : db'.bonusRows t a = db.bonusRows t a)
    (hsent : db'.referralSent t a ≤ db.referralSent t a) : db'.MoneyInv t a := by
  have hkept : ∀ h, db'.kept t a h = db.kept t a h := by
    intro h
    simp [kept, refereeRows, hrows]
  have htotal : db'.keptTotal t a = db.keptTotal t a := by simp [keptTotal, hrows]
  refine ⟨fun b hb => hi.signed b (hrows ▸ hb), fun h => hkept h ▸ hi.kept_nonneg h, ?_⟩
  rw [htotal]
  exact le_trans (by exact_mod_cast hsent) hi.sent_le

section addBonus

variable {b : ReferralBonusAccrual}

theorem bonusRows_addBonus_self (ht : b.tenantId = t) (ha : b.accountId = a) :
    (db.addBonus b).bonusRows t a = db.bonusRows t a ++ [b] := by
  simp [bonusRows, addBonus, ht, ha]

theorem bonusRows_addBonus_ne (hb : ¬(b.tenantId = t ∧ b.accountId = a)) :
    (db.addBonus b).bonusRows t a = db.bonusRows t a := by
  have : ([b].filter fun r => r.tenantId = t && r.accountId = a) = [] := by
    simpa [filter_eq_nil_iff] using hb
  simp [bonusRows, addBonus, this]

theorem kept_addBonus_self (ht : b.tenantId = t) (ha : b.accountId = a) :
    (db.addBonus b).kept t a b.refereeRefHash = db.kept t a b.refereeRefHash + keptUnits b := by
  simp [kept, refereeRows_addBonus_self ht ha]

theorem kept_addBonus_ne (hh : h ≠ b.refereeRefHash) :
    (db.addBonus b).kept t a h = db.kept t a h := by
  simp [kept, refereeRows_addBonus_ne fun e => hh e.2.2.symm]

/-- A row of the account that leaves its referee's kept amount at or above zero and the account's
at or above what was sent. -/
theorem MoneyInv.addBonus (hi : db.MoneyInv t a) (hb : signShape b)
    (hself : b.tenantId = t → b.accountId = a →
      0 ≤ db.kept t a b.refereeRefHash + keptUnits b ∧
      (db.referralSent t a : Int) ≤ db.keptTotal t a + keptUnits b) :
    (db.addBonus b).MoneyInv t a := by
  by_cases hacc : b.tenantId = t ∧ b.accountId = a
  · obtain ⟨ht, ha⟩ := hacc
    obtain ⟨hkept, hsent⟩ := hself ht ha
    have hrows : (db.addBonus b).bonusRows t a = db.bonusRows t a ++ [b] :=
      bonusRows_addBonus_self ht ha
    refine ⟨fun r hr => ?_, fun h => ?_, ?_⟩
    · rw [hrows, mem_append, mem_singleton] at hr
      obtain hr | rfl := hr
      · exact hi.signed r hr
      · exact hb
    · by_cases hh : h = b.refereeRefHash
      · rw [hh, kept_addBonus_self ht ha]
        exact hkept
      · rw [kept_addBonus_ne hh]
        exact hi.kept_nonneg h
    · simp only [keptTotal, hrows, map_append, sum_append, map_cons, map_nil, sum_singleton]
      exact hsent
  · exact hi.congr (bonusRows_addBonus_ne hacc) le_rfl

/-- A bonus adds, a reversal is not counted. -/
theorem MoneyInv.addPlanned (hi : db.MoneyInv t a) (hb : signShape b) (hk : b.kind ≠ .void) :
    (db.addBonus b).MoneyInv t a := by
  have hnonneg : 0 ≤ keptUnits b := by
    unfold keptUnits
    split
    · exact le_rfl
    rename_i hr
    cases hkind : b.kind with
    | bonus => exact (by simpa [signShape, hkind] using hb : _ ∧ _).2
    | reversal => exact absurd hkind hr
    | void => exact absurd hkind hk
  refine hi.addBonus hb fun _ _ => ⟨?_, ?_⟩
  · exact Int.add_nonneg (hi.kept_nonneg _) hnonneg
  · have := hi.sent_le
    omega

end addBonus

/-- An unsent share is within the referee's kept amount, and what is kept without it still covers
what was sent: the allotments sum to it, and each is within its referee's kept amount. -/
theorem MoneyInv.unsentShare (hi : db.MoneyInv t a) :
    (db.unsentShare t a h : Int) ≤ db.kept t a h ∧
      (db.referralSent t a : Int) + db.unsentShare t a h ≤ db.keptTotal t a := by
  have hunits : ∀ k, db.netUnits t a k ≤ db.kept t a k := by
    intro k
    have := net_le_kept (h := k) hi.signed
    have := hi.kept_nonneg k
    unfold netUnits
    omega
  have hh := hunits h
  have hsent := hi.sent_le
  by_cases hzero : db.unsentShare t a h = 0
  · omega
  unfold Db.unsentShare at hzero ⊢
  have hmem : h ∈ db.order t a := by
    by_contra hout
    simp [netUnits, net_of_notMem hout] at hzero
  have hsum : ((db.order t a).map (db.allotment t a)).sum = db.referralSent t a :=
    Allot.sum_share_of_lt (db.order_nodup t a) hmem
      (show db.allotment t a h < db.netUnits t a h by omega)
  -- Split the sums at `h`: the others' allotments are within their kept amounts.
  have hperm := perm_cons_erase hmem
  have hleft : db.allotment t a h + (((db.order t a).erase h).map (db.allotment t a)).sum =
      db.referralSent t a := by
    rw [← hsum, (hperm.map _).sum_eq, map_cons, sum_cons]
  have hright : db.kept t a h + (((db.order t a).erase h).map (db.kept t a)).sum =
      db.keptTotal t a := by
    rw [← sum_kept, (hperm.map _).sum_eq, map_cons, sum_cons]
  have hrest : (((db.order t a).erase h).map (db.allotment t a)).sum ≤
      (((db.order t a).erase h).map (db.kept t a)).sum := by
    rw [Nat.cast_list_sum, map_map]
    refine sum_le_sum fun k _ => le_trans ?_ (hunits k)
    exact Int.ofNat_le.2 allotment_le
  omega

/-! ## Lines -/

variable {w : PayoutLineWrite} {r : PendingPayoutLineInsert}

theorem insertPendingPayoutLine_eq_ok (e : db.insertPendingPayoutLine t w = .ok (r, db')) :
    db'.bonuses = db.bonuses ∧ ((r ≠ .inserted ∧ db'.lines = db.lines) ∨ (r = .inserted ∧
      (∀ l ∈ db.lines, ¬(l.tenantId = t ∧ l.lineId = w.lineId)) ∧
      db'.lines = db.lines ++ [PayoutLine.ofWrite t w] ∧
      (w.stream = .referral →
        w.delta ≤ db.owedUnits t w.accountId - db.referralSent t w.accountId))) := by
  unfold insertPendingPayoutLine at e
  split at e
  next hs _ =>
    rcases insertLine_cases e with ⟨hr, rfl⟩ | ⟨hr, rfl, -, -, hid⟩
    · exact ⟨rfl, .inl ⟨hr, rfl⟩⟩
    · exact ⟨rfl, .inr ⟨hr, hid, rfl, fun hw => by simp [hs] at hw⟩⟩
  next program _ _ =>
    rcases insertReferralLine_cases e with ⟨hr, rfl⟩ | ⟨hr, l, o, -, ho, hfits, hins⟩
    · exact ⟨rfl, .inl ⟨hr, rfl⟩⟩
    rcases insertLine_cases hins with ⟨hr', -⟩ | ⟨-, rfl, -, -, hid⟩
    · exact absurd rfl hr'
    · obtain ⟨howed, hsent⟩ := owedOnTx_eq_ok ho
      rw [ReferralOwed.unsent, howed, hsent] at hfits
      exact ⟨rfl, .inr ⟨hr, hid, rfl, fun _ => hfits⟩⟩
  next => cases e

/-- What a line counts towards what the account was sent. -/
def sentBy (t : String) (a : Uuid) (l : PayoutLine) : Nat :=
  if l.tenantId = t && l.accountId = a && l.stream = .referral &&
    (l.state = .confirmed || l.state = .pending) then l.delta else 0

theorem referralSent_eq : db.referralSent t a = (db.lines.map (sentBy t a)).sum := by
  unfold referralSent
  induction db.lines with
  | nil => rfl
  | cons l ls ih =>
    rw [filter_cons, map_cons, sum_cons, ← ih, sentBy]
    split <;> simp

/-- A line's primary key. -/
def LineKeys (db : Db) : Prop := (db.lines.map fun l => (l.tenantId, l.lineId)).Nodup

/-- A confirmation names the delta its line was written with. -/
def asWritten (db : Db) (t : String) (id : Uuid) : PayoutLineResolution → Bool
  | .confirmed _ delta => db.lines.all fun l =>
    !(l.tenantId = t && l.lineId = id) || l.delta = delta
  | _ => true

theorem LineKeys.ext (hk : db.LineKeys) {l p : PayoutLine} (hl : l ∈ db.lines) (hp : p ∈ db.lines)
    (ht : l.tenantId = p.tenantId) (hid : l.lineId = p.lineId) : l = p :=
  inj_on_of_nodup_map hk hl hp (Prod.ext ht hid)

/-- A resolution never adds to what was sent. -/
theorem referralSent_resolve {u : String} {id : Uuid} {r : PayoutLineResolution}
    (hk : db.LineKeys) (hr : db.asWritten u id r) :
    (db.resolvePayoutLine u id r).2.referralSent t a ≤ db.referralSent t a := by
  unfold resolvePayoutLine
  split
  · exact le_rfl
  rename_i hany
  split
  · exact le_rfl
  rw [referralSent_eq, referralSent_eq, updateLine, map_map]
  refine sum_le_sum fun l hl => ?_
  simp only [Function.comp_apply]
  split
  next hkey =>
    -- The one line of that key is the pending one.
    simp only [Bool.not_eq_true, Bool.not_eq_false', any_eq_true, Bool.and_eq_true,
      decide_eq_true_eq] at hany
    obtain ⟨p, hp, ⟨hpt, hpid⟩, hpending⟩ := hany
    obtain rfl := hk.ext hl hp (hkey.1.trans hpt.symm) (hkey.2.trans hpid.symm)
    cases r with
    | confirmed x d =>
      obtain rfl : l.delta = d := by simpa [hkey] using all_eq_true.1 hr l hl
      simp only [sentBy, hpending]
      exact le_rfl
    | retry label => exact le_rfl
    | _ => simp [sentBy, PayoutLine.resolve]
  next => exact le_rfl

theorem LineKeys.resolve (hk : db.LineKeys) (u : String) (id : Uuid) (r : PayoutLineResolution) :
    (db.resolvePayoutLine u id r).2.LineKeys := by
  unfold resolvePayoutLine
  split
  · exact hk
  split
  · exact hk
  have hsame : ∀ l : PayoutLine, (l.resolve r).tenantId = l.tenantId ∧
      (l.resolve r).lineId = l.lineId := by
    intro l
    cases r <;> exact ⟨rfl, rfl⟩
  have hmap : ((db.updateLine u id fun l => l.resolve r).lines.map
      fun l => (l.tenantId, l.lineId)) = db.lines.map fun l => (l.tenantId, l.lineId) := by
    rw [updateLine, map_map]
    refine map_congr_left fun l _ => ?_
    simp only [Function.comp_apply]
    split
    · rw [(hsame l).1, (hsame l).2]
    · rfl
  unfold LineKeys
  rw [hmap]
  exact hk

/-- No row of a referee is stored after its void row. -/
def VoidsLast (db : Db) : Prop :=
  db.bonuses.Pairwise fun r b => r.kind = .void → ¬ofReferee r.tenantId r.refereeRefHash b

instance : Decidable db.VoidsLast := inferInstanceAs (Decidable (db.bonuses.Pairwise _))

/-- A row may follow when its referee has no void row. -/
theorem VoidsLast.addBonus (hv : db.VoidsLast) {b : ReferralBonusAccrual}
    (hb : db.hasVoid b.tenantId b.refereeRefHash = false) : (db.addBonus b).VoidsLast := by
  refine pairwise_append.2 ⟨hv, pairwise_singleton _ _, fun r hr b' hb' hk hof => ?_⟩
  obtain rfl := mem_singleton.1 hb'
  simp only [ofReferee, decide_eq_true_eq] at hof
  simp only [hasVoid, any_eq_false, ofReferee, Bool.and_eq_true, decide_eq_true_eq] at hb
  exact hb r hr ⟨⟨hof.1.symm, hof.2.symm⟩, hk⟩

/-- What every transaction keeps, for one account. -/
structure ReferralInv (db : Db) (t : String) (a : Uuid) : Prop where
  money : db.MoneyInv t a
  keys : db.LineKeys
  voidsLast : db.VoidsLast

theorem ReferralInv.of_eq (hi : db.ReferralInv t a) (hb : db'.bonuses = db.bonuses)
    (hl : db'.lines = db.lines) : db'.ReferralInv t a := by
  refine ⟨hi.money.congr (by simp [bonusRows, hb]) (by simp [referralSent, hl]), ?_, ?_⟩
  · rw [LineKeys, hl]
    exact hi.keys
  · rw [VoidsLast, hb]
    exact hi.voidsLast

theorem ReferralInv.resolve (hi : db.ReferralInv t a) {u : String} {id : Uuid}
    {r : PayoutLineResolution} (hr : db.asWritten u id r) :
    (db.resolvePayoutLine u id r).2.ReferralInv t a := by
  have hbonuses : (db.resolvePayoutLine u id r).2.bonuses = db.bonuses := by
    unfold resolvePayoutLine
    split
    · rfl
    split <;> rfl
  refine ⟨hi.money.congr (by simp [bonusRows, hbonuses]) (referralSent_resolve hi.keys hr),
    hi.keys.resolve u id r, ?_⟩
  rw [VoidsLast, hbonuses]
  exact hi.voidsLast

/-- Once it is in, a line of the referral stream is within what is owed. -/
theorem sent_le_owed_of_inserted {u : String} (hs : w.stream = .referral) (hw : 0 < w.delta)
    (e : db.insertPendingPayoutLine u w = .ok (.inserted, db')) :
    db'.referralSent u w.accountId = db.referralSent u w.accountId + w.delta ∧
      db'.referralSent u w.accountId ≤ db'.owedUnits u w.accountId := by
  obtain ⟨hb, ⟨hr, -⟩ | ⟨-, -, hl, hdelta⟩⟩ := insertPendingPayoutLine_eq_ok e
  · exact absurd rfl hr
  have hsent : db'.referralSent u w.accountId = db.referralSent u w.accountId + w.delta := by
    rw [referralSent_eq, referralSent_eq, hl]
    simp [sentBy, PayoutLine.ofWrite, hs]
  have howed : db'.owedUnits u w.accountId = db.owedUnits u w.accountId := by
    simp [owedUnits, total, bonusRows, hb]
  have := hdelta hs
  omega

theorem ReferralInv.insertLine (hi : db.ReferralInv t a) {u : String}
    (hw : w.stream = .referral → 0 < w.delta) (e : db.insertPendingPayoutLine u w = .ok (r, db')) :
    db'.ReferralInv t a := by
  obtain ⟨hb, ⟨-, hl⟩ | ⟨rfl, hid, hl, -⟩⟩ := insertPendingPayoutLine_eq_ok e
  · exact hi.of_eq hb hl
  have hrows : db'.bonusRows t a = db.bonusRows t a := by simp [bonusRows, hb]
  refine ⟨?_, ?_, by rw [VoidsLast, hb]; exact hi.voidsLast⟩
  · by_cases hself : u = t ∧ w.accountId = a ∧ w.stream = .referral
    · obtain ⟨rfl, rfl, hs⟩ := hself
      obtain ⟨_, howed⟩ := sent_le_owed_of_inserted hs (hw hs) e
      -- Something was owed, so the account's sum is above zero and its kept amount no less.
      have htotal : db'.total u w.accountId = db.total u w.accountId := by
        simp [total, hrows]
      have hkept := keptTotal_eq hi.money.signed
      have hpos := hw hs
      refine ⟨fun b hb' => hi.money.signed b (hrows ▸ hb'), fun h => ?_, ?_⟩
      · have := hi.money.kept_nonneg h
        simpa [kept, refereeRows, hrows] using this
      have hk : db'.keptTotal u w.accountId = db.keptTotal u w.accountId := by
        simp [keptTotal, hrows]
      unfold owedUnits at howed
      omega
    · refine hi.money.congr hrows (le_of_eq ?_)
      have hzero : sentBy t a (PayoutLine.ofWrite u w) = 0 := by
        simp only [sentBy]
        rw [if_neg]
        simp only [Bool.and_eq_true]
        rintro ⟨⟨⟨ht, ha⟩, hs⟩, -⟩
        exact hself ⟨of_decide_eq_true ht, of_decide_eq_true ha, of_decide_eq_true hs⟩
      rw [referralSent_eq, referralSent_eq, hl]
      simp [hzero]
  · rw [LineKeys, hl, map_append]
    refine List.Nodup.append hi.keys (nodup_singleton _) fun k hk hk' => ?_
    obtain rfl := mem_singleton.1 hk'
    obtain ⟨l, hl', he⟩ := mem_map.1 hk
    exact hid l hl' ⟨congrArg Prod.fst he, congrArg Prod.snd he⟩

end Db

end TraceCommons.Payout

namespace TraceCommons.Referral

open Payout

/-! ## The transactions -/

namespace ReferralDb

variable {db db' : ReferralDb} {t u h : String} {a c id : Uuid} {n : Nat}

section

variable (hi : db.ReferralInv t a)

include hi

theorem writeVoidRow_keeps
    (hw : db.writeVoidRow u c h id = .ok (n, db')) : db'.ReferralInv t a := by
  obtain ⟨_, rfl, -⟩ | ⟨hv, htaken, -, latest, rfl⟩ := writeVoidRow_cases hw
  · exact hi
  have hsign : signShape (db.voidRow u c h id n latest) := by simp [signShape, voidRow]
  refine ⟨hi.money.addBonus hsign fun ht ha => ?_, hi.keys, hi.voidsLast.addBonus hv⟩
  obtain ⟨hkept, hsent⟩ := hi.money.unsentShare (h := h)
  subst ht ha
  have hunits : Db.keptUnits (db.voidRow u c h id n latest) = -n := rfl
  rw [hunits, htaken]
  exact ⟨by simpa [voidRow] using hkept, by simp only [voidRow] at hsent ⊢; omega⟩

theorem writeVoidRows_keeps {newUuid : String → Uuid} {hs : List String}
    (hw : writeVoidRows u c newUuid db hs = .ok (n, db')) :
    db'.ReferralInv t a := by
  induction hs generalizing db n with
  | nil => cases hw; exact hi
  | cons h hs ih =>
    simp only [writeVoidRows, bind_eq_ok] at hw
    obtain ⟨⟨m, _⟩, hrow, ⟨k, _⟩, hrest, hw⟩ := hw
    cases hw
    exact ih (writeVoidRow_keeps hi hrow) hrest

theorem voidRefereeLocked_keeps {m : ReferralReferee} {o : ReferralVoidOutcome}
    (hv : db.voidRefereeLocked u h m id = .ok (o, db')) :
    db'.ReferralInv t a := by
  simp only [voidRefereeLocked, bind_eq_ok] at hv
  obtain ⟨⟨n, _⟩, hrow, hv⟩ := hv
  cases hv
  refine writeVoidRow_keeps ?_ hrow
  split
  · exact hi
  · exact hi.of_eq rfl rfl

theorem voidCodeLocked_keeps {newUuid : String → Uuid} {o : Option ReferralVoidOutcome}
    (hv : db.voidCodeLocked u h c newUuid = .ok (o, db')) :
    db'.ReferralInv t a := by
  unfold voidCodeLocked at hv
  split at hv
  · cases hv; exact hi
  simp only [bind_eq_ok] at hv
  obtain ⟨⟨n, _⟩, hrows, hv⟩ := hv
  cases hv
  refine writeVoidRows_keeps ?_ hrows
  exact hi.of_eq rfl rfl

/-- A planned row stored by a batch whose referees `voided` were read before it. -/
theorem insertRow_keeps {b : ReferralBonusAccrual} (hk : b.kind ≠ .void)
    (hv : db.hasVoid b.tenantId b.refereeRefHash = false)
    (hw : db.insertRow b = .ok (n, db')) :
    db'.ReferralInv t a ∧ ∀ v k, db'.hasVoid v k = db.hasVoid v k := by
  obtain ⟨hchecks, ⟨-, rfl⟩ | ⟨-, rfl⟩⟩ := insertRow_eq_ok hw
  · exact ⟨hi, fun _ _ => rfl⟩
  have hsign : signShape b := by
    simp only [rowChecks, Bool.and_eq_true] at hchecks
    exact hchecks.1.1.2
  refine ⟨⟨hi.money.addPlanned hsign hk, hi.keys, hi.voidsLast.addBonus hv⟩, fun v k => ?_⟩
  simp [Db.hasVoid, Db.addBonus, hk]

theorem insertRows_keeps {voided : String → Bool} {rows : List (Uuid × ReferralBonusWrite)}
    (hk : ∀ r ∈ rows, r.2.kind ≠ .void)
    (hv : ∀ k, voided k = false → db.hasVoid u k = false)
    (hw : insertRows u voided db rows = .ok (n, db')) : db'.ReferralInv t a := by
  induction rows generalizing db n with
  | nil => cases hw; exact hi
  | cons r rows ih =>
    obtain ⟨id, w⟩ := r
    have hkind : w.kind ≠ .void := hk _ (.head _)
    have hrest := fun r hr => hk r (.tail _ hr)
    simp only [insertRows] at hw
    split at hw
    · exact ih hi hrest hv hw
    rename_i hskip
    split at hw
    · cases hw
    simp only [bind_eq_ok] at hw
    obtain ⟨⟨m, _⟩, hrow, ⟨k, _⟩, htail, hw⟩ := hw
    cases hw
    have hnot : voided w.refereeRefHash = false := by
      simpa [hkind] using hskip
    obtain ⟨hi1, hsame⟩ := insertRow_keeps (b := db.rowOfWrite u id w) hi hkind (hv _ hnot) hrow
    exact ih hi1 hrest (fun k hk' => (hsame u k).trans (hv k hk')) htail

theorem insertReferralBonusRows_keeps {rows : List (Uuid × ReferralBonusWrite)}
    (hk : ∀ r ∈ rows, r.2.kind ≠ .void)
    (hw : db.insertReferralBonusRows u rows = .ok (n, db')) : db'.ReferralInv t a := by
  refine insertRows_keeps hi hk (fun k hk' => ?_) hw
  simp only [refereeVoided, Bool.or_eq_false_iff] at hk'
  exact hk'.2

end

end ReferralDb

/-! ## Runs -/

/-- The tables, and what transactions that have not yet got their lock have read. -/
structure ReferralSystem where
  db : ReferralDb
  refereeReads : List (String × String × ReferralReferee)
  codeReads : List (String × String × Uuid)

inductive ReferralEvent
  | insertRows (tenant : String) (rows : List (Uuid × ReferralBonusWrite))
  | readReferee (tenant referee : String)
  | voidReferee (tenant referee : String) (m : ReferralReferee) (id : Uuid)
  | readCode (tenant code : String)
  | voidCode (tenant code : String) (account : Uuid) (newUuid : String → Uuid)
  | insertLine (tenant : String) (w : PayoutLineWrite)
  | resolveLine (tenant : String) (lineId : Uuid) (r : PayoutLineResolution)
  /-- Whatever else is written beside the bonus rows and the lines. -/
  | others (links : List PayoutLink) (now : Time) (codes : List ReferralCode)
      (referees : List ReferralReferee)

/-- What the callers promise: a plan has no void rows, and a line is for a positive amount. -/
def ReferralEvent.Promised : ReferralEvent → Prop
  | .insertRows _ rows => ∀ r ∈ rows, r.2.kind ≠ .void
  | .insertLine _ w => w.stream = .referral → 0 < w.delta
  | _ => True

/-- The planner keeps its promise. -/
theorem ReferralEvent.promised_plan (t : String) (inp : BonusInputs) (ids : List Uuid) :
    Promised (.insertRows t (ids.zip inp.planReferralBonus.writes)) := fun _ hr =>
  BonusInputs.planReferralBonus_noVoid _ (List.of_mem_zip hr).2

namespace ReferralSystem

/-- A transaction that failed is rolled back. -/
def commit {α : Type} (s : ReferralSystem) (r : Except DatabaseError (α × ReferralDb)) :
    ReferralSystem :=
  match r with
  | .ok (_, db) => { s with db }
  | .error _ => s

/-- One transaction, or the read one makes before it has its lock. -/
def step (s : ReferralSystem) : ReferralEvent → Option ReferralSystem
  | .insertRows t rows => some (s.commit (s.db.insertReferralBonusRows t rows))
  | .readReferee t h => (s.db.findReferee t h).map fun m =>
    { s with refereeReads := (t, h, m) :: s.refereeReads }
  | .voidReferee t h m id =>
    if (t, h, m) ∈ s.refereeReads then some (s.commit (s.db.voidRefereeLocked t h m id)) else none
  | .readCode t c => (s.db.findCode t c).map fun account =>
    { s with codeReads := (t, c, account) :: s.codeReads }
  | .voidCode t c account newUuid =>
    if (t, c, account) ∈ s.codeReads then
      some (s.commit (s.db.voidCodeLocked t c account newUuid))
    else none
  | .insertLine t w => some (s.commit ((s.db.insertPendingPayoutLine t w).map fun r =>
      (r.1, { s.db with toDb := r.2 })))
  | .resolveLine t id r =>
    if s.db.asWritten t id r then
      some { s with db := { s.db with toDb := (s.db.resolvePayoutLine t id r).2 } }
    else none
  | .others links now codes referees =>
    some { s with db := { s.db with links, now, codes, referees } }

def run (s : ReferralSystem) (es : List ReferralEvent) : Option ReferralSystem :=
  es.foldlM step s

variable {s s' : ReferralSystem} {t : String} {a : Uuid}

theorem commit_keeps {α : Type} {r : Except DatabaseError (α × ReferralDb)}
    (hi : s.db.ReferralInv t a) (hr : ∀ x db, r = .ok (x, db) → db.ReferralInv t a) :
    (s.commit r).db.ReferralInv t a := by
  unfold commit
  split
  · exact hr _ _ rfl
  · exact hi

theorem step_keeps {e : ReferralEvent} (he : e.Promised) (hi : s.db.ReferralInv t a)
    (hs : s.step e = some s') : s'.db.ReferralInv t a := by
  cases e with
  | insertRows u rows =>
    cases hs
    exact commit_keeps hi fun _ _ hr => ReferralDb.insertReferralBonusRows_keeps hi he hr
  | readReferee | readCode =>
    obtain ⟨m, -, rfl⟩ := Option.map_eq_some_iff.1 hs
    exact hi
  | voidReferee u h m id =>
    simp only [step] at hs
    split at hs <;> cases hs
    exact commit_keeps hi fun _ _ hr => ReferralDb.voidRefereeLocked_keeps hi hr
  | voidCode u c account newUuid =>
    simp only [step] at hs
    split at hs <;> cases hs
    exact commit_keeps hi fun _ _ hr => ReferralDb.voidCodeLocked_keeps hi hr
  | insertLine u w =>
    cases hs
    refine commit_keeps hi fun x db hr => ?_
    obtain ⟨⟨r, _⟩, hins, hr⟩ := map_eq_ok.1 hr
    cases hr
    exact hi.insertLine he hins
  | resolveLine u id r =>
    simp only [step] at hs
    split at hs
    next hr => cases hs; exact hi.resolve hr
    next => cases hs
  | others links now codes referees =>
    cases hs
    exact hi.of_eq rfl rfl

theorem run_keeps {es : List ReferralEvent} (he : ∀ e ∈ es, e.Promised)
    (hi : s.db.ReferralInv t a) (hr : s.run es = some s') : s'.db.ReferralInv t a := by
  induction es generalizing s with
  | nil => cases hr; exact hi
  | cons e es ih =>
    simp only [run, List.foldlM_cons, Option.bind_eq_bind, Option.bind_eq_some_iff] at hr
    obtain ⟨s1, hs, hr⟩ := hr
    exact ih (fun e' he' => he e' (.tail e he'))
      (step_keeps (he e (.head _)) hi hs) hr

/-- The account has no bonus row and nothing was sent to it. -/
structure Empty (s : ReferralSystem) (t : String) (a : Uuid) : Prop where
  rows : s.db.bonusRows t a = []
  sent : s.db.referralSent t a = 0
  keys : s.db.LineKeys
  voidsLast : s.db.VoidsLast

theorem Empty.inv (he : s.Empty t a) : s.db.ReferralInv t a := by
  refine ⟨⟨fun b hb => ?_, fun h => ?_, ?_⟩, he.keys, he.voidsLast⟩
  · rw [he.rows] at hb
    cases hb
  · simp [Db.kept, Db.refereeRows, he.rows]
  · simp [Db.keptTotal, he.rows, he.sent]

end ReferralSystem

theorem referral_money_safe {s₀ s : ReferralSystem} {t : String} {a : Uuid}
    {es : List ReferralEvent} (hempty : s₀.Empty t a) (hes : ∀ e ∈ es, e.Promised)
    (hrun : s₀.run es = some s) :
    (∀ u w db', w.stream = .referral → 0 < w.delta →
      s.db.insertPendingPayoutLine u w = .ok (.inserted, db') →
      db'.referralSent u w.accountId ≤ db'.owedUnits u w.accountId) ∧
    s.db.referralSent t a ≤ s.db.owedUnits t a + s.db.reversals t a ∧
    s.db.VoidsLast := by
  have hi := ReferralSystem.run_keeps hes hempty.inv hrun
  exact ⟨fun u w db' hs hw e => (Db.sent_le_owed_of_inserted hs hw e).2, hi.money.sent_le_owed,
    hi.voidsLast⟩

section sample

def emptyAccount : ReferralSystem := ⟨twoReferees, [], []⟩

/-- 6 of the 10 `x` earned are sent. -/
def sentInPart : List ReferralEvent :=
  [.insertRows "t" [(1, earns "x" 1 10)], .insertLine "t" (referralLine 6),
    .resolveLine "t" 3 (.confirmed "receipt" 6)]

def reverses (units : Nat) : ReferralEvent :=
  .insertRows "t" [(2, { earns "x" 2 units with kind := .reversal })]

/-- Then 8 are reversed, `y` earns 5 and is voided. -/
def reversedAfterSend : List ReferralEvent :=
  sentInPart ++ [reverses 8, .insertRows "t" [(3, earns "y" 3 5)], .readReferee "t" "y",
    .voidReferee "t" "y" (referee "y") 4, .insertRows "t" [(5, earns "y" 5 7)]]

def voids (referee : String) (units : Nat) : ReferralBonusWrite :=
  { earns referee 0 units with kind := .void, sourceAccrualId := none, baseUnits := 0 }

end sample

/-- Without the promises: a void row given as a planned one takes what was sent, a line of nothing
goes in while more is sent than owed, and a bonus planned behind a void row is stored. -/
theorem unpromised_rows_unsafe :
    (∃ s, emptyAccount.run (sentInPart ++ [.insertRows "t" [(2, voids "x" 10)]]) = some s ∧
      s.db.owedUnits "t" 1 + s.db.reversals "t" 1 < s.db.referralSent "t" 1) ∧
    (∃ s db', emptyAccount.run (sentInPart ++ [reverses 8]) = some s ∧
      s.db.insertPendingPayoutLine "t" { referralLine 0 with lineId := 4 } = .ok (.inserted, db') ∧
      db'.owedUnits "t" 1 < db'.referralSent "t" 1) ∧
    ∃ s, emptyAccount.run [.insertRows "t" [(1, voids "x" 0), (2, earns "x" 1 10)]] = some s ∧
      ¬ s.db.VoidsLast := by
  refine ⟨⟨_, rfl, by decide +kernel⟩, ⟨_, _, rfl, rfl, by decide +kernel⟩, _, rfl, ?_⟩
  decide +kernel

theorem referral_money_safe_reversed : ∃ s, emptyAccount.run reversedAfterSend = some s ∧
    s.db.referralSent "t" 1 = 6 ∧ s.db.owedUnits "t" 1 = 6 ∧ s.db.reversals "t" 1 = 8 ∧
    s.db.referralSent "t" 1 ≤ s.db.owedUnits "t" 1 + s.db.reversals "t" 1 ∧
    s.db.VoidsLast := by
  have h : (emptyAccount.run reversedAfterSend).map (fun s =>
      (s.db.referralSent "t" 1, s.db.owedUnits "t" 1, s.db.reversals "t" 1)) = some (6, 6, 8) := by
    decide +kernel
  obtain ⟨s, hs, hv⟩ := Option.map_eq_some_iff.1 h
  obtain ⟨hsent, howed, hrev⟩ : _ ∧ _ ∧ _ := by simpa using hv
  have hempty : emptyAccount.Empty "t" 1 := ⟨rfl, rfl, List.nodup_nil, .nil⟩
  obtain ⟨-, hle, hlast⟩ := referral_money_safe hempty
    (by simp [reversedAfterSend, sentInPart, reverses, ReferralEvent.Promised, earns, referralLine])
    hs
  exact ⟨s, hs, hsent, howed, hrev, hle, hlast⟩

end TraceCommons.Referral
