import TraceCommons.Lib.Allot
import TraceCommons.Referral.Store

/-! # The referees' shares of what was sent

What the store's queries compute, without the `u128` range: an account's owed amount as the sum
of its referees' nets, and the allotment of what was sent along the order of first rows. -/

namespace TraceCommons.Payout.Db

open Referral List

variable {db db' : Db} {t h k : String} {a c : Uuid} {b : ReferralBonusAccrual}

def total (db : Db) (t : String) (a : Uuid) : Int :=
  ((db.bonusRows t a).map (·.bonusUnits)).sum

def owedUnits (db : Db) (t : String) (a : Uuid) : Nat := (db.total t a).toNat

def netUnits (db : Db) (t : String) (a : Uuid) (h : String) : Nat := (db.net t a h).toNat

/-- What of the sent amount falls to the referee. -/
def allotment (db : Db) (t : String) (a : Uuid) (h : String) : Nat :=
  Allot.share (db.netUnits t a) (db.referralSent t a) (db.order t a) h

def unsentShare (db : Db) (t : String) (a : Uuid) (h : String) : Nat :=
  db.netUnits t a h - db.allotment t a h

theorem allotment_le : db.allotment t a h ≤ db.netUnits t a h := Allot.share_le_net

/-! ## The order of first rows -/

theorem mem_refereeRows :
    b ∈ db.refereeRows t a h ↔ b ∈ db.bonuses ∧ ofReferee t h b ∧ b.accountId = a := by
  simp only [refereeRows, bonusRows, mem_filter, ofReferee, Bool.and_eq_true, decide_eq_true_eq]
  tauto

theorem order_nodup (db : Db) (t : String) (a : Uuid) : (db.order t a).Nodup :=
  (perm_insertionSort _ _).nodup_iff.2 (nodup_dedup _)

theorem mem_order : h ∈ db.order t a ↔ db.refereeRows t a h ≠ [] := by
  simp [order, refereeRows]

theorem net_of_notMem (hh : h ∉ db.order t a) : db.net t a h = 0 := by
  rw [mem_order, not_not] at hh
  simp [net, hh]

theorem sum_net (db : Db) (t : String) (a : Uuid) :
    ((db.order t a).map (db.net t a)).sum = db.total t a := by
  refine Allot.sum_by_key _ _
    (db.order_nodup t a) fun b hb => ?_
  exact (perm_insertionSort _ _).mem_iff.2 (mem_dedup.2 (mem_map_of_mem hb))

theorem total_addBonus (ht : b.tenantId = t) (ha : b.accountId = a) :
    (db.addBonus b).total t a = db.total t a + b.bonusUnits := by
  simp [total, bonusRows, addBonus, ht, ha]

/-- With no net below zero, what is owed is the sum of the nets. -/
theorem owedUnits_eq (hnet : ∀ k, 0 ≤ db.net t a k) :
    db.owedUnits t a = ((db.order t a).map (db.netUnits t a)).sum := by
  have hcast : ((db.order t a).map (db.netUnits t a)).sum = db.total t a := by
    rw [← sum_net, Nat.cast_list_sum, map_map]
    exact congrArg sum (map_congr_left fun k _ => Int.toNat_of_nonneg (hnet k))
  rw [owedUnits, ← hcast, Int.toNat_natCast]

instance : IsTrans String (db.earlier t a) := ⟨fun _ _ _ => le_trans⟩

instance : Std.Total (db.earlier t a) := ⟨fun _ _ => le_total _ _⟩

theorem order_sorted (db : Db) (t : String) (a : Uuid) :
    (db.order t a).Pairwise (db.earlier t a) :=
  pairwise_insertionSort _ _

/-- The order is settled by who has rows and when each first had one. -/
theorem order_congr (hmem : ∀ h, h ∈ db'.order t a ↔ h ∈ db.order t a)
    (hfirst : ∀ h ∈ db.order t a, db'.firstAt t a h = db.firstAt t a h) :
    db'.order t a = db.order t a := by
  have hperm := (perm_ext_iff_of_nodup (db'.order_nodup t a) (db.order_nodup t a)).2 hmem
  refine hperm.eq_of_pairwise (fun h k _ _ hhk hkh => ?_)
    ((db'.order_sorted t a).imp_of_mem fun {h k} hh hk hhk => ?_) (db.order_sorted t a)
  · exact congrArg Prod.snd (toLex.injective (le_antisymm hhk hkh))
  · simpa [earlier, hfirst h ((hmem h).1 hh), hfirst k ((hmem k).1 hk)] using hhk

/-! ## One more row -/

theorem refereeRows_addBonus_self (ht : b.tenantId = t) (ha : b.accountId = a) :
    (db.addBonus b).refereeRows t a b.refereeRefHash =
      db.refereeRows t a b.refereeRefHash ++ [b] := by
  simp [refereeRows, bonusRows, addBonus, ht, ha]

theorem refereeRows_addBonus_ne (hb : ¬(b.tenantId = t ∧ b.accountId = a ∧ b.refereeRefHash = h)) :
    (db.addBonus b).refereeRows t a h = db.refereeRows t a h := by
  have : ([b].filter fun r => r.tenantId = t && r.accountId = a).filter
      (·.refereeRefHash = h) = [] := by
    simp only [filter_filter, filter_eq_nil_iff, mem_singleton]
    rintro r rfl
    simp only [Bool.and_eq_true, decide_eq_true_eq]
    tauto
  simp [refereeRows, bonusRows, addBonus, this]

theorem net_addBonus_self (ht : b.tenantId = t) (ha : b.accountId = a) :
    (db.addBonus b).net t a b.refereeRefHash = db.net t a b.refereeRefHash + b.bonusUnits := by
  simp [net, refereeRows_addBonus_self ht ha]

theorem net_addBonus_ne (hb : ¬(b.tenantId = t ∧ b.accountId = a ∧ b.refereeRefHash = h)) :
    (db.addBonus b).net t a h = db.net t a h := by
  simp [net, refereeRows_addBonus_ne hb]

/-- A row that is not the referee's first, added at or after those stored, leaves the order. -/
theorem order_addBonus (hclock : ∀ r ∈ db.bonuses, r.createdAt ≤ b.createdAt)
    (hold : b.tenantId = t → b.accountId = a → db.refereeRows t a b.refereeRefHash ≠ []) :
    (db.addBonus b).order t a = db.order t a := by
  by_cases hb : b.tenantId = t ∧ b.accountId = a
  case neg =>
    have hrows : ∀ h, (db.addBonus b).refereeRows t a h = db.refereeRows t a h :=
      fun h => refereeRows_addBonus_ne fun hh => hb ⟨hh.1, hh.2.1⟩
    exact order_congr (fun h => by rw [mem_order, mem_order, hrows])
      fun h _ => by rw [firstAt, firstAt, hrows]
  obtain ⟨ht, ha⟩ := hb
  have hrows : (db.addBonus b).refereeRows t a b.refereeRefHash =
      db.refereeRows t a b.refereeRefHash ++ [b] := refereeRows_addBonus_self ht ha
  have hne : ∀ {h}, h ≠ b.refereeRefHash →
      (db.addBonus b).refereeRows t a h = db.refereeRows t a h :=
    fun hh => refereeRows_addBonus_ne fun e => hh e.2.2.symm
  refine order_congr (fun h => ?_) fun h _ => ?_
  · by_cases hh : h = b.refereeRefHash
    · subst hh
      simp [mem_order, hrows, hold ht ha]
    · rw [mem_order, mem_order, hne hh]
  · by_cases hh : h = b.refereeRefHash
    · subst hh
      obtain ⟨m, hm⟩ : ∃ m,
          ((db.refereeRows t a b.refereeRefHash).map (·.createdAt)).min? = some m := by
        refine Option.ne_none_iff_exists'.1 fun e => ?_
        exact hold ht ha (map_eq_nil_iff.1 (min?_eq_none_iff.1 e))
      have hm' : (((db.addBonus b).refereeRows t a b.refereeRefHash).map (·.createdAt)).min? =
          some m := by
        obtain ⟨hmem, hle⟩ := min?_eq_some_iff.1 hm
        obtain ⟨r, hr, rfl⟩ := mem_map.1 hmem
        rw [hrows, map_append]
        refine min?_eq_some_iff.2 ⟨mem_append_left _ hmem, fun x hx => ?_⟩
        rcases mem_append.1 hx with hx | hx
        · exact hle x hx
        · obtain rfl := mem_singleton.1 hx
          exact hclock r (mem_refereeRows.1 hr).1
      simp [firstAt, hm, hm']
    · simp [firstAt, hne hh]

/-! ## What the void reads -/

theorem parseFloorZero_eq_ok {n : Int} {m : Nat} (h : parseFloorZero n = .ok m) :
    m = n.toNat := by
  unfold parseFloorZero at h
  split at h
  · cases h
    omega
  · exact (parseUnits_eq_ok h).symm

theorem owedOnTx_eq_ok {o : ReferralOwed} (h : db.owedOnTx t a = .ok o) :
    o.owed = db.owedUnits t a ∧ o.sent = db.referralSent t a := by
  simp only [owedOnTx, bind_eq_ok] at h
  obtain ⟨_, howed, _, hsent, h⟩ := h
  cases h
  exact ⟨parseFloorZero_eq_ok howed, (parseUnits_eq_ok hsent).symm⟩

theorem unsentLoop_eq_ok {net : String → Int} {sent u : Nat} {ks : List String}
    (hout : h ∉ ks → net h ≤ 0)
    (hu : unsentLoop h sent (ks.map fun k => (k, net k)) = .ok u) :
    u = (net h).toNat - Allot.share (fun k => (net k).toNat) sent ks h := by
  induction ks generalizing sent with
  | nil =>
    cases hu
    have := hout not_mem_nil
    omega
  | cons k ks ih =>
    simp only [map_cons, unsentLoop, bind_eq_ok] at hu
    obtain ⟨n, hn, hu⟩ := hu
    obtain rfl := parseFloorZero_eq_ok hn
    split at hu
    next hk =>
      subst hk
      cases hu
      rw [Allot.share_self]
    next hk =>
      rw [Allot.share_cons hk]
      exact ih (fun hks => hout fun hm => (mem_cons.1 hm).elim (Ne.symm hk) hks) hu

theorem refereeUnsentOnTx_eq_ok {u : Nat} (h' : db.refereeUnsentOnTx t a h = .ok u) :
    u = db.unsentShare t a h := by
  simp only [refereeUnsentOnTx, bind_eq_ok] at h'
  obtain ⟨o, ho, hu⟩ := h'
  rw [(owedOnTx_eq_ok ho).2] at hu
  exact unsentLoop_eq_ok (fun hn => (net_of_notMem hn).le) hu

/-! ## What the writes do -/

theorem latestRow_eq_none :
    db.latestRow t h = none ↔ ∀ b ∈ db.bonuses, ofReferee t h b = false := by
  rw [latestRow, head?_eq_none_iff, ← length_eq_zero_iff]
  simp

end TraceCommons.Payout.Db

namespace TraceCommons.Referral.ReferralDb

open Payout

variable {db db' : ReferralDb} {t h : String} {a id : Uuid} {b : ReferralBonusAccrual}

theorem insertRow_eq_ok {n : Nat} (hi : db.insertRow b = .ok (n, db')) :
    rowChecks b ∧ ((db.bonuses.any (conflicts b) ∧ db' = db) ∨
      (db.bonuses.any (conflicts b) = false ∧ db' = { db with toDb := db.addBonus b })) := by
  unfold insertRow at hi
  split at hi
  · cases hi
  rename_i hc
  refine ⟨by simpa using hc, ?_⟩
  split at hi
  next hany => cases hi; exact .inl ⟨hany, rfl⟩
  rename_i hany
  split at hi
  · cases hi
  · cases hi
    exact .inr ⟨by simpa using hany, rfl⟩

end TraceCommons.Referral.ReferralDb
