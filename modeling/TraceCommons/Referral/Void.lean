import TraceCommons.Payout.PayoutRuns
import TraceCommons.Referral.Shares

/-! # Voiding referees

One referee's void row takes back its unsent share and moves nobody else's. A sequence of voids,
of single referees and of whole codes, is a path of such rows, and where it ends depends on which
referees were voided and not on their order. -/

namespace TraceCommons.Referral

open Payout List

/-! ## One void row -/

/-- What the tables promise of each other: rows are not from the future, and a referee's rows, its
mirror row and its code name one account. -/
structure ReferralDb.Wf (db : ReferralDb) : Prop where
  clock : ∀ b ∈ db.bonuses, b.createdAt ≤ db.now
  known : ∀ b ∈ db.bonuses, ∃ m ∈ db.referees, m.isReferee b.tenantId b.refereeRefHash
  owner : ∀ b ∈ db.bonuses, ∀ m ∈ db.referees, m.isReferee b.tenantId b.refereeRefHash →
    b.accountId = m.accountId
  code : ∀ m ∈ db.referees, ∀ c ∈ db.codes, c.tenantId = m.tenantId → c.codeIndex = m.codeIndex →
    m.accountId = c.accountId

instance : DecidablePred ReferralDb.Wf := fun db =>
  decidable_of_iff ((∀ b ∈ db.bonuses, b.createdAt ≤ db.now) ∧
    (∀ b ∈ db.bonuses, ∃ m ∈ db.referees, m.isReferee b.tenantId b.refereeRefHash) ∧
    (∀ b ∈ db.bonuses, ∀ m ∈ db.referees, m.isReferee b.tenantId b.refereeRefHash →
      b.accountId = m.accountId) ∧
    ∀ m ∈ db.referees, ∀ c ∈ db.codes, c.tenantId = m.tenantId → c.codeIndex = m.codeIndex →
      m.accountId = c.accountId)
    ⟨fun ⟨h₁, h₂, h₃, h₄⟩ => ⟨h₁, h₂, h₃, h₄⟩, fun h => ⟨h.clock, h.known, h.owner, h.code⟩⟩

/-- What the void of referee `h` does to the account's books when it takes `units`. -/
structure VoidEffect (t : String) (a : Uuid) (h : String) (units : Nat) (db db' : Db) : Prop where
  taken : units = if db.hasVoid t h then 0 else db.unsentShare t a h
  owed : db'.owedUnits t a + units = db.owedUnits t a
  sent : db'.referralSent t a = db.referralSent t a
  order : db'.order t a = db.order t a
  net : ∀ k, db'.net t a k =
    if k = h ∧ db.hasVoid t h = false then (db.allotment t a h : Int) else db.net t a k
  allotment : ∀ k, db'.allotment t a k = db.allotment t a k

/-- Nothing of the account's referral books has changed. -/
structure Untouched (t : String) (a : Uuid) (db db' : Db) : Prop where
  rows : db'.bonusRows t a = db.bonusRows t a
  sent : db'.referralSent t a = db.referralSent t a

namespace Untouched

variable {t : String} {a : Uuid} {db db' : Db}

section

variable (hu : Untouched t a db db')

include hu

theorem refereeRows (k : String) : db'.refereeRows t a k = db.refereeRows t a k := by
  simp [Db.refereeRows, hu.rows]

theorem net (k : String) : db'.net t a k = db.net t a k := by
  simp [Db.net, hu.refereeRows]

theorem order : db'.order t a = db.order t a :=
  Db.order_congr (fun k => by rw [Db.mem_order, Db.mem_order, hu.refereeRows])
    fun k _ => by simp [Db.firstAt, hu.refereeRows]

theorem allotment (k : String) : db'.allotment t a k = db.allotment t a k := by
  simp only [Db.allotment, hu.order, hu.sent]
  exact Allot.share_congr fun x _ => by simp [Db.netUnits, hu.net]

end

end Untouched

namespace ReferralDb

variable {db db' : ReferralDb} {t h : String} {a c id : Uuid} {taken : Nat}

theorem any_conflicts_voidRow {latest : ReferralBonusAccrual} :
    db.bonuses.any (conflicts (db.voidRow t a h id taken latest)) = db.hasVoid t h := by
  refine congrArg _ (funext fun r => ?_)
  cases hk : r.kind <;> simp [conflicts, voidRow, hk]

/-- A void row is written for a referee with rows and no void row yet. -/
theorem writeVoidRow_cases (hw : db.writeVoidRow t a h id = .ok (taken, db')) :
    (taken = 0 ∧ db' = db ∧ (db.hasVoid t h ∨ ∀ b ∈ db.bonuses, ofReferee t h b = false)) ∨
    (db.hasVoid t h = false ∧ taken = db.unsentShare t a h ∧ (∃ b ∈ db.bonuses, ofReferee t h b) ∧
      ∃ latest, db' = { db with toDb := db.addBonus (db.voidRow t a h id taken latest) }) := by
  unfold writeVoidRow at hw
  split at hw
  next hn =>
    cases hw
    exact .inl ⟨rfl, rfl, .inr (Db.latestRow_eq_none.1 hn)⟩
  next latest hs =>
    split at hw
    next hv =>
      cases hw
      exact .inl ⟨rfl, rfl, .inl hv⟩
    next hv =>
      simp only [bind_eq_ok] at hw
      obtain ⟨_, htake, ⟨n, _⟩, hi, hw⟩ := hw
      cases hw
      rw [Bool.not_eq_true] at hv
      obtain ⟨-, ⟨hc, -⟩ | ⟨-, rfl⟩⟩ := insertRow_eq_ok hi
      · rw [any_conflicts_voidRow, hv] at hc
        cases hc
      · refine .inr ⟨hv, Db.refereeUnsentOnTx_eq_ok htake, ?_, latest, rfl⟩
        by_contra hno
        refine absurd hs (by rw [Db.latestRow_eq_none.2]; simp; simpa using hno)

end ReferralDb

namespace VoidEffect

variable {db : Db} {t h : String} {a : Uuid} {units : Nat}

/-- Nothing is written for a referee that is void already or has no rows. -/
theorem skip (hskip : db.hasVoid t h ∨ ∀ b ∈ db.bonuses, ofReferee t h b = false) :
    VoidEffect t a h 0 db db := by
  have hzero : db.hasVoid t h = false → db.net t a h = 0 := by
    intro hv
    rw [hv] at hskip
    refine Db.net_of_notMem fun hm => Db.mem_order.1 hm ?_
    refine eq_nil_iff_forall_not_mem.2 fun b hb => ?_
    obtain ⟨hb, hbh, -⟩ := Db.mem_refereeRows.1 hb
    simp [hskip.resolve_left _ b hb] at hbh
  refine ⟨?_, rfl, rfl, rfl, fun k => ?_, fun _ => rfl⟩
  · split
    · rfl
    next hv => simp [Db.unsentShare, Db.netUnits, hzero (by simpa using hv)]
  · split
    next hk =>
      have hle : db.allotment t a h ≤ db.netUnits t a h := Db.allotment_le
      have hz := hzero hk.2
      simp only [Db.netUnits] at hle
      rw [hk.1]
      omega
    · rfl

/-- The void row takes the referee's unsent share: its net falls to its allotment. -/
theorem write {b : ReferralBonusAccrual} (hclock : ∀ r ∈ db.bonuses, r.createdAt ≤ b.createdAt)
    (hnet : ∀ k, 0 ≤ db.net t a k) (hv : db.hasVoid t b.refereeRefHash = false)
    (hrows : db.refereeRows t a b.refereeRefHash ≠ []) (ht : b.tenantId = t)
    (ha : b.accountId = a) (hb : b.bonusUnits = -units)
    (hunits : units = db.unsentShare t a b.refereeRefHash) :
    VoidEffect t a b.refereeRefHash units db (db.addBonus b) := by
  have horder : (db.addBonus b).order t a = db.order t a :=
    Db.order_addBonus hclock fun _ _ => hrows
  have hne : ∀ k, k ≠ b.refereeRefHash → (db.addBonus b).net t a k = db.net t a k :=
    fun k hk => Db.net_addBonus_ne fun e => hk e.2.2.symm
  have hle : db.allotment t a b.refereeRefHash ≤ db.netUnits t a b.refereeRefHash :=
    Db.allotment_le
  have hcut : (db.addBonus b).net t a b.refereeRefHash = db.allotment t a b.refereeRefHash := by
    have hh := hnet b.refereeRefHash
    rw [Db.net_addBonus_self ht ha]
    simp only [Db.unsentShare, Db.netUnits] at hunits hle
    omega
  have hnonneg : 0 ≤ (db.addBonus b).total t a := by
    rw [← Db.sum_net]
    refine sum_nonneg fun x hx => ?_
    obtain ⟨k, -, rfl⟩ := mem_map.1 hx
    by_cases hk : k = b.refereeRefHash
    · rw [hk, hcut]
      exact Int.natCast_nonneg _
    · rw [hne k hk]
      exact hnet k
  refine ⟨by rw [hv]; exact hunits, ?_, rfl, horder, fun k => ?_, fun k => ?_⟩
  · have htotal : (db.addBonus b).total t a = db.total t a + b.bonusUnits :=
      Db.total_addBonus ht ha
    simp only [Db.owedUnits]
    omega
  · by_cases hk : k = b.refereeRefHash
    · simp [hk, hv, hcut]
    · simp [hk, hne k hk]
  · simp only [Db.allotment, horder]
    refine Allot.share_settle (h := b.refereeRefHash) (db.order_nodup t a) ?_ (fun k hk => ?_) k
    · exact (congrArg _ hcut).trans (Int.toNat_natCast _)
    · simp [Db.netUnits, hne k hk]

variable {db' : Db}

theorem unsent (he : VoidEffect t a h units db db') {k : String} (hk : k ≠ h) :
    db'.unsentShare t a k = db.unsentShare t a k := by
  simp [Db.unsentShare, Db.netUnits, he.allotment k, he.net k, hk]

/-- What has been sent stays covered: it is the sum of the allotments, which no net falls below. -/
theorem covered (he : VoidEffect t a h units db db') (hnet : ∀ k, 0 ≤ db.net t a k)
    (hle : db.referralSent t a ≤ db.owedUnits t a) :
    db'.referralSent t a ≤ db'.owedUnits t a := by
  have hnet' : ∀ k, 0 ≤ db'.net t a k := by
    intro k
    rw [he.net k]
    split
    · exact Int.natCast_nonneg _
    · exact hnet k
  have hsum : ((db.order t a).map (db.allotment t a)).sum = db.referralSent t a := by
    rw [Db.owedUnits_eq hnet] at hle
    exact (Allot.sum_share (db.order_nodup t a)).trans (min_eq_left hle)
  calc db'.referralSent t a = ((db.order t a).map (db.allotment t a)).sum := by rw [he.sent, hsum]
    _ ≤ ((db.order t a).map (db'.netUnits t a)).sum :=
      sum_le_sum fun k _ => (he.allotment k).symm.trans_le Db.allotment_le
    _ = db'.owedUnits t a := by rw [Db.owedUnits_eq hnet', he.order]

end VoidEffect

namespace ReferralDb

variable {db db' : ReferralDb} {t h : String} {a c id : Uuid} {taken : Nat}

/-- A mirror row gives the referee to the account. -/
def Owns (db : ReferralDb) (t : String) (c : Uuid) (h : String) : Prop :=
  ∃ m ∈ db.referees, m.isReferee t h ∧ m.accountId = c

theorem ofReferee_iff {b : ReferralBonusAccrual} :
    ofReferee t h b ↔ b.tenantId = t ∧ b.refereeRefHash = h := by
  simp [ofReferee]

theorem Wf.rows_account (hwf : db.Wf) (hown : db.Owns t c h) {b : ReferralBonusAccrual}
    (hb : b ∈ db.bonuses) (hbh : ofReferee t h b) : b.accountId = c := by
  obtain ⟨m, hm, hmh, rfl⟩ := hown
  obtain ⟨rfl, rfl⟩ := ofReferee_iff.1 hbh
  exact hwf.owner b hb m hm hmh

theorem voidEffect (hwf : db.Wf) (hown : db.Owns t a h) (hnet : ∀ k, 0 ≤ db.net t a k)
    (hw : db.writeVoidRow t a h id = .ok (taken, db')) :
    VoidEffect t a h taken db.toDb db'.toDb := by
  obtain ⟨rfl, rfl, hskip⟩ | ⟨hv, htaken, ⟨b, hb, hbh⟩, latest, rfl⟩ := writeVoidRow_cases hw
  · exact .skip hskip
  have hrows : db.refereeRows t a h ≠ [] :=
    ne_nil_of_mem (Db.mem_refereeRows.2 ⟨hb, hbh, hwf.rows_account hown hb hbh⟩)
  exact VoidEffect.write (b := db.voidRow t a h id _ _) hwf.clock hnet hv hrows rfl rfl
    rfl htaken

theorem writeVoidRow_untouched (hne : c ≠ a)
    (hw : db.writeVoidRow t c h id = .ok (taken, db')) : Untouched t a db.toDb db'.toDb := by
  obtain ⟨_, rfl, -⟩ | ⟨-, -, -, _, rfl⟩ := writeVoidRow_cases hw
  · exact ⟨rfl, rfl⟩
  · refine ⟨?_, rfl⟩
    simp [Db.bonusRows, Db.addBonus, voidRow, hne]

/-- A void writes no void row but the referee's own. -/
theorem writeVoidRow_hasVoid (hw : db.writeVoidRow t c h id = .ok (taken, db')) {k : String} :
    (db.hasVoid t k → db'.hasVoid t k) ∧ (k ≠ h → db'.hasVoid t k = db.hasVoid t k) := by
  obtain ⟨_, rfl, -⟩ | ⟨-, -, -, _, rfl⟩ := writeVoidRow_cases hw
  · exact ⟨fun hv => hv, fun _ => rfl⟩
  refine ⟨fun hv => ?_, fun hk => ?_⟩
  · simp only [Db.hasVoid, Db.addBonus, any_append, Bool.or_eq_true]
    exact .inl hv
  · simp [Db.hasVoid, Db.addBonus, voidRow, ofReferee, Ne.symm hk]

theorem writeVoidRow_tables (hw : db.writeVoidRow t c h id = .ok (taken, db')) :
    db'.referees = db.referees ∧ db'.codes = db.codes ∧ db'.now = db.now := by
  obtain ⟨_, rfl, -⟩ | ⟨-, -, -, _, rfl⟩ := writeVoidRow_cases hw <;>
    exact ⟨rfl, rfl, rfl⟩

theorem Wf.writeVoidRow (hwf : db.Wf) (hown : db.Owns t c h)
    (hw : db.writeVoidRow t c h id = .ok (taken, db')) : db'.Wf := by
  obtain ⟨_, rfl, -⟩ | ⟨-, -, ⟨b, hb, hbh⟩, latest, rfl⟩ := writeVoidRow_cases hw
  · exact hwf
  have hlast : ∀ r ∈ (db.addBonus (db.voidRow t c h id taken latest)).bonuses,
      r ∈ db.bonuses ∨ r = db.voidRow t c h id taken latest := by
    simp [Db.addBonus]
  have hbc := hwf.rows_account hown hb hbh
  obtain ⟨rfl, rfl⟩ := ofReferee_iff.1 hbh
  refine ⟨fun r hr => ?_, fun r hr => ?_, fun r hr m hm hmr => ?_, hwf.code⟩
  · obtain hr | rfl := hlast r hr
    · exact hwf.clock r hr
    · exact le_rfl
  · obtain hr | rfl := hlast r hr
    · exact hwf.known r hr
    · exact hwf.known b hb
  · obtain hr | rfl := hlast r hr
    · exact hwf.owner r hr m hm hmr
    · exact hbc.symm.trans (hwf.owner b hb m hm hmr)

end ReferralDb

/-! ## Sequences of voids -/

/-- One referee's void row being written in a well-formed database. -/
structure VoidStep (t : String) where
  before : ReferralDb
  account : Uuid
  referee : String
  id : Uuid
  taken : Nat
  after : ReferralDb
  wf : before.Wf
  owns : before.Owns t account referee
  wrote : before.writeVoidRow t account referee id = .ok (taken, after)

/-- The void rows written from `db` to `db'`, in order; between two of them only marks change. -/
def VoidPath (t : String) : ReferralDb → List (VoidStep t) → ReferralDb → Prop
  | db, [], db' => db'.toDb = db.toDb
  | db, s :: ss, db' => s.before.toDb = db.toDb ∧ VoidPath t s.after ss db'

inductive VoidCommand
  | referee (hash : String) (id : Uuid)
  | code (index : String) (newUuid : String → Uuid)

namespace ReferralDb

def void (db : ReferralDb) (t : String) :
    VoidCommand → Except DatabaseError (Option ReferralVoidOutcome × ReferralDb)
  | .referee h id => db.voidReferralReferee t h id
  | .code c newUuid => db.voidReferralCode t c newUuid

def voidAll (t : String) : ReferralDb → List VoidCommand → Except DatabaseError ReferralDb
  | db, [] => .ok db
  | db, c :: cs => do
    let (_, db₁) ← db.void t c
    voidAll t db₁ cs

def Voids (db : ReferralDb) (t : String) : VoidCommand → String → Prop
  | .referee k _, h => h = k ∧ (db.findReferee t k).isSome
  | .code c _, h => (db.findCode t c).isSome ∧ h ∈ db.codeReferees t c

end ReferralDb

namespace VoidStep

variable {t : String} {a : Uuid} (s : VoidStep t)

section

variable (hnet : ∀ k, 0 ≤ s.before.net t a k)

include hnet

/-- The referee's net falls to its allotment the first time it is voided; no other net moves. -/
theorem net (k : String) : s.after.net t a k = if k = s.referee ∧ s.before.hasVoid t k = false
      then (s.before.allotment t a k : Int) else s.before.net t a k := by
  by_cases ha : s.account = a
  · subst ha
    rw [(s.before.voidEffect s.wf s.owns hnet s.wrote).net k]
    by_cases hk : k = s.referee
    · simp [hk]
    · simp [hk]
  · rw [(ReferralDb.writeVoidRow_untouched ha s.wrote).net k]
    split
    next hk =>
      -- All rows of the referee are its own account's.
      have hout : k ∉ s.before.order t a := by
        intro hm
        obtain ⟨b, hb⟩ := exists_mem_of_ne_nil _ (Db.mem_order.1 hm)
        obtain ⟨hb, hbk, hba⟩ := Db.mem_refereeRows.1 hb
        exact ha ((s.wf.rows_account s.owns hb (hk.1 ▸ hbk)).symm.trans hba)
      rw [Db.net_of_notMem hout, Db.allotment, Allot.share_of_notMem hout, Int.natCast_zero]
    · rfl

theorem allotment (k : String) : s.after.allotment t a k = s.before.allotment t a k := by
  by_cases ha : s.account = a
  · subst ha
    exact (s.before.voidEffect s.wf s.owns hnet s.wrote).allotment k
  · exact (ReferralDb.writeVoidRow_untouched ha s.wrote).allotment k

theorem net_nonneg (k : String) : 0 ≤ s.after.net t a k := by
  rw [s.net hnet k]
  split
  · exact Int.natCast_nonneg _
  · exact hnet k

end

end VoidStep

namespace VoidPath

variable {t : String} {a : Uuid} {db db' db'' : ReferralDb} {ss ss' : List (VoidStep t)}

theorem append (hp : VoidPath t db ss db') (hp' : VoidPath t db' ss' db'') :
    VoidPath t db (ss ++ ss') db'' := by
  induction ss generalizing db with
  | nil =>
    cases ss' with
    | nil => exact hp'.trans hp
    | cons s ss' => exact ⟨hp'.1.trans hp, hp'.2⟩
  | cons s ss ih => exact ⟨hp.1, ih hp.2⟩

/-- No net is below zero before or after any of the voids. -/
theorem net_nonneg (hnet : ∀ k, 0 ≤ db.net t a k) (hp : VoidPath t db ss db') :
    ∀ s ∈ ss, ∀ k, 0 ≤ s.before.net t a k := by
  induction ss generalizing db with
  | nil => simp
  | cons s ss ih =>
    have hs : ∀ k, 0 ≤ s.before.net t a k := by rw [hp.1]; exact hnet
    exact forall_mem_cons.2 ⟨hs, ih (s.net_nonneg hs) hp.2⟩

/-- Where the nets end: at the allotment for a referee voided for the first time. -/
theorem net (hnet : ∀ k, 0 ≤ db.net t a k) (hp : VoidPath t db ss db') (k : String) :
    db'.net t a k = if k ∈ ss.map (·.referee) ∧ db.hasVoid t k = false
      then (db.allotment t a k : Int) else db.net t a k := by
  induction ss generalizing db with
  | nil =>
    rw [show db'.toDb = db.toDb from hp]
    simp
  | cons s ss ih =>
    have hs : ∀ k, 0 ≤ s.before.net t a k := by rw [hp.1]; exact hnet
    have hnext := s.net hs k
    have hallot := s.allotment hs k
    obtain ⟨hmono, hother⟩ := ReferralDb.writeVoidRow_hasVoid (k := k) s.wrote
    rw [ih (s.net_nonneg hs) hp.2, hnext, hallot]
    rw [hp.1] at hmono hother ⊢
    by_cases hk : k = s.referee
    · cases hv : db.hasVoid t k with
      | true => simp [hmono hv]
      | false => simp [hk]
    · simp [hk, hother hk]

end VoidPath

/-! ## The two commands -/

namespace ReferralDb

variable {db db' : ReferralDb} {t h k code : String} {a c id : Uuid} {newUuid : String → Uuid}

variable {p : ReferralReferee → Bool}

theorem mem_markReferees {m : ReferralReferee} :
    m ∈ (db.markReferees p).referees ↔
      ∃ m0 ∈ db.referees, (if p m0 then { m0 with voided := true } else m0) = m :=
  mem_map

theorem Wf.markReferees (hwf : db.Wf) (p : ReferralReferee → Bool) : (db.markReferees p).Wf := by
  have hkeep : ∀ m ∈ (db.markReferees p).referees, ∃ m0 ∈ db.referees,
      m.tenantId = m0.tenantId ∧ m.refereeRefHash = m0.refereeRefHash ∧
      m.accountId = m0.accountId ∧ m.codeIndex = m0.codeIndex := by
    intro m hm
    obtain ⟨m0, hm0, rfl⟩ := mem_markReferees.1 hm
    refine ⟨m0, hm0, ?_⟩
    split <;> exact ⟨rfl, rfl, rfl, rfl⟩
  refine ⟨hwf.clock, fun b hb => ?_, fun b hb m hm hmb => ?_, fun m hm d hd ht hc => ?_⟩
  · obtain ⟨m, hm, hmb⟩ := hwf.known b hb
    refine ⟨_, mem_markReferees.2 ⟨m, hm, rfl⟩, ?_⟩
    split <;> exact hmb
  · obtain ⟨m0, hm0, ht, hh, ha, -⟩ := hkeep m hm
    rw [ha]
    refine hwf.owner b hb m0 hm0 ?_
    simpa [ReferralReferee.isReferee, ht, hh] using hmb
  · obtain ⟨m0, hm0, hmt, -, ha, hmc⟩ := hkeep m hm
    rw [ha]
    exact hwf.code m0 hm0 d hd (ht.trans hmt) (hc.trans hmc)

theorem Wf.markCode (hwf : db.Wf) : (db.markCode t code).Wf := by
  refine ⟨hwf.clock, hwf.known, hwf.owner, fun m hm d hd ht hc => ?_⟩
  obtain ⟨d0, hd0, rfl⟩ := mem_map.1 hd
  by_cases hlive : d0.live t code
  · simp only [hlive] at ht hc ⊢
    exact hwf.code m hm d0 hd0 ht hc
  · simp only [hlive] at ht hc ⊢
    exact hwf.code m hm d0 hd0 ht hc

theorem Owns.markReferees (hown : db.Owns t c h) (p : ReferralReferee → Bool) :
    (db.markReferees p).Owns t c h := by
  obtain ⟨m, hm, hmh, hmc⟩ := hown
  refine ⟨_, mem_markReferees.2 ⟨m, hm, rfl⟩, ?_⟩
  split <;> exact ⟨hmh, hmc⟩

theorem mem_codeReferees : h ∈ db.codeReferees t code ↔
    ∃ m ∈ db.referees, m.ofCode t code ∧ m.voided = false ∧ m.refereeRefHash = h := by
  simp [codeReferees, and_assoc]

/-- The rows of a loop of voids, each for a referee of the account. -/
theorem writeVoidRows_path {taken : Nat} {hs : List String} (hwf : db.Wf)
    (hown : ∀ h ∈ hs, db.Owns t c h)
    (hw : writeVoidRows t c newUuid db hs = .ok (taken, db')) :
    ∃ ss : List (VoidStep t), VoidPath t db ss db' ∧ ss.map (·.referee) = hs ∧
      db'.Wf ∧ db'.referees = db.referees ∧ db'.codes = db.codes := by
  induction hs generalizing db taken with
  | nil =>
    cases hw
    exact ⟨[], rfl, rfl, hwf, rfl, rfl⟩
  | cons h hs ih =>
    simp only [writeVoidRows, bind_eq_ok] at hw
    obtain ⟨⟨n, db1⟩, hrow, ⟨_, _⟩, hrest, hw⟩ := hw
    cases hw
    have hh := hown h (.head _)
    obtain ⟨href, hcodes, -⟩ := writeVoidRow_tables hrow
    obtain ⟨ss, hp, hss, hwf', href', hcodes'⟩ := ih (hwf.writeVoidRow hh hrow)
      (fun k hk => by
        obtain ⟨m, hm, hmk⟩ := hown k (.tail h hk)
        exact ⟨m, href ▸ hm, hmk⟩) hrest
    exact ⟨⟨db, c, h, newUuid h, n, db1, hwf, hh, hrow⟩ :: ss, ⟨rfl, hp⟩, by simp [hss], hwf',
      href'.trans href, hcodes'.trans hcodes⟩

theorem findReferee_isSome :
    (db.findReferee t h).isSome ↔ ∃ m ∈ db.referees, m.isReferee t h := by
  simp [findReferee]

theorem findCode_isSome : (db.findCode t code).isSome ↔ ∃ d ∈ db.codes, d.live t code := by
  simp [findCode]

theorem findReferee_markReferees :
    ((db.markReferees p).findReferee t h).isSome = (db.findReferee t h).isSome := by
  rw [Bool.eq_iff_iff, findReferee_isSome, findReferee_isSome]
  constructor
  · rintro ⟨m, hm, hmh⟩
    obtain ⟨m0, hm0, rfl⟩ := mem_markReferees.1 hm
    refine ⟨m0, hm0, ?_⟩
    split at hmh <;> exact hmh
  · rintro ⟨m, hm, hmh⟩
    refine ⟨_, mem_markReferees.2 ⟨m, hm, rfl⟩, ?_⟩
    split <;> exact hmh

/-- A mark takes the marked rows out of their codes' voids. -/
theorem mem_codeReferees_markReferees :
    h ∈ (db.markReferees p).codeReferees t code ↔ ∃ m ∈ db.referees, p m = false ∧
      m.ofCode t code ∧ m.voided = false ∧ m.refereeRefHash = h := by
  rw [mem_codeReferees]
  constructor
  · rintro ⟨m, hm, hcode, hv, hh⟩
    obtain ⟨m0, hm0, rfl⟩ := mem_markReferees.1 hm
    cases hp : p m0 with
    | true => simp [hp] at hv
    | false =>
      simp only [hp] at hcode hv hh
      exact ⟨m0, hm0, hp, hcode, hv, hh⟩
  · rintro ⟨m, hm, hp, hcode, hv, hh⟩
    exact ⟨m, mem_markReferees.2 ⟨m, hm, by simp [hp]⟩, hcode, hv, hh⟩

theorem live_of_ne {d : String} {e : ReferralCode} (he : e.live t d) (hne : d ≠ code) :
    e.live t code = false := by
  simp only [ReferralCode.live, decide_eq_true_eq] at he
  simp [ReferralCode.live, he.2.1, hne]

theorem findCode_markCode {d : String} : ((db.markCode t code).findCode t d).isSome ↔
    d ≠ code ∧ (db.findCode t d).isSome := by
  rw [findCode_isSome, findCode_isSome]
  constructor
  · rintro ⟨e, he, hlive⟩
    obtain ⟨e0, he0, rfl⟩ := mem_map.1 he
    by_cases hl : e0.live t code
    · rw [if_pos hl] at hlive
      simp [ReferralCode.live] at hlive
    simp only [hl] at hlive
    refine ⟨?_, e0, he0, hlive⟩
    rintro rfl
    exact hl hlive
  · rintro ⟨hne, e, he, hlive⟩
    exact ⟨e, mem_map.2 ⟨e, he, by simp [live_of_ne hlive hne]⟩, hlive⟩

/-- What a command still to come would void shrinks by what was voided, and by nothing else. -/
def Shrinks (db db' : ReferralDb) (t : String) (voided : List String) : Prop :=
  ∀ cmd h, (db'.Voids t cmd h → db.Voids t cmd h) ∧
    (db.Voids t cmd h → db'.Voids t cmd h ∨ h ∈ voided)

theorem Shrinks.refl {voided : List String} : db.Shrinks db t voided :=
  fun _ _ => ⟨fun hv => hv, .inl⟩

theorem Shrinks.referee : db.Shrinks (db.markReferees (·.isReferee t k)) t [k] := by
  intro cmd h
  cases cmd with
  | referee x id =>
    simp only [Voids, findReferee_markReferees]
    exact ⟨fun hv => hv, .inl⟩
  | code d newUuid =>
    simp only [Voids, mem_singleton]
    rw [mem_codeReferees_markReferees, mem_codeReferees]
    refine ⟨fun ⟨hd, m, hm, _, hmd⟩ => ⟨hd, m, hm, hmd⟩, fun ⟨hd, m, hm, hcode, hv, hh⟩ => ?_⟩
    by_cases hk : h = k
    · exact .inr hk
    · refine .inl ⟨hd, m, hm, ?_, hcode, hv, hh⟩
      simp [ReferralReferee.isReferee, hh, hk]

theorem Shrinks.codeReferees :
    db.Shrinks ((db.markCode t code).markReferees fun m => m.ofCode t code) t
    (db.codeReferees t code) := by
  intro cmd h
  cases cmd with
  | referee x id =>
    simp only [Voids, findReferee_markReferees]
    exact ⟨fun hv => hv, .inl⟩
  | code d newUuid =>
    have hfind : (((db.markCode t code).markReferees fun m => m.ofCode t code).findCode t d).isSome ↔
        d ≠ code ∧ (db.findCode t d).isSome := findCode_markCode
    simp only [Voids, hfind]
    rw [mem_codeReferees_markReferees, mem_codeReferees]
    refine ⟨fun ⟨⟨_, hd⟩, m, hm, _, hmd⟩ => ⟨hd, m, hm, hmd⟩, fun ⟨hd, m, hm, hcode, hv, hh⟩ => ?_⟩
    by_cases hdc : d = code
    · exact .inr (mem_codeReferees.2 ⟨m, hm, hdc ▸ hcode, hv, hh⟩)
    · refine .inl ⟨⟨hdc, hd⟩, m, hm, ?_, hcode, hv, hh⟩
      simp only [ReferralReferee.ofCode, decide_eq_true_eq] at hcode
      simp [ReferralReferee.ofCode, hcode.2, hdc]

theorem Shrinks.of_tables {voided : List String} {db'' : ReferralDb}
    (hs : db.Shrinks db' t voided) (hr : db''.referees = db'.referees)
    (hc : db''.codes = db'.codes) : db.Shrinks db'' t voided := by
  intro cmd h
  have hsame : db''.Voids t cmd h ↔ db'.Voids t cmd h := by
    cases cmd <;> simp only [Voids, findReferee, findCode, ReferralDb.codeReferees, hr, hc]
  rw [hsame]
  exact hs cmd h

/-- A void is a path of void rows, one for each referee it names. -/
theorem void_path {cmd : VoidCommand} {o : Option ReferralVoidOutcome} (hwf : db.Wf)
    (hv : db.void t cmd = .ok (o, db')) :
    ∃ ss : List (VoidStep t), VoidPath t db ss db' ∧ db'.Wf ∧
      (∀ h, h ∈ ss.map (·.referee) ↔ db.Voids t cmd h) ∧
      db.Shrinks db' t (ss.map (·.referee)) := by
  cases cmd with
  | referee k id =>
    simp only [void, voidReferralReferee] at hv
    split at hv
    next hnone =>
      cases hv
      exact ⟨[], rfl, hwf, by simp [Voids, hnone], .refl⟩
    next m hm =>
      obtain ⟨⟨o', _⟩, hl, hv⟩ := map_eq_ok.1 hv
      cases hv
      simp only [voidRefereeLocked, bind_eq_ok] at hl
      obtain ⟨⟨n, _⟩, hrow, hl⟩ := hl
      cases hl
      have hmem := mem_of_find?_eq_some hm
      have hmk := find?_some hm
      have hown : db.Owns t m.accountId k := ⟨m, hmem, hmk, rfl⟩
      have hvoids : ∀ h, h ∈ [k] ↔ db.Voids t (.referee k id) h := by simp [Voids, hm]
      obtain ⟨hr, hc, -⟩ := writeVoidRow_tables hrow
      cases hmv : m.voided with
      | true =>
        rw [hmv] at hrow hr hc
        exact ⟨[⟨db, _, k, id, n, _, hwf, hown, hrow⟩], ⟨rfl, rfl⟩, hwf.writeVoidRow hown hrow,
          hvoids, Shrinks.refl.of_tables hr hc⟩
      | false =>
        rw [hmv] at hrow hr hc
        have hwf' := hwf.markReferees (·.isReferee t k)
        have hown' := hown.markReferees (·.isReferee t k)
        exact ⟨[⟨_, _, k, id, n, _, hwf', hown', hrow⟩], ⟨rfl, rfl⟩,
          hwf'.writeVoidRow hown' hrow, hvoids, Shrinks.referee.of_tables hr hc⟩
  | code d newUuid =>
    simp only [void, voidReferralCode] at hv
    split at hv
    next hnone =>
      cases hv
      exact ⟨[], rfl, hwf, by simp [Voids, hnone], .refl⟩
    next account hacc =>
      have hsome : (db.findCode t d).isSome := by rw [hacc]; rfl
      obtain ⟨e, he, rfl⟩ := Option.map_eq_some_iff.1 hacc
      have hlive := find?_some he
      simp only [ReferralCode.live, decide_eq_true_eq] at hlive
      rw [voidCodeLocked, if_neg] at hv
      · simp only [bind_eq_ok] at hv
        obtain ⟨⟨n, _⟩, hrows, hv⟩ := hv
        cases hv
        have hwf' : ((db.markCode t d).markReferees fun m => m.ofCode t d).Wf :=
          hwf.markCode.markReferees _
        obtain ⟨ss, hp, hss, hwf'', hr, hc⟩ := writeVoidRows_path hwf' (fun h hh => by
          obtain ⟨m, hm, hcode, -, rfl⟩ := mem_codeReferees.1 hh
          simp only [ReferralReferee.ofCode, decide_eq_true_eq] at hcode
          refine Owns.markReferees ⟨m, hm, by simp [ReferralReferee.isReferee, hcode.1], ?_⟩ _
          exact hwf.code m hm e (mem_of_find?_eq_some he) (hlive.1.trans hcode.1.symm)
            (hlive.2.1.trans hcode.2.symm)) hrows
        have hmark : VoidPath t db [] ((db.markCode t d).markReferees fun m => m.ofCode t d) := rfl
        refine ⟨ss, hmark.append hp, hwf'', by simp [hss, Voids, hsome], ?_⟩
        · rw [hss]
          exact Shrinks.codeReferees.of_tables hr hc
      · simpa using findCode_isSome.1 hsome

/-- Voids one after another are a path through the referees they name. -/
theorem voidAll_path {cmds : List VoidCommand} (hwf : db.Wf)
    (hv : voidAll t db cmds = .ok db') :
    ∃ ss : List (VoidStep t), VoidPath t db ss db' ∧
      ∀ h, h ∈ ss.map (·.referee) ↔ ∃ cmd ∈ cmds, db.Voids t cmd h := by
  induction cmds generalizing db with
  | nil =>
    cases hv
    exact ⟨[], rfl, by simp⟩
  | cons cmd cmds ih =>
    simp only [voidAll, bind_eq_ok] at hv
    obtain ⟨⟨o, _⟩, hcmd, hrest⟩ := hv
    obtain ⟨ss, hp, hwf1, hss, hshrink⟩ := void_path hwf hcmd
    obtain ⟨ss', hp', hss'⟩ := ih hwf1 hrest
    refine ⟨ss ++ ss', hp.append hp', fun h => ?_⟩
    rw [map_append, mem_append, hss', hss]
    constructor
    · rintro (hh | ⟨cmd', hcmd', hh⟩)
      · exact ⟨cmd, .head _, hh⟩
      · exact ⟨cmd', .tail cmd hcmd', (hshrink _ h).1 hh⟩
    · rintro ⟨cmd', hcmd', hh⟩
      rcases mem_cons.1 hcmd' with rfl | hcmd'
      · exact .inl hh
      · rcases (hshrink _ h).2 hh with hh | hh
        · exact .inr ⟨cmd', hcmd', hh⟩
        · exact .inl ((hss h).1 hh)

end ReferralDb

/-! ## Isolation -/

/-- A void of one of the account's referees takes the referee's unsent share the first time and
nothing after that, moves no other referee's share, and leaves what was sent covered. -/
structure VoidStep.Isolated {t : String} (a : Uuid) (s : VoidStep t) : Prop where
  taken : s.taken = if s.before.hasVoid t s.referee then 0 else s.before.unsentShare t a s.referee
  owed : s.after.owedUnits t a + s.taken = s.before.owedUnits t a
  others : ∀ k, k ≠ s.referee → s.after.allotment t a k = s.before.allotment t a k ∧
    s.after.unsentShare t a k = s.before.unsentShare t a k
  covered : s.before.referralSent t a ≤ s.before.owedUnits t a →
    s.after.referralSent t a ≤ s.after.owedUnits t a

theorem VoidStep.isolated {t : String} (s : VoidStep t)
    (hnet : ∀ k, 0 ≤ s.before.net t s.account k) : s.Isolated s.account := by
  have he := s.before.voidEffect s.wf s.owns hnet s.wrote
  exact ⟨he.taken, he.owed, fun k hk => ⟨he.allotment k, he.unsent hk⟩, he.covered hnet⟩

theorem void_isolation {db db' : ReferralDb} {t : String} {a : Uuid} {cmds : List VoidCommand}
    (hwf : db.Wf) (hnet : ∀ k, 0 ≤ db.net t a k)
    (hrun : ReferralDb.voidAll t db cmds = .ok db') :
    ∃ ss : List (VoidStep t), VoidPath t db ss db' ∧
      (∀ h, h ∈ ss.map (·.referee) ↔ ∃ cmd ∈ cmds, db.Voids t cmd h) ∧
      (∀ s ∈ ss, (s.account = a → s.Isolated a) ∧
        (s.account ≠ a → Untouched t a s.before.toDb s.after.toDb)) ∧
      ∀ cmds' db'', ReferralDb.voidAll t db cmds' = .ok db'' →
        (∀ h, (∃ cmd ∈ cmds', db.Voids t cmd h) ↔ ∃ cmd ∈ cmds, db.Voids t cmd h) →
        ∀ k, db''.net t a k = db'.net t a k := by
  obtain ⟨ss, hp, hss⟩ := ReferralDb.voidAll_path hwf hrun
  refine ⟨ss, hp, hss, fun s hs => ⟨?_, fun hne => ?_⟩, fun cmds' db'' hrun' hsame k => ?_⟩
  · rintro rfl
    exact s.isolated (hp.net_nonneg hnet s hs)
  · exact ReferralDb.writeVoidRow_untouched hne s.wrote
  · obtain ⟨ss', hp', hss'⟩ := ReferralDb.voidAll_path hwf hrun'
    have hmem : k ∈ ss'.map (·.referee) ↔ k ∈ ss.map (·.referee) := by rw [hss', hss, hsame]
    rw [hp'.net hnet k, hp.net hnet k]
    by_cases hk : k ∈ ss.map (·.referee)
    · simp [hmem.2 hk, hk]
    · simp [mt hmem.1 hk, hk]

/-! ## A void before a line fails -/

section sample

def referee (h : String) : ReferralReferee := ⟨"t", h, 1, "c", false⟩

/-- Account 1 has an active link, one code, and the referees `x` and `y`. -/
def twoReferees : ReferralDb where
  toDb := { oneCreditState.db with
    links := [{ Db.carriedLink "t" 1 7 "r" "p" with state := .active }] }
  codes := [⟨"t", 1, "c", false⟩]
  referees := [referee "x", referee "y"]

def earns (h : String) (source units : Nat) : ReferralBonusWrite :=
  ⟨1, h, .bonus, some source, 1000, 10 * units, units, "v1", "near_ai_usd"⟩

def referralLine (delta : Nat) : PayoutLineWrite := ⟨3, 7, 1, delta, delta, 2, .referral, some "q"⟩

/-- `x` has earned 10 and `y` 5, and 6 are on their way. -/
def sixPending : Except DatabaseError ReferralDb := do
  let (_, db) ← twoReferees.insertReferralBonusRows "t" [(1, earns "x" 1 10), (2, earns "y" 2 5)]
  let (_, paying) ← db.insertPendingPayoutLine "t" (referralLine 6)
  return { db with toDb := paying }

/-- `x` is voided, then the line fails. -/
def voidedThenFailed : Except DatabaseError ReferralDb := do
  let (_, db) ← (← sixPending).voidReferralReferee "t" "x" 4
  return { db with toDb := (db.resolvePayoutLine "t" 3 (.failed "refused")).2 }

end sample

theorem net_nonneg_of_order {db : Db} {t : String} {a : Uuid}
    (h : ∀ k ∈ db.order t a, 0 ≤ db.net t a k) (k : String) : 0 ≤ db.net t a k := by
  by_cases hk : k ∈ db.order t a
  · exact h k hk
  · rw [Db.net_of_notMem hk]

/-- The line that failed frees 6 for `x`, which has its void row already. -/
theorem second_void_takes_nothing : ∃ db db', voidedThenFailed = .ok db ∧ db.Wf ∧
    (∀ k, 0 ≤ db.net "t" 1 k) ∧ db.unsentShare "t" 1 "x" = 6 ∧
    db.voidReferralReferee "t" "x" 9 = .ok (some ⟨some 1, 0, 0⟩, db') ∧
    db'.owedUnits "t" 1 = db.owedUnits "t" 1 := by
  have h : (voidedThenFailed.toOption.bind fun db =>
      (db.voidReferralReferee "t" "x" 9).toOption.map fun r =>
        decide (db.Wf ∧ (∀ k ∈ db.order "t" 1, 0 ≤ db.net "t" 1 k) ∧
          db.unsentShare "t" 1 "x" = 6 ∧ r.1 = some ⟨some 1, 0, 0⟩ ∧
          r.2.owedUnits "t" 1 = db.owedUnits "t" 1)) = some true := by
    decide +kernel
  obtain ⟨db, hdb, h⟩ := Option.bind_eq_some_iff.1 h
  obtain ⟨⟨o, db'⟩, hr, h⟩ := Option.map_eq_some_iff.1 h
  obtain ⟨hwf, hnet, hshare, rfl, howed⟩ := of_decide_eq_true h
  exact ⟨db, db', toOption_eq_some.1 hdb, hwf, net_nonneg_of_order hnet, hshare,
    toOption_eq_some.1 hr, howed⟩

theorem void_isolation_code : ∃ db db', sixPending = .ok db ∧
    ReferralDb.voidAll "t" db [.code "c" String.length, .referee "x" 8] = .ok db' ∧
    db.owedUnits "t" 1 = 15 ∧ db'.owedUnits "t" 1 = 6 ∧
    ∃ ss : List (VoidStep "t"), VoidPath "t" db ss db' ∧
      ∀ s ∈ ss, s.account = 1 → s.Isolated 1 := by
  have h : (sixPending.toOption.bind fun db =>
      (ReferralDb.voidAll "t" db [.code "c" String.length, .referee "x" 8]).toOption.map fun db' =>
        decide (db.Wf ∧ (∀ k ∈ db.order "t" 1, 0 ≤ db.net "t" 1 k) ∧
          db.owedUnits "t" 1 = 15 ∧ db'.owedUnits "t" 1 = 6)) = some true := by
    decide +kernel
  obtain ⟨db, hdb, h⟩ := Option.bind_eq_some_iff.1 h
  obtain ⟨db', hr, h⟩ := Option.map_eq_some_iff.1 h
  obtain ⟨hwf, hnet, howed, howed'⟩ := of_decide_eq_true h
  have hrun := toOption_eq_some.1 hr
  obtain ⟨ss, hp, -, hs, -⟩ := void_isolation hwf (net_nonneg_of_order hnet) hrun
  exact ⟨db, db', toOption_eq_some.1 hdb, hrun, howed, howed', ss, hp, fun s hm => (hs s hm).1⟩

end TraceCommons.Referral
