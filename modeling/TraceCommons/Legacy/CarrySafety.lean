import TraceCommons.Legacy.CarryAdd

/-! # Carries never outlive what authorised them

Each transaction of `Carry` keeps the promises of `CarryRules` statement by statement, so every
run of them does. -/

namespace TraceCommons.Legacy

open ReadCommitted Payout List

variable {η : Type} {H : Ids η} {x : Option (Tenant × Uuid)}

/-! ## Releases by trigger -/

section release

variable [DecidableEq η]

theorem Tables.mem_unreleased {v : Tables η} {t : Tenant} {hash : Option η}
    {account : Option Uuid} {id : Uuid} :
    id ∈ v.unreleased t hash account ↔ ∃ c, v.carry t id = some c ∧ c.released = false ∧
      hash.all (· = c.legacyLinkHash) ∧ account.all (· = c.accountId) := by
  simp only [Tables.unreleased, mem_insertionSort, mem_map, mem_filter,
    Bool.and_eq_true, Bool.not_eq_true']
  constructor
  · rintro ⟨⟨i, c⟩, ⟨hmem, ⟨hr, hh⟩, ha⟩, rfl⟩
    exact ⟨c, Tables.mem_carries.1 hmem, hr, hh, ha⟩
  · rintro ⟨c, hc, hr, hh, ha⟩
    exact ⟨(id, c), ⟨Tables.mem_carries.2 hc, ⟨hr, hh⟩, ha⟩, rfl⟩

/-- The carries that a release narrows itself to. -/
def narrowed (hash : Option η) (account : Option Uuid) : Uuid → String → η → Prop :=
  fun a _ h => hash.all (· = h) ∧ account.all (· = a)

/-- Under the tenant's lock the carries listed are all there are. -/
theorem unreleased_triple {pend : List (Write (Row η))} (hpend : Apart pend) (F : Fact H)
    (t : Tenant) (hash : Option η) (account : Option Uuid) :
    Triple (Doing H pend none F)
      (do
        lockTenant t
        let ids ← read fun db => db.unreleased t hash account
        Sql.forEach (releaseCarry t) ids)
      fun _ => Doing H pend none (F.and (.left t (narrowed hash account) [])) := by
  refine Triple.bind (B := fun _ => Doing H pend none (F.and (.lock (tenantLock t)))) ?_
    fun _ => ?_
  · refine Doing.look fun ls v v0 _ _ hf => ?_
    exact ⟨F.mono (subset_append_left _ _) hf, mem_append_right _ (mem_singleton_self _)⟩
  refine Triple.bind (B := fun ids => Doing H pend none
    (F.and (.left t (narrowed hash account) ids))) ?_ fun ids => ?_
  · refine Doing.look fun ls v v0 hagree _ hf => ?_
    rw [append_nil]
    refine ⟨hf.1, hf.2, fun id c hc hr hs => Tables.mem_unreleased.2 ⟨c, ?_, hr, hs⟩⟩
    exact (hagree _ (hpend.carry t id)).trans hc
  · exact releaseAll_triple hpend F t _ ids

theorem releaseTenantCarries_triple {pend : List (Write (Row η))} (hpend : Apart pend)
    (F : Fact H) {t : Tenant} (ht : anchoredTenant t = false) (hash : Option η)
    (account : Option Uuid) :
    Triple (Doing H pend none F) (releaseTenantCarries t hash account)
      fun _ => Doing H pend none (F.and (.left t (narrowed hash account) [])) := by
  unfold releaseTenantCarries
  rw [ht]
  exact unreleased_triple hpend F t _ _

end release

theorem apart_singleton {k : Key} {r : Option (Row η k)} (h : ∀ t id, k ≠ .link t id)
    (h' : ∀ t id, k ≠ .carry t id) : Apart ([⟨k, r⟩] : List (Write (Row η))) := by
  intro p hp t i
  rw [mem_singleton.1 hp]
  exact ⟨h t i, h' t i⟩

/-! ## Changes that leave links and carries alone -/

/-- The payout links and carries are the same. -/
structure SameLinks (v v' : Tables η) : Prop where
  carry : ∀ t id, v'.carry t id = v.carry t id
  link : ∀ t id, v'.link t id = v.link t id

theorem Puts.sameLinks {k : Key} {r : Option (Row η k)} {v v' : Tables η} (h : Puts k r v v')
    (hcarry : ∀ t id, Key.carry t id ≠ k) (hlink : ∀ t id, Key.link t id ≠ k) : SameLinks v v' :=
  ⟨fun t id => h.other _ (hcarry t id), fun t id => h.other _ (hlink t id)⟩

section sameLinks

variable {ls : List (Lock Key LockName)} {db v v' : Tables η}

section guar

variable (h : SameLinks v v') (hg : Guar ls db v) (hrows : RowsLocked ls db v')
  (hpooled : ∀ t, anchoredTenant t = false → v'.pooled t ≠ db.pooled t → tenantLock t ∈ ls)
  (haccount : ∀ t a r, db.account t a = some r → ∃ r', v'.account t a = some r' ∧
    (r.closed = false → r'.closed → .row (.account t a) .update ∈ ls ∧
      ∀ id l, db.tenantLink id = some l → l.revoked = false → l.tenantId = t →
        l.accountId = a → tenantLock l.legacyTenantId ∈ ls))
include h hg hrows hpooled haccount

theorem SameLinks.guar
    (hrevoked : ∀ id l, db.tenantLink id = some l → v'.tenantLink id ≠ some l →
      (l.revoked = false → tenantLock l.legacyTenantId ∈ ls) ∧
        ∀ l', v'.tenantLink id = some l' → l' = { l with revoked := true })
    (hlinked : ∀ id l, db.tenantLink id = none → v'.tenantLink id = some l →
      tenantLock l.legacyTenantId ∈ ls ∧ .row (.account l.tenantId l.accountId) .keyShare ∈ ls) :
    Guar ls db v' where
  rows := hrows
  carry t id hne := by
    rw [h.carry t id] at hne ⊢
    exact hg.carry t id hne
  revoked := hrevoked
  linked := hlinked
  pooled := hpooled
  account := haccount
  link t id l hl := by
    rw [h.link t id]
    exact hg.link t id l hl
  newLink t id l ht ho hn := by
    rw [h.carry t id]
    exact hg.newLink t id l ht ho ((h.link t id).symm.trans hn)
  newCarry t id c ho hn id' l' hl' ha hr hc :=
    hg.newCarry t id c ho ((h.carry t id).symm.trans hn) id' l' ((h.link t id').symm.trans hl') ha
      hr ((h.carry t id').symm.trans hc)

/-- The tenant links are the same, too. -/
theorem SameLinks.guar_of_eq (hlinks : ∀ id, v'.tenantLink id = v.tenantLink id) :
    Guar ls db v' := by
  refine h.guar hg hrows hpooled haccount (fun id l hl hne => ?_)
    fun id l ho hn => hg.linked id l ho ((hlinks id).symm.trans hn)
  rw [hlinks id] at hne ⊢
  exact hg.revoked id l hl hne

end guar

theorem SameLinks.inv (h : SameLinks v v') (hi : Inv H x v)
    (hmade : ∀ id l, v'.tenantLink id = some l → l = { H.attempt id with revoked := l.revoked })
    (hsides : ∀ id l, v'.tenantLink id = some l →
      anchoredTenant l.tenantId ∧ anchoredTenant l.legacyTenantId = false)
    (hone : ∀ id id' l l', v'.tenantLink id = some l → v'.tenantLink id' = some l' →
      l.revoked = false → l'.revoked = false → l.legacyTenantId = l'.legacyTenantId → id = id')
    (hride : ∀ t id c, v.carry t id = some c → c.released = false → v.pooled t = none →
      RidesLink H v t c.legacyLinkHash → v'.pooled t = none ∧ RidesLink H v' t c.legacyLinkHash) :
    Inv H x v' where
  made := hmade
  sides := hsides
  oneLink := hone
  carried t id c hc := by
    rw [h.link t id]
    exact hi.carried t id c ((h.carry t id).symm.trans hc)
  riding t id c hc hr := by
    rw [h.carry t id] at hc
    obtain ⟨hp, hl⟩ := hi.riding t id c hc hr
    exact hride t id c hc hr hp hl
  one t id id' c c' hc hc' := hi.one t id id' c c' ((h.carry t id).symm.trans hc)
    ((h.carry t id').symm.trans hc')
  released t id c l hne hc hr hl := hi.released t id c l hne ((h.carry t id).symm.trans hc) hr
    ((h.link t id).symm.trans hl)

theorem SameLinks.inv_of_eq (h : SameLinks v v') (hi : Inv H x v)
    (hlinks : ∀ id, v'.tenantLink id = v.tenantLink id)
    (hride : ∀ t id c, v.carry t id = some c → c.released = false → v.pooled t = none →
      RidesLink H v t c.legacyLinkHash → v'.pooled t = none ∧ RidesLink H v' t c.legacyLinkHash) :
    Inv H x v' :=
  h.inv hi (fun id l hl => hi.made id l ((hlinks id).symm.trans hl))
    (fun id l hl => hi.sides id l ((hlinks id).symm.trans hl))
    (fun id id' l l' hl hl' => hi.oneLink id id' l l' ((hlinks id).symm.trans hl)
      ((hlinks id').symm.trans hl')) hride

end sameLinks

/-! ## The end of a tenant link -/

section endTenantLink

variable {id : Uuid} {l : TenantLink} {r : Option TenantLink} {ls : List (Lock Key LockName)}
  {db v v' : Tables η}

section

variable (hr : ∀ l', r = some l' → l' = { l with revoked := true })

include hr

/-- A link that is there afterwards was there, or is this one, revoked. -/
theorem endTenantLink_cases (hp : Puts (.tenantLink id) r v v') {id' : Uuid} {k : TenantLink}
    (hk : v'.tenantLink id' = some k) : (id' ≠ id ∧ v.tenantLink id' = some k) ∨
      (id' = id ∧ k = { l with revoked := true }) := by
  by_cases hid : id' = id
  · rw [hid] at hk
    exact .inr ⟨hid, hr k (hp.self.symm.trans hk)⟩
  · exact .inl ⟨hid, (hp.other _ fun he => hid (by cases he; rfl)).symm.trans hk⟩

theorem endTenantLink_guar (hg : Guar ls db v) (hp : Puts (.tenantLink id) r v v')
    (hrow : ∃ m : Mode, m.writes ∧ .row (.tenantLink id) m ∈ ls)
    (hdb : db.tenantLink id = some l)
    (hlock : l.revoked = false → tenantLock l.legacyTenantId ∈ ls) : Guar ls db v' := by
  refine (hp.sameLinks nofun nofun).guar hg (hp.rows hg.rows hrow) (fun t ht hne => ?_)
    (fun t a k hk => ?_) (fun id' k hk hne => ?_) fun id' k ho hn => ?_
  · exact hg.pooled t ht fun he => hne ((hp.other (.pooled t) nofun).trans he)
  · have hsame : v'.account t a = v.account t a := hp.other _ nofun
    rw [hsame]
    exact hg.account t a k hk
  · by_cases hid : id' = id
    · rw [hid] at hk ⊢
      obtain rfl : l = k := Option.some.inj (hdb.symm.trans hk)
      exact ⟨hlock, fun l' hl' => hr l' (hp.self.symm.trans hl')⟩
    · have hsame : v'.tenantLink id' = v.tenantLink id' :=
        hp.other _ fun he => hid (by cases he; rfl)
      rw [hsame] at hne ⊢
      exact hg.revoked id' k hk hne
  · obtain ⟨-, hk⟩ | ⟨rfl, -⟩ := endTenantLink_cases hr hp hn
    · exact hg.linked id' k ho hk
    · exact absurd (ho.symm.trans hdb) nofun

/-- Once no live carry rides on it, a tenant link may end. -/
theorem endTenantLink_inv
    (hi : Inv H none v) (hp : Puts (.tenantLink id) r v v') (hl : v.tenantLink id = some l)
    (hleft : l.revoked = false → ∀ cid c, v.carry l.legacyTenantId cid = some c →
      c.released = false → c.legacyLinkHash ≠ H.legacyLink id) : Inv H none v' := by
  refine (hp.sameLinks nofun nofun).inv hi (fun id' k hk => ?_) (fun id' k hk => ?_)
    (fun i j k k' hk hk' hrk hrk' he => ?_) fun t cid c hc hrel hpool hride => ?_
  · obtain ⟨-, hk⟩ | ⟨rfl, hk⟩ := endTenantLink_cases hr hp hk
    · exact hi.made id' k hk
    · rw [hk, hi.made id' l hl]
  · obtain ⟨-, hk⟩ | ⟨rfl, hk⟩ := endTenantLink_cases hr hp hk
    · exact hi.sides id' k hk
    · rw [hk]
      exact hi.sides id' l hl
  · obtain ⟨-, hk⟩ | ⟨-, hk⟩ := endTenantLink_cases hr hp hk
    · obtain ⟨-, hk'⟩ | ⟨-, hk'⟩ := endTenantLink_cases hr hp hk'
      · exact hi.oneLink i j k k' hk hk' hrk hrk' he
      · rw [hk'] at hrk'
        cases hrk'
    · rw [hk] at hrk
      cases hrk
  · obtain ⟨id', k, a, hid, hk, hrk, rfl, ha, ho⟩ := hride
    refine ⟨(hp.other (.pooled _) nofun).trans hpool, id', k, a, hid, ?_, hrk, rfl,
      (hp.other (.account _ _) nofun).trans ha, ho⟩
    by_cases he : id' = id
    · rw [he] at hk hid
      obtain rfl : l = k := Option.some.inj (hl.symm.trans hk)
      exact absurd hid.symm (hleft hrk cid c hc hrel)
    · exact (hp.other _ fun h => he (by cases h; rfl)).trans hk

end

end endTenantLink

section tenantLinks

variable [DecidableEq η]

omit [DecidableEq η] in
theorem lockTenantLink_triple (id : Uuid) {m : Mode} (hm : m.writes) :
    Triple (Fresh H .top) (lockTenantLink id m)
      fun o => Fresh H (o.elim .top (.tenantLinkRow id)) := by
  refine Fresh.look fun ls v _ _ => ?_
  cases hl : AList.lookup (.tenantLink id) v with
  | none => trivial
  | some l => exact ⟨⟨m, hm, mem_append_right _ (mem_singleton_self _)⟩, hl⟩

/-- The row that ends is kept apart from the releases, which find every carry that rides on it. -/
theorem endTenantLink_triple {id : Uuid} {l : TenantLink} {r : Option TenantLink}
    (hr : ∀ l', r = some l' → l' = { l with revoked := true }) :
    Triple (Doing H [⟨.tenantLink id, r⟩] none (.tenantLinkRow id l))
      (do
        lockTenant l.legacyTenantId
        let ids ← read fun db => db.unreleased l.legacyTenantId (some (H.legacyLink id)) none
        Sql.forEach (releaseCarry l.legacyTenantId) ids)
      fun _ => Doing H [] none .top := by
  have hapart : Apart ([⟨.tenantLink id, r⟩] : List (Write (Row η))) :=
    apart_singleton nofun nofun
  refine Triple.conseq (fun _ _ _ h => h) (fun _ s w _ hd => ?_)
    (unreleased_triple hapart _ _ _ _)
  refine Doing.whole hd fun ls db v v' hg hi hf hsame hp hrow => ?_
  obtain ⟨⟨-, hl⟩, hlock, hleft⟩ := hf
  refine ⟨endTenantLink_guar hr hg hp hrow (hsame.symm.trans hl) fun _ => hlock,
    endTenantLink_inv hr hi hp hl fun _ cid c hc hrel he => ?_⟩
  exact absurd (hleft cid c hc hrel ⟨by simp [he], rfl⟩) not_mem_nil

omit [DecidableEq η] in
/-- Nothing rides on a link that was revoked already. -/
theorem endRevokedLink_triple {id : Uuid} {l : TenantLink} (hrev : l.revoked)
    {r : Option TenantLink} (hr : ∀ l', r = some l' → l' = { l with revoked := true }) :
    Triple (Doing H [⟨.tenantLink id, r⟩] none (.tenantLinkRow id l)) (pure () : Query η Unit)
      fun _ => Doing H [] none .top := by
  refine Triple.pure fun s w _ hd => Doing.whole hd fun ls db v v' hg hi hf hsame hp hrow => ?_
  have hlive : ¬ l.revoked = false := by simp [hrev]
  exact ⟨endTenantLink_guar hr hg hp hrow (hsame.symm.trans hf.2) fun h => absurd h hlive,
    endTenantLink_inv hr hi hp hf.2 fun h => absurd h hlive⟩

theorem revokeTenantLink_triple (id : Uuid) :
    Triple (Fresh H .top) (revokeTenantLink H id) fun _ => Doing H [] none .top := by
  refine .bind (lockTenantLink_triple id rfl) fun o => ?_
  cases o with
  | none => exact .pure fun _ _ hi h => Fresh.doing hi h
  | some l =>
    have hr : ∀ l', some { l with revoked := true } = some l' → l' = { l with revoked := true } :=
      fun l' h => (Option.some.inj h).symm
    refine .bind Fresh.write fun _ => ?_
    cases hrev : l.revoked with
    | true => exact endRevokedLink_triple hrev hr
    | false => exact endTenantLink_triple hr

theorem deleteTenantLink_triple (id : Uuid) :
    Triple (Fresh H .top) (deleteTenantLink H id) fun _ => Doing H [] none .top := by
  refine .bind (lockTenantLink_triple id rfl) fun o => ?_
  cases o with
  | none => exact .pure fun _ _ hi h => Fresh.doing hi h
  | some l =>
    refine .bind Fresh.write fun _ => ?_
    cases hrev : l.revoked with
    | true => exact endRevokedLink_triple hrev nofun
    | false =>
      -- A tenant link leads to a tenant of no NEAR AI namespace.
      refine .assume (fun s w _ hd => (hd.1.inv.sides id l hd.2.1.2).2) fun ht => ?_
      unfold releaseTenantCarries
      rw [ht]
      exact endTenantLink_triple nofun

end tenantLinks

/-! ## Pooled marks -/

section pooled

variable [DecidableEq η]

omit [DecidableEq η] in
theorem markPooled_guar {t : Tenant} {ls : List (Lock Key LockName)} {db v v' : Tables η}
    (hg : Guar ls db v) (hp : Puts (.pooled t) (some ()) v v')
    (hrow : ∃ m : Mode, m.writes ∧ .row (.pooled t) m ∈ ls)
    (hlock : anchoredTenant t = false → tenantLock t ∈ ls) : Guar ls db v' := by
  refine (hp.sameLinks nofun nofun).guar_of_eq hg (hp.rows hg.rows hrow)
    (fun t' ht hne => ?_) (fun t' a r hr => ?_) fun id => hp.other (.tenantLink id) nofun
  · by_cases he : t' = t
    · rw [he] at ht ⊢
      exact hlock ht
    · have hsame : v'.pooled t' = v.pooled t' := hp.other _ fun h => he (by cases h; rfl)
      exact hg.pooled t' ht (by rwa [hsame] at hne)
  · have hsame : v'.account t' a = v.account t' a := hp.other _ nofun
    rw [hsame]
    exact hg.account t' a r hr

omit [DecidableEq η] in
theorem markPooled_inv {t : Tenant} {v v' : Tables η} (hi : Inv H none v)
    (hp : Puts (.pooled t) (some ()) v v') (hleft : anchoredTenant t = false → ∀ id c,
      v.carry t id = some c → c.released) : Inv H none v' := by
  have hlinks : ∀ id, v'.tenantLink id = v.tenantLink id := fun id =>
    hp.other (.tenantLink id) nofun
  refine (hp.sameLinks nofun nofun).inv_of_eq hi hlinks fun t' id c hc hr hpool hride => ?_
  have hne : t' ≠ t := by
    rintro rfl
    rw [hleft (hi.carried t' id c hc).1 id c hc] at hr
    cases hr
  exact ⟨(hp.other (.pooled t') fun h => hne (by cases h; rfl)).trans hpool,
    hride.of_eq hlinks fun t a => hp.other (.account t a) nofun⟩

theorem markPooled_triple (t : Tenant) :
    Triple (Fresh H .top) (markPooled t) fun _ => Doing H [] none .top := by
  refine .bind (B := fun _ => Doing H [⟨.pooled t, some ()⟩] none .top) ?_ fun _ => ?_
  · refine Triple.insert fun s w hi hf _ _ => ?_
    exact Doing.defer (Fresh.doing hi hf) _ _ _ (by rw [Fresh.view_eq hf]) fun _ _ => trivial
  cases ht : anchoredTenant t with
  | true =>
    unfold releaseTenantCarries
    rw [ht]
    have hno : ¬ anchoredTenant t = false := by simp [ht]
    refine Triple.pure fun s w _ hd => Doing.whole hd fun ls db v v' hg hi _ _ hp hrow => ?_
    exact ⟨markPooled_guar hg hp hrow fun h => absurd h hno,
      markPooled_inv hi hp fun h => absurd h hno⟩
  | false =>
    have hapart : Apart ([⟨.pooled t, some ()⟩] : List (Write (Row η))) :=
      apart_singleton nofun nofun
    refine Triple.conseq (fun _ _ _ h => h) (fun _ s w _ hd => ?_)
      (releaseTenantCarries_triple hapart _ ht _ _)
    refine Doing.whole hd fun ls db v v' hg hi hf _ hp hrow => ?_
    refine ⟨markPooled_guar hg hp hrow fun _ => hf.2.1, markPooled_inv hi hp fun _ id c hc => ?_⟩
    by_contra hr
    exact absurd (hf.2.2 id c hc (by simpa using hr) ⟨rfl, rfl⟩) not_mem_nil

end pooled

/-! ## Closing an account -/

section close

variable {t : Tenant} {a : Uuid} {ls : List (Lock Key LockName)} {db v v' : Tables η}

theorem account_ne {t t' : Tenant} {a a' : Uuid} (h : ¬ (t' = t ∧ a' = a)) :
    Key.account t' a' ≠ .account t a := by
  intro he
  cases he
  exact h ⟨rfl, rfl⟩

theorem closeAccount_guar {r' : Account} (hg : Guar ls db v)
    (hp : Puts (.account t a) (some r') v v') (hrow : .row (.account t a) .update ∈ ls)
    (hlinks : ∀ id l, v.tenantLink id = some l → l.revoked = false → l.tenantId = t →
      l.accountId = a → tenantLock l.legacyTenantId ∈ ls) : Guar ls db v' := by
  refine (hp.sameLinks nofun nofun).guar_of_eq hg (hp.rows hg.rows ⟨.update, rfl, hrow⟩)
    (fun t' ht hne => ?_) (fun t' a' r hr => ?_) fun id => hp.other _ nofun
  · have hpool : v'.pooled t' = v.pooled t' := hp.other _ nofun
    exact hg.pooled t' ht (by rwa [hpool] at hne)
  by_cases he : t' = t ∧ a' = a
  · obtain ⟨rfl, rfl⟩ := he
    refine ⟨r', hp.self, fun _ _ => ⟨hrow, fun id l hl hrev ht ha => ?_⟩⟩
    by_cases hv : v.tenantLink id = some l
    · exact hlinks id l hv hrev ht ha
    · exact (hg.revoked id l hl hv).1 hrev
  · have hacc : v'.account t' a' = v.account t' a' := hp.other _ (account_ne he)
    rw [hacc]
    exact hg.account t' a' r hr

/-- Once no live carry rides on a link of it, an account may close. -/
theorem closeAccount_inv {r' : Account} (hi : Inv H none v)
    (hp : Puts (.account t a) (some r') v v')
    (hleft : ∀ id l, v.tenantLink id = some l → l.revoked = false → l.tenantId = t →
      l.accountId = a → ∀ cid c, v.carry l.legacyTenantId cid = some c →
        c.legacyLinkHash = H.legacyLink id → c.released) : Inv H none v' := by
  refine (hp.sameLinks nofun nofun).inv_of_eq hi (fun id => hp.other _ nofun)
    fun t' cid c hc hr hpool hride => ⟨(hp.other (.pooled t') nofun).trans hpool, ?_⟩
  obtain ⟨id, l, k, hid, hl, hrev, rfl, hacc, ho⟩ := hride
  refine ⟨id, l, k, hid, (hp.other (.tenantLink id) nofun).trans hl, hrev, rfl, ?_, ho⟩
  have hne : ¬ (l.tenantId = t ∧ l.accountId = a) := by
    rintro ⟨ht, ha⟩
    rw [hleft id l hl hrev ht ha cid c hc hid.symm] at hr
    cases hr
  exact (hp.other _ (account_ne hne)).trans hacc

end close

section closeTriples

variable [DecidableEq η] {t : Tenant} {a : Uuid} {r' : Account}

/-- A source that closes releases what rides on each of its links. -/
theorem closeSource_triple (links : List (Uuid × TenantLink)) :
    Triple (Doing H [⟨.account t a, some r'⟩] none (.closing t a links))
      (Sql.forEach (fun y => releaseTenantCarries y.2.legacyTenantId (some (H.legacyLink y.1)) none)
        links)
      fun _ => Doing H [⟨.account t a, some r'⟩] none (.closing t a []) := by
  refine Triple.forEach (A := fun links => Doing H _ _
    (.closing t a links)) (fun y todo => ?_) _
  cases ht : anchoredTenant _ with
  | true =>
    unfold releaseTenantCarries
    rw [ht]
    refine Doing.pure fun ls v hi hf => ⟨hf.1, fun id l hl hrev hlt hla => ?_⟩
    refine (hf.2 id l hl hrev hlt hla).imp_left fun ⟨l', hmem, he⟩ => ⟨l', ?_, he⟩
    refine (mem_cons.1 hmem).resolve_left fun hy => ?_
    have ht' : anchoredTenant l'.legacyTenantId := by
      rw [← hy] at ht
      exact ht
    rw [he, (hi.sides id l hl).2] at ht'
    cases ht'
  | false =>
    have hapart : Apart ([⟨.account t a, some r'⟩] : List (Write (Row η))) :=
      apart_singleton nofun nofun
    refine Doing.conseq (releaseTenantCarries_triple hapart _ ht
      _ _) (fun _ _ _ h => h) ?_
    rintro _ ls v hi ⟨hf, hlock, hleft⟩
    refine ⟨hf.1, fun id l hl hrev hlt hla => ?_⟩
    rcases hf.2 id l hl hrev hlt hla with ⟨l', hmem, he⟩ | hdone
    · rcases mem_cons.1 hmem with rfl | hmem
      · refine .inr ⟨he ▸ hlock, fun cid c hc hh => ?_⟩
        rw [← he] at hc
        by_contra hr
        exact absurd (hleft cid c hc (by simpa using hr) ⟨by simp [hh], rfl⟩) not_mem_nil
      · exact .inl ⟨l', hmem, he⟩
    · exact .inr hdone

/-- The row of the account is held against everybody. -/
def accountLock (t : Tenant) (a : Uuid) : Lock Key LockName := .row (.account t a) .update

theorem closeReleasesCarries_triple (t : Tenant) (a : Uuid) (r' : Account) :
    Triple (Doing H [⟨.account t a, some r'⟩] none (.lock (accountLock t a)))
      (closeReleasesCarries H t a) fun _ => Doing H [] none .top := by
  unfold closeReleasesCarries
  cases ht : anchoredTenant t with
  | true =>
    refine Triple.bind (B := fun links => Doing H [⟨.account t a, some r'⟩] none
      (.closing t a links)) ?_ fun links => ?_
    · refine Doing.look fun ls v v0 hagree _ hlock => ?_
      rw [append_nil]
      refine ⟨hlock, fun id l hl hrev hlt hla => .inl ⟨l, ?_, rfl⟩⟩
      have hv : v.tenantLink id = some l := (hagree _ (by simp [keys])).trans hl
      rw [mem_insertionSort, mem_filter]
      exact ⟨Tables.mem_tenantLinks.2 hv, by simp [hlt, hla, hrev]⟩
    · refine Triple.conseq (fun _ _ _ h => h) (fun _ s w _ hd => ?_) (closeSource_triple _)
      refine Doing.whole hd fun ls db v v' hg hi hf _ hp _ => ?_
      have hdone : ∀ id l, v.tenantLink id = some l → l.revoked = false → l.tenantId = t →
          l.accountId = a → tenantLock l.legacyTenantId ∈ ls ∧ ∀ cid c,
            v.carry l.legacyTenantId cid = some c → c.legacyLinkHash = H.legacyLink id →
              c.released := fun id l hl hrev hlt hla =>
        (hf.2 id l hl hrev hlt hla).resolve_left (by simp)
      exact ⟨closeAccount_guar hg hp hf.1 fun id l hl hrev hlt hla => (hdone id l hl hrev hlt hla).1,
        closeAccount_inv hi hp fun id l hl hrev hlt hla => (hdone id l hl hrev hlt hla).2⟩
  | false =>
    -- No tenant link has a source outside the NEAR AI namespaces.
    have hend : ∀ s w, Doing H [⟨.account t a, some r'⟩] none (.lock (accountLock t a)) s w →
        Doing H [] none .top s w := by
      refine fun s w hd => Doing.whole hd fun ls db v v' hg hi hf _ hp _ => ?_
      have hno : ∀ {id l}, v.tenantLink id = some l → l.tenantId ≠ t := by
        rintro id l hl rfl
        rw [(hi.sides id l hl).1] at ht
        cases ht
      exact ⟨closeAccount_guar hg hp hf fun id l hl _ hlt => absurd hlt (hno hl),
        closeAccount_inv hi hp fun id l hl _ hlt => absurd hlt (hno hl)⟩
    refine Triple.bind Doing.keep fun carried => ?_
    cases carried with
    | false => exact .pure fun s w _ hd => hend s w hd
    | true =>
      have hapart : Apart ([⟨.account t a, some r'⟩] : List (Write (Row η))) :=
        apart_singleton (by simp) (by simp)
      have hrelease := releaseTenantCarries_triple hapart (H := H) (.lock (accountLock t a)) ht none
        (some a)
      refine .conseq (fun _ _ _ h => h) (fun _ s w _ hd => hend s w ?_) hrelease
      exact ⟨hd.1, hd.2.1.1, hd.2.2⟩

theorem mergeClose_triple (t : Tenant) (a : Uuid) :
    Triple (Fresh H .top) (mergeClose H t a) fun _ => Doing H [] none .top := by
  unfold mergeClose
  split
  on_goal 1 =>
    refine .bind Fresh.keep fun tenants => .bind
      (.forEach (A := fun _ => Fresh H _) (fun _ _ => Fresh.keep) _) fun _ => ?_
  on_goal 2 => refine .bind Fresh.keep fun _ => ?_
  all_goals
    refine .bind (B := fun _ => Fresh H (.lock (accountLock t a))) ?_ fun o => ?_
    · exact Fresh.look fun ls v _ _ => mem_append_right _ (mem_singleton_self _)
    cases o with
    | none => exact .fail
    | some r =>
      dsimp only
      split
      · exact .fail
      · exact .bind Fresh.write fun _ => closeReleasesCarries_triple t a _

end closeTriples

/-! ## New rows -/

theorem insertAccount_triple (t : Tenant) (a : Uuid) (r : Account) :
    Triple (Fresh H .top) (insertAccount t a r) fun _ => Doing H [] none .top := by
  refine Fresh.insert fun ls v v' hi _ hnone _ hrow _ hp => ?_
  have hlinks : ∀ id, v'.tenantLink id = v.tenantLink id := fun id =>
    hp.other _ nofun
  have hg := Guar.refl ls v
  have hacc : ∀ {t' a' k}, v.account t' a' = some k → v'.account t' a' = some k := by
    intro t' a' k hk
    refine (hp.other _ fun he => ?_).trans hk
    cases he
    exact absurd (hnone.symm.trans hk) nofun
  refine ⟨(hp.sameLinks nofun nofun).guar_of_eq hg (hp.rows hg.rows ⟨.update, rfl, hrow⟩)
    (fun t' _ hne => absurd (hp.other (.pooled t') nofun) hne) (fun t' a' k hk => ?_) hlinks, ?_,
    trivial⟩
  · obtain ⟨k', hk', hclose⟩ := hg.account t' a' k hk
    exact ⟨k', hacc hk', hclose⟩
  refine (hp.sameLinks nofun nofun).inv_of_eq hi hlinks fun t' id c hc hr hpool hride => ?_
  obtain ⟨i, l, k, hid, hl, hrev, ht, hk, ho⟩ := hride
  exact ⟨(hp.other (.pooled t') nofun).trans hpool, i, l, k, hid, (hlinks i).trans hl, hrev, ht,
    hacc hk, ho⟩

/-- A tenant link of a tenant that has no live one. -/
theorem insertTenantLink_triple {id : Uuid} {l : TenantLink}
    (hmade : l = { H.attempt id with revoked := l.revoked }) (hside : anchoredTenant l.tenantId)
    (hside' : anchoredTenant l.legacyTenantId = false) :
    Triple (Fresh H (.lock (tenantLock l.legacyTenantId))) (insertTenantLink id l)
      fun _ => Doing H [] none .top := by
  refine Fresh.insert fun ls v v' hi hlock hnone hclash hrow href hp => ?_
  have hg := Guar.refl ls v
  have hself : v'.tenantLink id = some l := hp.self
  have hother : ∀ {id'}, id' ≠ id → v'.tenantLink id' = v.tenantLink id' := fun hne =>
    hp.other _ fun he => hne (by cases he; rfl)
  have hacc : ∀ t a, v'.account t a = v.account t a := fun t a => hp.other _ nofun
  have hold : ∀ {id' k}, v.tenantLink id' = some k → v'.tenantLink id' = some k := by
    intro _ k hk
    refine (hother fun he => ?_).trans hk
    rw [he] at hk
    exact absurd (hnone.symm.trans hk) nofun
  have hcases : ∀ {id' k}, v'.tenantLink id' = some k →
      (id' = id ∧ l = k) ∨ v.tenantLink id' = some k := by
    intro id' k hk
    by_cases he : id' = id
    · rw [he, hself] at hk
      exact .inl ⟨he, Option.some.inj hk⟩
    · exact .inr ((hother he).symm.trans hk)
  -- The index refused it if the tenant had a live link.
  have hfree : ∀ {id' k}, v.tenantLink id' = some k → k.revoked = false →
      k.legacyTenantId ≠ l.legacyTenantId := by
    intro id' k hk hr he
    have hany := any_eq_false.1 (Bool.or_eq_false_iff.1 hclash).2 _
      (Tables.mem_tenantLinks.2 hk)
    simp [he, hr] at hany
  refine ⟨(hp.sameLinks nofun nofun).guar hg (hp.rows hg.rows ⟨.update, rfl, hrow⟩)
    (fun t _ hne => absurd (hp.other (.pooled t) nofun) hne) (fun t a r hr => ?_)
    (fun id' k hk hne => absurd (hold hk) hne) (fun id' k ho hn => ?_), ?_, trivial⟩
  · rw [hacc t a]
    exact hg.account t a r hr
  · obtain ⟨_, rfl⟩ | hk := hcases hn
    · exact ⟨hlock, href (mem_singleton_self _)⟩
    · exact absurd (ho.symm.trans hk) nofun
  · refine (hp.sameLinks nofun nofun).inv hi (fun id' k hk => ?_) (fun id' k hk => ?_)
      (fun i j k k' hk hk' hr hr' ht => ?_) fun t cid c hc hr hpool hride => ?_
    · obtain ⟨rfl, rfl⟩ | hk := hcases hk
      · exact hmade
      · exact hi.made id' k hk
    · obtain ⟨_, rfl⟩ | hk := hcases hk
      · exact ⟨hside, hside'⟩
      · exact hi.sides id' k hk
    · obtain ⟨rfl, rfl⟩ | hk := hcases hk
      · obtain ⟨rfl, -⟩ | hk' := hcases hk'
        · rfl
        · exact absurd ht.symm (hfree hk' hr')
      · obtain ⟨_, rfl⟩ | hk' := hcases hk'
        · exact absurd ht (hfree hk hr)
        · exact hi.oneLink i j k k' hk hk' hr hr' ht
    · obtain ⟨i, k, r, hid, hk, hrev, hkt, ha, ho⟩ := hride
      exact ⟨(hp.other (.pooled t) nofun).trans hpool, i, k, r, hid, hold hk, hrev, hkt,
        (hacc _ _).trans ha, ho⟩

/-- A new link of a source, whose tenant has no carries. -/
theorem insertLink_triple {t : Tenant} (ht : anchoredTenant t) (id : Uuid) (l : Link) :
    Triple (Fresh H .top) (insertLink t id l) fun _ => Doing H [] none .top := by
  refine Fresh.insert fun ls v v' hi _ hnone _ hrow _ hp => ?_
  have hcarry : ∀ t' i, v'.carry t' i = v.carry t' i := fun t' i => hp.other _ nofun
  have hlinks : ∀ i, v'.tenantLink i = v.tenantLink i := fun i => hp.other _ nofun
  have hacc : ∀ t' a, v'.account t' a = v.account t' a := fun t' a =>
    hp.other _ nofun
  have hother : ∀ {t'}, anchoredTenant t' = false → ∀ i, v'.link t' i = v.link t' i := by
    intro t' ht' i
    refine hp.other _ fun he => ?_
    cases he
    rw [ht'] at ht
    cases ht
  have hold : ∀ {t' i k}, v.link t' i = some k → v'.link t' i = some k := by
    intro t' i k hk
    refine (hp.other _ fun he => ?_).trans hk
    cases he
    exact absurd (hnone.symm.trans hk) nofun
  refine ⟨?_, ?_, trivial⟩
  · exact
    { Guar.refl ls v with
      rows := hp.rows (Guar.refl ls v).rows ⟨.update, rfl, hrow⟩
      carry := fun t' i hne => absurd (hcarry t' i) hne
      revoked := fun i k hk hne => absurd ((hlinks i).trans hk) hne
      linked := fun i k ho hn => (Guar.refl ls v).linked i k ho ((hlinks i).symm.trans hn)
      pooled := fun t' _ hne => absurd (hp.other (.pooled t') nofun) hne
      account := fun t' a r hr => by
        rw [hacc t' a]
        exact (Guar.refl ls v).account t' a r hr
      link := fun t' i k hk => ⟨k, hold hk, .rfl⟩
      newLink := fun t' i k ht' ho hn => absurd (ho.symm.trans ((hother ht' i).symm.trans hn)) nofun
      newCarry := fun t' i c ho hn => absurd (ho.symm.trans ((hcarry t' i).symm.trans hn)) nofun }
  · exact
    { made := fun i k hk => hi.made i k ((hlinks i).symm.trans hk)
      sides := fun i k hk => hi.sides i k ((hlinks i).symm.trans hk)
      oneLink := fun i j k k' hk hk' => hi.oneLink i j k k' ((hlinks i).symm.trans hk)
        ((hlinks j).symm.trans hk')
      carried := fun t' i c hc => by
        obtain ⟨ht', k, hk, h⟩ := hi.carried t' i c ((hcarry t' i).symm.trans hc)
        exact ⟨ht', k, hold hk, h⟩
      riding := fun t' i c hc hr => by
        obtain ⟨hpool, hride⟩ := hi.riding t' i c ((hcarry t' i).symm.trans hc) hr
        exact ⟨(hp.other (.pooled t') nofun).trans hpool, hride.of_eq hlinks hacc⟩
      one := fun t' i j c c' hc hc' => hi.one t' i j c c' ((hcarry t' i).symm.trans hc)
        ((hcarry t' j).symm.trans hc')
      released := fun t' i c k hne hc hr hk => by
        rw [hcarry t' i] at hc
        exact hi.released t' i c k hne hc hr
          ((hother (hi.carried t' i c hc).1 i).symm.trans hk) }

/-! ## Moves of links -/

section moves

theorem updateLink_triple {F : Fact H} {t : Tenant} {id : Uuid}
    {f : Tables η → Link → Option Link} (hf : ∀ v l l', f v l = some l' → l.Moves l') :
    Triple (Doing H [] none F) (updateLink t id f) fun _ => Doing H [] none F := by
  refine Doing.update not_mem_nil (fun ls v v0 hi h _ => ⟨hi, h⟩)
    fun ls db v v0 l' hg hi h hb v1 hp hrow => ?_
  obtain ⟨l, hl, hb⟩ := Option.bind_eq_some_iff.1 hb
  have hmove := hf v l l' hb
  have hm : Moved v0 v1 := hp.moved_link hl hmove
  refine ⟨hg.moved hm (hp.rows hg.rows hrow) fun t' i hne =>
    absurd (hp.other (.carry t' i) nofun) hne, hi.moved hm fun t' i c k _ hc hr hk => ?_,
    F.moved hm h⟩
  obtain ⟨k0, hk0, hmk⟩ := hm.link_of_some hk
  exact hmk.kept (hi.released t' i c k0 nofun ((hp.other (.carry t' i) nofun).symm.trans hc) hr hk0)

theorem unlinkRequested_moves {l l' : Link} (h : (if l.state = .active && !l.unlinkRequested then
    some { l with unlinkRequested := true } else none) = some l') : l.Moves l' := by
  split at h
  next hact =>
    cases h
    simp only [Bool.and_eq_true, decide_eq_true_eq] at hact
    exact ⟨rfl, rfl, fun _ => by simp [Link.kept, hact.1]⟩
  · cases h

theorem transition_moves {l : Link} {old new : PayoutLinkState}
    (hfits : fitsLinkTransition old new) (hold : l.state = old) :
    l.Moves { l with state := new } := by
  refine ⟨rfl, rfl, fun hk => ?_⟩
  cases old <;> cases new <;> simp [fitsLinkTransition] at hfits <;> simp_all [Link.kept]

theorem transitionPayoutLink_triple (t : Tenant) (id : Uuid) (old new : PayoutLinkState) :
    Triple (Doing H [] none .top) (transitionPayoutLink t id old new)
      fun _ => Doing H [] none .top := by
  unfold transitionPayoutLink
  split
  next hfits =>
    refine .bind (updateLink_triple fun v l l' h => ?_) fun moved => ?_
    · split at h
      next hmove =>
        cases h
        simp only [Bool.and_eq_true, decide_eq_true_eq] at hmove
        exact transition_moves hfits hmove.1
      · cases h
    · split
      · exact .pure fun _ _ _ h => h
      · exact .fail
  · exact .fail

theorem closePayoutLinkStreams_triple (t : Tenant) (id : Uuid) (paid : Nat)
    (successor : Option Uuid) :
    Triple (Doing H [] none .top) (closePayoutLinkStreams t id paid successor)
      fun _ => Doing H [] none .top := by
  refine Triple.bind (B := fun o => Doing H [] none (o.elim .top (.linkOf t id))) ?_ fun o => ?_
  · refine Doing.look fun ls v v0 hagree _ _ => ?_
    have hv : v.lookup (.link t id) = v0.link t id := hagree.lookup _
    rw [hv]
    cases hl : v0.link t id with
    | none => trivial
    | some l => exact ⟨l, hl, rfl, rfl⟩
  cases o with
  | none => exact .fail
  | some l =>
    dsimp only
    split
    next hstate =>
      refine .bind (B := fun _ => Doing H [] none .top) ?_ fun _ => ?_
      · refine .conseq (fun s w _ hd => ?_) (fun _ _ _ _ h => h)
          (endLink_put apart_nil (F := .top) (l := l) rfl rfl rfl)
        obtain ⟨hok, hf, hmade⟩ := hd
        refine ⟨⟨hok.locked, hok.guar, hok.inv.moved (Moved.refl _) ?_⟩, ⟨trivial, hf⟩, hmade⟩
        exact fun t' i c k _ hc hr hk => hok.inv.released t' i c k nofun hc hr hk
      · cases successor with
        | none => exact .pure fun _ _ _ h => h
        | some next =>
          refine .bind (updateLink_triple fun v k k' h => ?_) fun activated => ?_
          · split at h
            next hwait =>
              cases h
              simp only [Bool.and_eq_true, decide_eq_true_eq] at hwait
              exact transition_moves rfl hwait.1.1.1
            · cases h
          · split
            · exact .pure fun _ _ _ h => h
            · exact .fail
    · exact .fail

end moves

/-! ## Every transaction -/

section commands

variable [DecidableEq η]

theorem confirmCarry_triple (t : Tenant) (a : Uuid) (rail : String) (call : Option CarryCall) :
    Triple (Doing H [] none .top) (confirmCarry H t a rail call) fun _ => Doing H [] none .top := by
  cases call with
  | none => exact .pure fun _ _ _ h => h
  | some call =>
    exact .bind (carryInTx_triple _ t a _) fun _ => .pure fun _ _ _ h => h

theorem confirmUnlink_triple (t : Tenant) (a : Uuid) (rail : String) (call : Option CarryCall) :
    Triple (Doing H [] none .top) (confirmUnlink H t a rail call)
      fun _ => Doing H [] none .top := by
  unfold confirmUnlink
  split
  · refine .bind Doing.keep fun _ => .bind Doing.keep fun active => ?_
    cases active with
    | none => exact .pure fun _ _ _ h => h
    | some y =>
      refine .bind (updateLink_triple fun _ _ _ h => unlinkRequested_moves h) fun marked => ?_
      split
      · exact confirmCarry_triple t a _ _
      · exact .pure fun _ _ _ h => h
  · exact .fail

omit [DecidableEq η] in
theorem linkLegacyTenant_triple (id : Uuid) :
    Triple (Fresh H .top) (linkLegacyTenant H id) fun _ => Doing H [] none .top := by
  have hdone : Triple (Fresh H .top) (pure () : Query η Unit) fun _ => Doing H [] none .top :=
    Triple.pure fun _ _ hi h => Fresh.doing hi h
  refine .bind Fresh.keep fun eligible => ?_
  dsimp only
  split
  next hsides =>
    simp only [Bool.and_eq_true, Bool.not_eq_true'] at hsides
    refine .bind Fresh.keep fun pooled => ?_
    split
    · exact hdone
    refine .bind (B := fun _ => Fresh H
      (.lock (tenantLock (H.attempt id).legacyTenantId))) ?_ fun _ => ?_
    · exact Fresh.look fun ls v _ _ => mem_append_right _ (mem_singleton_self _)
    refine .bind Fresh.keep fun existing => ?_
    split
    · exact Triple.pure fun _ _ hi h => Doing.weaken (fun _ _ _ _ => trivial) (Fresh.doing hi h)
    · exact insertTenantLink_triple (l := { H.attempt id with revoked := false }) rfl hsides.1.1
        hsides.1.2
  · exact hdone

theorem openAccount_triple (t : Tenant) (a : Uuid) (opened : Bool)
    (rails : List (String × CarryCall)) :
    Triple (Fresh H .top) (openAccount H t a opened rails) fun _ => Doing H [] none .top := by
  have hcarry := carryOpenedAccountInTx_triple (H := H) t a opened rails
  cases opened with
  | true =>
    exact .bind (insertAccount_triple t a ⟨false⟩) fun _ =>
      Triple.bind hcarry fun _ => .pure fun _ _ _ h => h
  | false =>
    refine .conseq (fun _ _ hi h => Fresh.doing hi h) (fun _ _ _ _ h => h) ?_
    exact .bind hcarry fun _ => .pure fun _ _ _ h => h

theorem query_triple (c : Command η) :
    Triple (Fresh H .top) (c.query H) fun _ => Doing H [] none .top := by
  have hfresh : ∀ {q : Query η Unit},
      Triple (Doing H [] none .top) q (fun _ => Doing H [] none .top) →
      Triple (Fresh H .top) q fun _ => Doing H [] none .top :=
    Triple.conseq (fun _ _ hi hf => Fresh.doing hi hf) (fun _ _ _ _ h => h)
  cases c with
  | confirmLink t a rail id l call =>
    rw [Command.query]
    unfold Legacy.confirmLink
    split
    next ht =>
      exact .bind Fresh.keep fun _ => .bind (insertLink_triple ht id _) fun _ =>
        confirmCarry_triple t a _ _
    · exact .fail
  | confirmUnlink t a rail call => exact hfresh (confirmUnlink_triple t a _ _)
  | carryLegacyPayoutLinks t a rail call =>
    exact hfresh (.bind Doing.keep fun _ => .bind (carryInTx_triple _ t a _)
      fun _ => .pure fun _ _ _ h => h)
  | openAccount t a opened rails => exact openAccount_triple t a _ _
  | linkLegacyTenant id => exact linkLegacyTenant_triple id
  | revokeTenantLink id => exact revokeTenantLink_triple id
  | deleteTenantLink id => exact deleteTenantLink_triple id
  | markPooled t => exact markPooled_triple t
  | mergeClose t a => exact mergeClose_triple t a
  | transitionPayoutLink t id old new => exact hfresh (transitionPayoutLink_triple t id old new)
  | closePayoutLinkStreams t id paid successor =>
    exact hfresh (closePayoutLinkStreams_triple t id _ _)
  | markPayoutLinkUnlinkRequested t id =>
    exact hfresh (.bind (updateLink_triple fun _ _ _ h => unlinkRequested_moves h)
      fun _ => .pure fun _ _ _ h => h)

theorem tx_safe (c : Command η) {w : CarryWorld η} (hi : (protocol H).inv w) :
    (c.tx H).Safe (protocol H) .empty w := by
  refine Triple.tx (query_triple c) (fun s w _ hd => ?_) (fun w hi => ⟨rfl, trivial⟩) hi
  obtain ⟨hok, -, -⟩ := hd
  rw [keys, map_nil, Local.without_nil] at hok
  exact ⟨hok.inv, hok.guar⟩

end commands

/-! ## Runs -/

/-- There are no carries yet. The tenant links are ones that `trace_link_legacy_invite` made, at
most one of them live for each legacy tenant. -/
structure Start (H : Ids η) (db : Tables η) : Prop where
  carries : ∀ t id, db.carry t id = none
  made : ∀ id l, db.tenantLink id = some l → l = { H.attempt id with revoked := l.revoked }
  sides : ∀ id l, db.tenantLink id = some l →
    anchoredTenant l.tenantId ∧ anchoredTenant l.legacyTenantId = false
  oneLink : ∀ id id' l l', db.tenantLink id = some l → db.tenantLink id' = some l' →
    l.revoked = false → l'.revoked = false → l.legacyTenantId = l'.legacyTenantId → id = id'

theorem Start.inv {db : Tables η} (h : Start H db) : Inv H none db where
  made := h.made
  sides := h.sides
  oneLink := h.oneLink
  carried t id _ hc := absurd ((h.carries t id).symm.trans hc) nofun
  riding t id _ hc := absurd ((h.carries t id).symm.trans hc) nofun
  one t id _ _ _ hc := absurd ((h.carries t id).symm.trans hc) nofun
  released t id _ _ _ hc := absurd ((h.carries t id).symm.trans hc) nofun

abbrev CarryState (η : Type) : Type := State (Row η) LockName Unit

def CarryState.start (db : Tables η) : CarryState η := ⟨⟨db, ()⟩, ∅⟩

def CarryState.tables (s : CarryState η) : Tables η := s.world.db

theorem Link.ending_of_not_kept {l : Link} (h : l.kept = false) :
    l.state = .closing ∨ l.state = .closed ∨ l.unlinkRequested := by
  cases hs : l.state <;> simp_all [Link.kept]

section runs

variable [DecidableEq η]

theorem good_of_run {db : Tables η} (hstart : Start H db) {es : List (Event (Command η))}
    {s : CarryState η} (h : (CarryState.start db).run (Command.tx H) es = some s) :
    s.Good (protocol H) := by
  have hgood : State.Good (protocol H) (CarryState.start db) := State.Good.start hstart.inv
  exact (hgood.run (Q := fun _ => True) (fun c _ hi => tx_safe c hi) (fun _ _ _ _ _ _ h => h)
    trivial h).1

/-- In every run and at every moment of it: what an unreleased carry rides on is in force, there
is one for an account and rail, and a released carry's link has ended or is to be unlinked. A step
that adds a carry adds it beside no link of the account's own that is waiting, or active and not
asked to unlink. -/
theorem carries_in_force {db : Tables η} (hstart : Start H db) {es : List (Event (Command η))}
    {s : CarryState η} (h : (CarryState.start db).run (Command.tx H) es = some s) :
    (∀ t id c, s.tables.carry t id = some c → c.released = false →
      s.tables.pooled t = none ∧ RidesLink H s.tables t c.legacyLinkHash) ∧
    (∀ t id id' c c', s.tables.carry t id = some c → s.tables.carry t id' = some c' →
      c.released = false → c'.released = false → c.accountId = c'.accountId →
      c.railId = c'.railId → id = id') ∧
    (∀ t id c, s.tables.carry t id = some c → c.released → ∃ l, s.tables.link t id = some l ∧
      (l.state = .closing ∨ l.state = .closed ∨ l.unlinkRequested)) ∧
    ∀ e (s' : CarryState η), s.step (Command.tx H) e = some s' → ∀ t id c,
      s.tables.carry t id = none → s'.tables.carry t id = some c → ∀ id' l,
        s'.tables.link t id' = some l → s'.tables.carry t id' = none →
        l.accountId = c.accountId → l.railId = c.railId →
          l.state ≠ .waiting ∧ (l.state = .active → l.unlinkRequested) := by
  have hgood := good_of_run hstart h
  have hi : Inv H none s.tables := hgood.inv
  refine ⟨hi.riding, hi.one, fun t id c hc hr => ?_, ?_⟩
  · obtain ⟨-, l, hl, -⟩ := hi.carried t id c hc
    exact ⟨l, hl, Link.ending_of_not_kept (hi.released t id c l nofun hc hr hl)⟩
  intro e s' he t id c ho hn id' l hl hown ha hr
  obtain ⟨-, hsame | ⟨ls, hg⟩⟩ := hgood.step (fun c _ hi => tx_safe c hi) he
  · have htables : s'.tables = s.tables := congrArg World.db hsame
    rw [htables, ho] at hn
    cases hn
  · have hkept := Guar.newCarry hg t id c ho hn id' l hl ha hr hown
    refine ⟨fun hw => ?_, fun hact => ?_⟩
    · simp [Link.kept, hw] at hkept
    · simpa [Link.kept, hact] using hkept

end runs

/-- Every tenant link is made for one source account and one legacy tenant. -/
def oneSourceIds : Ids Nat where
  payoutLink := id
  legacyLink := id
  legacyLink_injective := Function.injective_id
  attempt _ := ⟨.near 0, 0, .other 1, false⟩

/-- The source has a waiting link; the legacy tenant has an account. -/
def oneSourceTables : Tables Nat :=
  AList.insert (.account (.near 0) 0) ⟨false⟩ <| AList.insert (.account (.other 1) 5) ⟨false⟩ <|
    AList.insert (.link (.near 0) 7) ⟨0, "usdc", ⟨"near", "", "", "", "", "", none⟩, "",
      .waiting, false, none, 0⟩ ∅

/-- The tenant is linked, and the source carried while it is about to close. -/
def oneSourceRun : List (Event (Command Nat)) :=
  .start 0 (.linkLegacyTenant 3) :: List.replicate 6 (.step 0) ++
    [.start 1 (.mergeClose (.near 0) 0), .step 1, .start 2 (.carryLegacyPayoutLinks (.near 0) 0
      "usdc" ⟨fun _ => "", fun _ _ _ => 9, fun _ => [5], true, 1⟩)] ++ List.replicate 13 (.step 2)

theorem oneSource_start : Start oneSourceIds oneSourceTables := by
  have hnone : ∀ id, oneSourceTables.tenantLink id = none := fun _ => rfl
  refine ⟨fun _ _ => rfl, fun id l h => ?_, fun id l h => ?_, fun id _ l _ h => ?_⟩ <;>
    exact absurd ((hnone id).symm.trans h) nofun

theorem carries_in_force_carried :
    ∃ (s : CarryState Nat) (c : Carry Nat),
      (CarryState.start oneSourceTables).run (Command.tx oneSourceIds) oneSourceRun = some s ∧
      s.tables.carry (.other 1) 9 = some c ∧ c.released = false ∧
      s.tables.pooled (.other 1) = none ∧
      RidesLink oneSourceIds s.tables (.other 1) c.legacyLinkHash := by
  have hcarry : (((CarryState.start oneSourceTables).run (Command.tx oneSourceIds)
      oneSourceRun).bind fun s => CarryState.tables s |>.carry (.other 1) 9) =
        some ⟨5, "usdc", 3, 7, false⟩ := by
    decide +kernel
  obtain ⟨s, hrun, hc⟩ := Option.bind_eq_some_iff.1 hcarry
  exact ⟨s, _, hrun, hc, rfl, (carries_in_force oneSource_start hrun).1 _ _ _ hc rfl⟩

end TraceCommons.Legacy
