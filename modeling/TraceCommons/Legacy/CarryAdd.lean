import TraceCommons.Legacy.CarryProgress

/-! # Carrying

A carry adds its link and its row together, under the tenant's lock, where the tenant link has
just been read again with its source account. -/

namespace TraceCommons.Legacy

open ReadCommitted Payout List

variable {η : Type} {H : Ids η} {x : Option (Tenant × Uuid)}

theorem apart_nil : Apart ([] : List (Write (Row η))) := fun _ hp => absurd hp not_mem_nil

theorem Agree.lookup {v v0 : Tables η} (h : Agree [] v v0) (k : Key) :
    v.lookup k = v0.lookup k :=
  h k not_mem_nil

def ofAccount (a : Uuid) (rail : String) : Uuid → String → η → Prop :=
  fun a' rail' _ => a' = a ∧ rail' = rail

/-! ## New rows -/

/-- The rows after a carry and its link are added. -/
structure Adds (t : Tenant) (id : Uuid) (l : Link) (c : Carry η) (v v' : Tables η) : Prop where
  link : v'.link t id = some l
  carry : v'.carry t id = some c
  otherLink : ∀ t' id', Key.link t' id' ≠ .link t id → v'.link t' id' = v.link t' id'
  otherCarry : ∀ t' id', Key.carry t' id' ≠ .carry t id → v'.carry t' id' = v.carry t' id'
  tenantLink : ∀ id', v'.tenantLink id' = v.tenantLink id'
  pooled : ∀ t', v'.pooled t' = v.pooled t'
  account : ∀ t' a, v'.account t' a = v.account t' a

theorem link_ne {t t' : Tenant} {id id' : Uuid} (h : Key.carry t' id' ≠ .carry t id) :
    Key.link t' id' ≠ .link t id := by
  intro he
  cases he
  exact h rfl

variable {v v' : Tables η} {t : Tenant} {id : Uuid} {l : Link} {c : Carry η}

theorem Puts.adds {v1 v2 : Tables η} (h1 : Puts (.link t id) (some l) v v1)
    (h2 : Puts (.carry t id) (some c) v1 v2) : Adds t id l c v v2 where
  link := (h2.other (.link t id) nofun).trans h1.self
  carry := h2.self
  otherLink t' id' hne := (h2.other (.link t' id') nofun).trans (h1.other _ hne)
  otherCarry t' id' hne := (h2.other (.carry t' id') hne).trans (h1.other _ nofun)
  tenantLink i := (h2.other (.tenantLink i) nofun).trans (h1.other _ nofun)
  pooled t' := (h2.other (.pooled t') nofun).trans (h1.other _ nofun)
  account t' a := (h2.other (.account t' a) nofun).trans (h1.other _ nofun)

/-- A carry that is there afterwards was there, or is the new one. -/
theorem Adds.carry_cases (h : Adds t id l c v v') {t' : Tenant} {id' : Uuid} {c' : Carry η}
    (hc : v'.carry t' id' = some c') : (t' = t ∧ id' = id ∧ c = c') ∨
      (Key.carry t' id' ≠ .carry t id ∧ v.carry t' id' = some c') := by
  by_cases hkey : Key.carry t' id' = .carry t id
  · cases hkey
    exact .inl ⟨rfl, rfl, Option.some.inj (h.carry.symm.trans hc)⟩
  · exact .inr ⟨hkey, (h.otherCarry _ _ hkey).symm.trans hc⟩

/-- Beside no live carry of the account, a carry may be added. -/
theorem Adds.inv (h : Adds t id l c v v')
    (hi : Inv H none v) (ht : anchoredTenant t = false) (ha : l.accountId = c.accountId)
    (hr : l.railId = c.railId) (hrel : c.released = false) (hpool : v.pooled t = none)
    (hride : RidesLink H v t c.legacyLinkHash)
    (hleft : ∀ id' c', v.carry t id' = some c' → c'.released = false →
      c'.accountId = c.accountId → c'.railId = c.railId → False) : Inv H none v' where
  made id' k hk := hi.made id' k ((h.tenantLink id').symm.trans hk)
  sides id' k hk := hi.sides id' k ((h.tenantLink id').symm.trans hk)
  oneLink i j k k' hk hk' := hi.oneLink i j k k' ((h.tenantLink i).symm.trans hk)
    ((h.tenantLink j).symm.trans hk')
  carried t' id' c' hc' := by
    obtain ⟨rfl, rfl, rfl⟩ | ⟨hkey, hold⟩ := h.carry_cases hc'
    · exact ⟨ht, l, h.link, ha, hr⟩
    · obtain ⟨ht', k, hk, hka, hkr⟩ := hi.carried t' id' c' hold
      exact ⟨ht', k, (h.otherLink _ _ (link_ne hkey)).trans hk, hka, hkr⟩
  riding t' id' c' hc' hr' := by
    have hold : v.pooled t' = none ∧ RidesLink H v t' c'.legacyLinkHash := by
      obtain ⟨rfl, _, rfl⟩ | ⟨-, hold⟩ := h.carry_cases hc'
      · exact ⟨hpool, hride⟩
      · exact hi.riding t' id' c' hold hr'
    exact ⟨(h.pooled t').trans hold.1, hold.2.of_eq h.tenantLink h.account⟩
  one t' i j c1 c2 h1 h2 hr1 hr2 hacc hrail := by
    obtain ⟨rfl, rfl, rfl⟩ | ⟨-, hold1⟩ := h.carry_cases h1
    · obtain ⟨-, rfl, -⟩ | ⟨-, hold2⟩ := h.carry_cases h2
      · rfl
      · exact (hleft j c2 hold2 hr2 hacc.symm hrail.symm).elim
    · obtain ⟨rfl, _, rfl⟩ | ⟨-, hold2⟩ := h.carry_cases h2
      · exact (hleft i c1 hold1 hr1 hacc hrail).elim
      · exact hi.one t' i j c1 c2 hold1 hold2 hr1 hr2 hacc hrail
  released t' id' c' k _ hc' hr' hk := by
    obtain ⟨_, _, rfl⟩ | ⟨hkey, hold⟩ := h.carry_cases hc'
    · rw [hrel] at hr'
      cases hr'
    · exact hi.released t' id' c' k nofun hold hr'
        ((h.otherLink _ _ (link_ne hkey)).symm.trans hk)

variable {ls : List (Lock Key LockName)}

variable {db : Tables η}

/-- Under the tenant's lock, and beside no link of the account's own. -/
theorem Adds.guar (h : Adds t id l c v v') (hg : Guar ls db v) (hrows : RowsLocked ls db v')
    (hlock : tenantLock t ∈ ls) (hl : db.link t id = none) (hc : db.carry t id = none)
    (hown : ∀ id' l', v.link t id' = some l' → l'.accountId = c.accountId → l'.railId = c.railId →
      v.carry t id' = none → l'.kept = false) :
    Guar ls db v' where
  rows := hrows
  carry t' id' hne := by
    by_cases hkey : Key.carry t' id' = .carry t id
    · cases hkey
      exact ⟨hlock, fun c' hc' => absurd (hc.symm.trans hc') nofun⟩
    · rw [h.otherCarry t' id' hkey] at hne ⊢
      exact hg.carry t' id' hne
  revoked id' k hk hne := by
    rw [h.tenantLink id'] at hne ⊢
    exact hg.revoked id' k hk hne
  linked id' k hk hk' := hg.linked id' k hk ((h.tenantLink id').symm.trans hk')
  pooled t' ht hne := hg.pooled t' ht (by rwa [h.pooled t'] at hne)
  account t' a r hr := by
    rw [h.account t' a]
    exact hg.account t' a r hr
  link t' id' k hk := by
    have hkey : Key.link t' id' ≠ .link t id := by
      intro he
      cases he
      exact absurd (hl.symm.trans hk) nofun
    rw [h.otherLink t' id' hkey]
    exact hg.link t' id' k hk
  newLink t' id' k ht ho hn := by
    by_cases hkey : Key.link t' id' = .link t id
    · cases hkey
      exact ⟨hc, c, h.carry⟩
    have hkey' : Key.carry t' id' ≠ .carry t id := by
      intro he
      cases he
      exact hkey rfl
    rw [h.otherCarry t' id' hkey']
    exact hg.newLink t' id' k ht ho ((h.otherLink _ _ hkey).symm.trans hn)
  newCarry t' id' c' ho hn i k hk hka hkr hnone := by
    have hi : Key.carry t' i ≠ .carry t id := by
      intro he
      cases he
      exact absurd (h.carry.symm.trans hnone) nofun
    rw [h.otherCarry _ _ hi] at hnone
    rw [h.otherLink _ _ (link_ne hi)] at hk
    obtain ⟨rfl, _, rfl⟩ | ⟨-, hold⟩ := h.carry_cases hn
    · exact hown i k hk hka hkr hnone
    · exact hg.newCarry t' id' c' ho hold i k hk hka hkr hnone

theorem Guar.carry_none (h : Guar ls db v) (hv : v.carry t id = none) :
    db.carry t id = none := by
  by_contra hne
  obtain ⟨c, hc⟩ := Option.ne_none_iff_exists'.1 hne
  obtain ⟨c', hc', -⟩ := (h.carry t id (by rw [hv, hc]; nofun)).2 c hc
  rw [hv] at hc'
  cases hc'

theorem Guar.link_none (h : Guar ls db v) (hv : v.link t id = none) :
    db.link t id = none := by
  by_contra hne
  obtain ⟨l, hl⟩ := Option.ne_none_iff_exists'.1 hne
  obtain ⟨l', hl', -⟩ := h.link t id l hl
  rw [hv] at hl'
  cases hl'

/-! ## Links read again -/

variable {a : Uuid}

theorem Tables.accountOpen_iff :
    v.accountOpen t a ↔ ∃ r, v.account t a = some r ∧ r.closed = false := by
  unfold Tables.accountOpen Tables.account
  cases AList.lookup (.account t a) v <;> simp

theorem Tables.linkLive_iff :
    v.linkLive id ↔ ∃ l, v.tenantLink id = some l ∧ l.revoked = false := by
  unfold Tables.linkLive Tables.tenantLink
  cases AList.lookup (.tenantLink id) v <;> simp

def Listed (H : Ids η) (t : Tenant) (a : Uuid) (x : Uuid × TenantLink) : Prop :=
  x.2.legacyTenantId = (H.attempt x.1).legacyTenantId ∧ (H.attempt x.1).tenantId = t ∧
    (H.attempt x.1).accountId = a

theorem Inv.attempt (hi : Inv H x v) {l : TenantLink} (hl : v.tenantLink id = some l) :
    l.legacyTenantId = (H.attempt id).legacyTenantId ∧
      (H.attempt id).tenantId = l.tenantId ∧ (H.attempt id).accountId = l.accountId := by
  rw [hi.made id l hl]
  exact ⟨rfl, rfl, rfl⟩

variable {y : Uuid × TenantLink}

/-- Under the tenant's lock a link that is read again is the one that was listed. -/
theorem Listed.live (hy : Listed H t a y) (hi : Inv H x v)
    (hlock : tenantLock y.2.legacyTenantId ∈ ls) (hlive : v.linkLive y.1) :
    (Fact.live y.2.legacyTenantId y.1 : Fact H).holds ls v := by
  obtain ⟨l, hl, hr⟩ := Tables.linkLive_iff.1 hlive
  refine ⟨hlock, l, hl, hr, ?_⟩
  exact (hi.attempt hl).1.trans hy.1.symm

theorem Listed.rides (hy : Listed H t a y) (hi : Inv H x v)
    (hlive : (Fact.live y.2.legacyTenantId y.1 : Fact H).holds ls v) (hopen : v.accountOpen t a) :
    (Fact.rides y.2.legacyTenantId (H.legacyLink y.1) : Fact H).holds ls v := by
  obtain ⟨hlock, l, hl, hr, ht⟩ := hlive
  obtain ⟨r, _, ho⟩ := Tables.accountOpen_iff.1 hopen
  obtain ⟨-, hmt, hma⟩ := hi.attempt hl
  have htenant : l.tenantId = t := hmt.symm.trans hy.2.1
  have haccount : l.accountId = a := hma.symm.trans hy.2.2
  exact ⟨hlock, y.1, l, r, rfl, hl, hr, ht, by rwa [htenant, haccount], ho⟩

/-- The account is read open again. -/
theorem readOpen_triple (hy : Listed H t a y) {F : Fact H}
    (hF : ∀ ls v, F.holds ls v → (Fact.live y.2.legacyTenantId y.1 : Fact H).holds ls v) :
    Triple (Doing H [] none F) (read fun db => db.accountOpen t a)
      fun isOpen => Doing H [] none (match isOpen with
        | true => .rides y.2.legacyTenantId (H.legacyLink y.1) | false => .top) := by
  refine Doing.look fun ls v v0 hagree hi hlive => ?_
  have hsame : v.accountOpen t a = v0.accountOpen t a := by
    simp [Tables.accountOpen, hagree.lookup]
  rw [append_nil, hsame]
  cases hopen : v0.accountOpen t a with
  | true => exact hy.rides hi (hF ls v0 hlive) hopen
  | false => trivial

/-! ## The account's live carries -/

section carry

variable [DecidableEq η]

/-- All the unreleased carries of the account are found, since one tenant has one live link. -/
theorem liveCarries_triple (F : Fact H) (t : Tenant) (a : Uuid) (rail : String) (hash : η) :
    Triple (Doing H [] none (F.and (.rides t hash))) (liveCarries t a rail hash)
      fun live => Doing H [] none ((F.and (.rides t hash)).and
        (.left t (ofAccount a rail) (live.map Prod.fst))) := by
  refine Triple.bind (B := fun found => Doing H [] none ((F.and (.rides t hash)).and
    (.left t (ofAccount a rail) (found.map Prod.fst)))) ?_ fun found => ?_
  · refine Doing.look fun ls v v0 hagree hi hf => ?_
    rw [append_nil]
    refine ⟨hf, hf.2.1, fun id c hc hr hs => mem_map.2 ⟨(id, c), ?_, rfl⟩⟩
    have hhash := hi.hash_eq (hi.riding t id c hc hr).2 hf.2.2
    obtain ⟨-, l, hl, -⟩ := hi.carried t id c hc
    have hv : v.carry t id = some c := (hagree.lookup _).trans hc
    have hvl : v.lookup (.link t id) = some l := (hagree.lookup _).trans hl
    rw [mem_filter]
    refine ⟨Tables.mem_carries.2 hv, ?_⟩
    simp [hs.1, hs.2, hhash, hr, hvl]
  · have hcollect := Triple.collect (P := protocol H)
      (f := fun x : Uuid × Carry η => do
        let row ← lockCarry t x.1
        pure ((row.filter fun c => !c.released).map fun c => (x.1, c)))
      (A := fun rs as => Doing H [] none ((F.and (.rides t hash)).and
        (.left t (ofAccount a rail) (rs.map Prod.fst ++ as.map Prod.fst)))) ?_ [] found
    · refine .conseq (fun l w _ h => h) (fun rs l w _ h => ?_) hcollect
      simpa [append_nil] using h
    · intro rs y as
      refine .bind (B := fun row => Doing H [] none ((F.and (.rides t hash)).and
        (.left t (ofAccount a rail) (rs.map Prod.fst ++
          ((row.filter fun c => !c.released).map fun c => (y.1, c)).toList.map Prod.fst ++
            as.map Prod.fst)))) ?_ fun row => Triple.pure fun l w _ h => ?_
      · refine Doing.look fun ls v v0 hagree hi hf => ?_
        refine (Fact.and _ _).mono (subset_append_left _ _)
          ⟨hf.1, hf.2.1, fun id c hc hr hs => ?_⟩
        have hv : v.lookup (.carry t y.1) = v0.carry t y.1 := hagree.lookup _
        have hmem := hf.2.2 id c hc hr hs
        rw [hv]
        simp only [map_cons, mem_append, mem_cons] at hmem ⊢
        rcases hmem with hmem | rfl | hmem
        · exact .inl (.inl hmem)
        · rw [hc]
          simp [hr]
        · exact .inr hmem
      · simpa [map_append] using h

/-- What is known when a tenant's accounts are carried. -/
def Fact.poolRead (t : Tenant) : Bool → Fact H
  | true => .top
  | false => .notPooled t

def Fact.ready (t : Tenant) (hash : η) (pooled : Bool) : Fact H :=
  (Fact.poolRead t pooled).and (.rides t hash)

/-- What the look for a link of the account's own found. -/
def Fact.ownRead (t : Tenant) (a : Uuid) (rail : String) : Bool → Fact H
  | true => .top
  | false => .noOwn t a rail

variable (call : CarryCall)

theorem addCarry_triple (t : Tenant) (hash : η) (source : Uuid × Link) (rail : String) (a : Uuid) :
    Triple (Doing H [] none (((Fact.ready t hash false).and (.noOwn t a rail)).and
      (.left t (ofAccount a rail) []))) (addCarry H call t hash source rail a)
      fun _ => Doing H [] none (.ready t hash false) := by
  unfold addCarry
  dsimp only
  generalize call.newId t _ a = id
  generalize hl : (⟨a, rail, source.2.recipient, call.programs id, .waiting, false, none,
    call.now⟩ : Link) = l
  refine Triple.bind (B := fun _ => Doing H [⟨.link t id, some l⟩] none
    ((((Fact.ready t hash false).and (.noOwn t a rail)).and
      (.left t (ofAccount a rail) [])).and (.noLink t id))) ?_ fun _ => ?_
  · refine Triple.insert fun s w _ hd hnone _ => ?_
    have ⟨hok, hf, _⟩ := hd
    rw [keys, map_nil, Local.without_nil] at hok hf
    refine Doing.defer hd _ _ _ (hnone.trans (hok.guar.link_none hnone).symm) fun ls hsub => ?_
    refine ⟨Fact.mono _ (List.Subset.trans (subset_append_left _ _) hsub) hf, ?_, hnone⟩
    exact ⟨.update, rfl, hsub (mem_append_right _ (.head _))⟩
  · refine Triple.insert fun s w _ hd hnone _ => Doing.join hd _ _ ?_
    intro ls v0 v1 _ hg hi hf _ hv1 hp hrow hrows
    obtain ⟨⟨⟨hready, hown⟩, hleft⟩, -, hnolink⟩ := hf
    obtain ⟨⟨hlock, ht, hpool⟩, -, hride⟩ := hready
    have hp2 := puts_apply (.carry t id) (some ⟨a, rail, hash, H.payoutLink source.1, false⟩) v1
    have hadds := hp.adds hp2
    have hcarry : v0.carry t id = none := by
      rw [← hv1] at hnone
      exact (hp.other (.carry t id) (by simp)).symm.trans hnone
    refine ⟨hadds.guar hg ?_ hlock (hg.link_none hnolink) (hg.carry_none hcarry) hown.2.2,
      hadds.inv hi ht (by rw [← hl]) (by rw [← hl]) rfl hpool hride ?_, ?_⟩
    · exact hp2.rows (hp.rows hg.rows hrow) (hrows _ (mem_singleton_self _))
    · intro id' c' hc' hr' ha' hrail'
      exact absurd (hleft.2 id' c' hc' hr' ⟨ha', hrail'⟩) not_mem_nil
    · exact ⟨⟨hlock, ht, (hadds.pooled t).trans hpool⟩, hlock,
        hride.of_eq hadds.tenantLink hadds.account⟩

theorem carryAccount_triple (ht : anchoredTenant t = false) (hash : η)
    (source : Option (Uuid × Link)) (rail : String) (pooled : Bool) (report : LegacyCarryReport)
    (row : Uuid × Account) :
    Triple (Doing H [] none (.ready t hash pooled))
      (carryAccount H call t hash source rail pooled report row)
      fun _ => Doing H [] none (.ready t hash pooled) := by
  refine .bind (liveCarries_triple _ t _ _ _) fun live => ?_
  have hrelease := releaseAll_triple (H := H) apart_nil (.ready t hash pooled) t
    (ofAccount row.1 rail) (live.map Prod.fst)
  cases source with
  | none => exact Triple.bind hrelease fun _ => Doing.pure fun _ _ _ h => h.1
  | some source =>
    dsimp only
    split
    · exact Triple.bind hrelease fun _ => Doing.pure fun _ _ _ h => h.1
    rename_i hgo
    have hpool : pooled = false := by
      cases pooled with
      | false => rfl
      | true => exact absurd rfl hgo
    subst hpool
    split
    · exact Doing.pure fun _ _ _ h => h.1
    refine Triple.bind (B := fun own => Doing H [] none
      (((Fact.ready t hash false).and (.ownRead t row.1 rail own)).and
        (.left t (ofAccount row.1 rail) (live.map Prod.fst)))) ?_ fun own => ?_
    · refine Doing.look fun ls v v0 hagree hi hf => ?_
      rw [append_nil]
      refine ⟨⟨hf.1, ?_⟩, hf.2⟩
      cases hown : Tables.ownLink v t _ _ with
      | true => trivial
      | false =>
        refine ⟨hf.2.1, ht, fun id l hl hacc hrail hc => ?_⟩
        have hall := any_eq_false.1 hown _
          (Tables.mem_links.2 ((hagree.lookup _).trans hl))
        have hcarry : v.lookup (.carry t id) = none := (hagree.lookup _).trans hc
        simpa [hacc, hrail, hcarry] using hall
    · cases own with
      | true => exact Doing.pure fun _ _ _ h => h.1.1
      | false =>
        refine .bind (releaseAll_triple apart_nil _ t _ _) fun _ => ?_
        exact .bind (addCarry_triple _ t _ _ _ _) fun _ =>
          Triple.pure fun l w _ h => h

theorem carryTenant_triple (ht : anchoredTenant t = false) (hash : η)
    (source : Option (Uuid × Link)) (rail : String) (only : Option Uuid)
    (report : LegacyCarryReport) :
    Triple (Doing H [] none (.rides t hash)) (carryTenant H call t hash source rail only report)
      fun _ => Doing H [] none (.rides t hash) := by
  refine Triple.bind (B := fun pooled => Doing H [] none (.ready t hash pooled)) ?_ fun pooled =>
    Triple.bind (B := fun _ => Doing H [] none (.ready t hash pooled)) ?_ fun accounts => ?_
  · refine Doing.look fun ls v v0 hagree _ hf => ?_
    rw [append_nil]
    refine ⟨?_, hf⟩
    have hv : v.lookup (.pooled t) = v0.pooled t := hagree.lookup _
    cases hp : v0.pooled t with
    | some u => simp only [Tables.isPooled, hv, hp]; trivial
    | none =>
      simp only [Tables.isPooled, hv, hp]
      exact ⟨hf.1, ht, hp⟩
  · refine Doing.look fun ls v v0 _ _ hf => ?_
    rwa [append_nil]
  · have hfold : Triple (Doing H [] none (.ready t hash pooled))
        (accounts.foldlM (carryAccount H call t hash source rail pooled) report)
        fun _ => Doing H [] none (.ready t hash pooled) :=
      Triple.foldlM (fun b a _ => carryAccount_triple call ht hash source rail pooled b a) report
    exact Doing.conseq hfold (fun _ _ _ h => h) fun _ _ _ _ h => h.2

theorem carryLink_triple (rail : String) (source : Option (Uuid × Link))
    (report : LegacyCarryReport) (hy : Listed H t a y) :
    Triple (Doing H [] none .top) (carryLink H call t a rail source report y)
      fun _ => Doing H [] none .top := by
  unfold carryLink
  by_cases ht : anchoredTenant y.2.legacyTenantId
  · rw [if_pos ht]
    exact .pure fun _ _ _ h => h
  rw [if_neg ht]
  have ht' : anchoredTenant y.2.legacyTenantId = false := by simpa using ht
  refine .bind (B := fun _ => Doing H [] none (.lock (tenantLock y.2.legacyTenantId)))
    ?_ fun _ => ?_
  · exact Doing.look fun ls v v0 _ _ _ => mem_append_right _ (mem_singleton_self _)
  refine Triple.bind (B := fun live => Doing H [] none
    (match live with | true => .live y.2.legacyTenantId y.1 | false => .top)) ?_ fun live => ?_
  · refine Doing.look fun ls v v0 hagree hi hlock => ?_
    have hsame : v.linkLive y.1 = v0.linkLive y.1 := by
      simp [Tables.linkLive, hagree.lookup]
    rw [append_nil, hsame]
    cases hlive : v0.linkLive y.1 with
    | true => exact hy.live hi hlock hlive
    | false => trivial
  cases live with
  | false => exact .pure fun _ _ _ h => h
  | true =>
    refine .bind (readOpen_triple hy fun _ _ h => h) fun isOpen => ?_
    cases isOpen with
    | false => exact Triple.pure fun _ _ _ h => h
    | true =>
      exact Doing.conseq (carryTenant_triple _ ht' _ _ _ _ _)
        (fun _ _ _ h => h) fun _ _ _ _ _ => trivial

theorem carryInTx_triple (t : Tenant) (a : Uuid) (rail : String) :
    Triple (Doing H [] none .top) (carryInTx H call t a rail) fun _ => Doing H [] none .top := by
  unfold carryInTx
  by_cases ht : anchoredTenant t
  · rw [if_pos ht]
    refine .bind (B := fun _ => Doing H [] none .top) ?_ fun source => ?_
    · exact Doing.look fun _ _ _ _ _ _ => trivial
    refine Triple.bind (B := fun links => Doing H [] none
      (.pure (∀ y ∈ links, Listed H t a y))) ?_ fun links => ?_
    · refine Doing.look fun ls v v0 hagree hi _ y hy => ?_
      rw [mem_insertionSort, mem_filter] at hy
      obtain ⟨hmem, hsel⟩ := hy
      simp only [Bool.and_eq_true, decide_eq_true_eq] at hsel
      have hlisted : Listed H y.2.tenantId y.2.accountId y :=
        hi.attempt ((hagree.lookup _).symm.trans (Tables.mem_tenantLinks.1 hmem))
      rwa [hsel.1.1, hsel.1.2] at hlisted
    · refine .assume (fun _ _ _ h => h.2.1) fun hall => ?_
      exact Doing.conseq
        (Triple.foldlM (fun b y hy => carryLink_triple _ _ _ b (hall y hy)) _)
        (fun _ _ _ _ => trivial) fun _ _ _ _ h => h
  · rw [if_neg ht]
    exact .pure fun _ _ _ h => h

theorem carryRail_triple {legacy : Tenant} (ht : anchoredTenant legacy = false) (account : Uuid)
    (opened : Bool) (hash : η) (report : LegacyCarryReport)
    (y : (String × CarryCall) × Option (Uuid × Link)) :
    Triple (Doing H [] none (.rides legacy hash))
      (carryRail H legacy account opened hash report y)
      fun _ => Doing H [] none (.rides legacy hash) := by
  refine Triple.bind (B := fun _ => Doing H [] none (.rides legacy hash)) ?_ fun uncarried => ?_
  · refine Doing.look fun ls v v0 _ _ h => ?_
    rwa [append_nil]
  dsimp only
  split
  · exact .pure fun _ _ _ h => h
  · exact carryTenant_triple _ ht _ y.2 _ _ _

theorem carryOpenedAccountInTx_triple (legacy : Tenant) (account : Uuid) (opened : Bool)
    (rails : List (String × CarryCall)) :
    Triple (Doing H [] none .top) (carryOpenedAccountInTx H legacy account opened rails)
      fun _ => Doing H [] none .top := by
  unfold carryOpenedAccountInTx
  split
  · exact .pure fun _ _ _ h => h
  next hrails =>
  have ht : anchoredTenant legacy = false := by
    simp only [Bool.or_eq_true, not_or, Bool.not_eq_true] at hrails
    exact hrails.2
  refine .bind Doing.keep fun uncarried => ?_
  split
  · exact .pure fun _ _ _ h => h
  refine .bind Doing.keep fun found => ?_
  cases found with
  | none => exact .pure fun _ _ _ h => h
  | some s =>
    generalize rails.insertionSort (fun y z => y.1 ≤ z.1) = rails
    refine .bind (.forEach (A := fun _ => Doing H [] _ _)
      (fun _ _ => Doing.keep) _) fun _ => ?_
    refine .bind (B := fun _ => Doing H [] none (.lock (tenantLock legacy))) ?_ fun _ => ?_
    · exact Doing.look fun ls v v0 _ _ _ => mem_append_right _ (mem_singleton_self _)
    refine Triple.bind (B := fun link => Doing H [] none (match link with
      | none => .top
      | some y => (Fact.live legacy y.1).and (.pure (y.2.legacyTenantId = legacy ∧
          Listed H s.1 s.2 y)))) ?_ fun link => ?_
    · refine Doing.look fun ls v v0 hagree hi hlock => ?_
      rw [append_nil]
      cases hfind : v.tenantLinks.find? _ with
      | none => trivial
      | some y =>
        have hrow : v0.tenantLink y.1 = some y.2 := (hagree.lookup _).symm.trans
          (Tables.mem_tenantLinks.1 (mem_of_find?_eq_some hfind))
        have hsel := find?_some hfind
        simp only [Bool.and_eq_true, decide_eq_true_eq, Bool.not_eq_true'] at hsel
        obtain ⟨⟨⟨htenant, haccount⟩, hlegacy⟩, hrev⟩ := hsel
        refine ⟨⟨hlock, y.2, hrow, hrev, hlegacy⟩, hlegacy, ?_⟩
        have hlisted : Listed H y.2.tenantId y.2.accountId y := hi.attempt hrow
        rwa [htenant, haccount] at hlisted
    cases link with
    | none => exact .pure fun _ _ _ h => h
    | some y =>
      refine .assume (fun _ _ _ h => h.2.1.2) fun hy => ?_
      obtain ⟨rfl, hy⟩ := hy
      refine .bind (readOpen_triple hy fun _ _ h => h.1) fun isOpen => ?_
      cases isOpen with
      | false => exact .pure fun _ _ _ h => h
      | true =>
        refine .bind (.collect
          (A := fun _ _ => Doing H [] _ _)
          (fun _ _ _ => Triple.bind Doing.keep fun _ => Triple.pure fun _ _ _ h => h) [] _)
          fun sources => ?_
        exact Doing.conseq (Triple.foldlM (fun b z _ => carryRail_triple ht _ _
          _ b z) _) (fun _ _ _ h => h) fun _ _ _ _ _ => trivial

end carry

end TraceCommons.Legacy
