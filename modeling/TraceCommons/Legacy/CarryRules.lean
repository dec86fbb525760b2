import TraceCommons.Legacy.Carry

/-! # What the carry transactions promise each other

Every carry of a tenant, its pooled mark and its tenant link are written only under the tenant's
link lock; a source account closes only with the locks of all the tenants it has linked, and holds
its row against new links meanwhile. Two changes that keep these promises under compatible locks
can be merged, and the merge keeps what each of them kept. -/

namespace TraceCommons.Legacy

open ReadCommitted Payout

variable {η : Type}

namespace Tables

def account (db : Tables η) (t : Tenant) (a : Uuid) : Option Account := db.lookup (.account t a)

def tenantLink (db : Tables η) (id : Uuid) : Option TenantLink := db.lookup (.tenantLink id)

def pooled (db : Tables η) (t : Tenant) : Option Unit := db.lookup (.pooled t)

def link (db : Tables η) (t : Tenant) (id : Uuid) : Option Link := db.lookup (.link t id)

def carry (db : Tables η) (t : Tenant) (id : Uuid) : Option (Carry η) := db.lookup (.carry t id)

/-- The rows a listing takes are the rows of one key. -/
theorem mem_listed {β : Type} {f : (Σ k, Row η k) → Option β} {db : Tables η} {k : Key}
    {r : Row η k} {b : β} (hf : ∀ y, f y = some b ↔ y = ⟨k, r⟩) :
    b ∈ db.entries.filterMap f ↔ db.lookup k = some r := by
  refine Iff.trans ?_ AList.mem_lookup_iff.symm
  simp [hf]

theorem mem_tenantLinks {db : Tables η} {id : Uuid} {l : TenantLink} :
    (id, l) ∈ db.tenantLinks ↔ db.tenantLink id = some l := by
  refine mem_listed fun y => ?_
  obtain ⟨k, x⟩ := y
  cases k <;> simp

theorem mem_links {db : Tables η} {t : Tenant} {id : Uuid} {l : Link} :
    (id, l) ∈ db.links t ↔ db.link t id = some l := by
  refine mem_listed fun y => ?_
  obtain ⟨k, x⟩ := y
  cases k <;> simp [and_assoc]

theorem mem_carries {db : Tables η} {t : Tenant} {id : Uuid} {c : Carry η} :
    (id, c) ∈ db.carries t ↔ db.carry t id = some c := by
  refine mem_listed fun y => ?_
  obtain ⟨k, x⟩ := y
  cases k <;> simp [and_assoc]

end Tables

/-! ## Invariant and guarantee -/

/-- The hash names an unrevoked tenant link of the tenant whose source account is open. -/
def RidesLink (H : Ids η) (db : Tables η) (t : Tenant) (hash : η) : Prop :=
  ∃ id l r, H.legacyLink id = hash ∧ db.tenantLink id = some l ∧ l.revoked = false ∧
    l.legacyTenantId = t ∧ db.account l.tenantId l.accountId = some r ∧ r.closed = false

/-- The state of the tables. The link of the carry `x` is about to end. -/
structure Inv (H : Ids η) (x : Option (Tenant × Uuid)) (db : Tables η) : Prop where
  made : ∀ id l, db.tenantLink id = some l → l = { H.attempt id with revoked := l.revoked }
  sides : ∀ id l, db.tenantLink id = some l →
    anchoredTenant l.tenantId ∧ anchoredTenant l.legacyTenantId = false
  oneLink : ∀ id id' l l', db.tenantLink id = some l → db.tenantLink id' = some l' →
    l.revoked = false → l'.revoked = false → l.legacyTenantId = l'.legacyTenantId → id = id'
  carried : ∀ t id c, db.carry t id = some c → anchoredTenant t = false ∧
    ∃ l, db.link t id = some l ∧ l.accountId = c.accountId ∧ l.railId = c.railId
  riding : ∀ t id c, db.carry t id = some c → c.released = false →
    db.pooled t = none ∧ RidesLink H db t c.legacyLinkHash
  one : ∀ t id id' c c', db.carry t id = some c → db.carry t id' = some c' →
    c.released = false → c'.released = false → c.accountId = c'.accountId →
    c.railId = c'.railId → id = id'
  released : ∀ t id c l, x ≠ some (t, id) → db.carry t id = some c → c.released →
    db.link t id = some l → l.kept = false

/-- All the live carries of a tenant ride on one tenant link. -/
theorem Inv.hash_eq {H : Ids η} {x : Option (Tenant × Uuid)} {db : Tables η} (hi : Inv H x db)
    {t : Tenant} {hash hash' : η} (h : RidesLink H db t hash) (h' : RidesLink H db t hash') :
    hash = hash' := by
  obtain ⟨id, l, -, rfl, hl, hr, ht, -⟩ := h
  obtain ⟨id', l', -, rfl, hl', hr', ht', -⟩ := h'
  rw [hi.oneLink id id' l l' hl hl' hr hr' (ht.trans ht'.symm)]

/-- A link keeps its account and rail, and once it is ending it is not kept again. -/
structure Link.Moves (l l' : Link) : Prop where
  account : l'.accountId = l.accountId
  rail : l'.railId = l.railId
  kept : l.kept = false → l'.kept = false

structure Carry.Moves (c c' : Carry η) : Prop where
  account : c'.accountId = c.accountId
  rail : c'.railId = c.railId
  hash : c'.legacyLinkHash = c.legacyLinkHash
  released : c.released → c'.released

theorem Link.Moves.rfl {l : Link} : l.Moves l := ⟨Eq.refl _, Eq.refl _, id⟩

theorem Carry.Moves.rfl {c : Carry η} : c.Moves c := ⟨Eq.refl _, Eq.refl _, Eq.refl _, id⟩

/-- What a transaction with these locks may change. -/
structure Guar (ls : List (Lock Key LockName)) (db db' : Tables η) : Prop where
  rows : RowsLocked ls db db'
  carry : ∀ t id, db'.carry t id ≠ db.carry t id → tenantLock t ∈ ls ∧
    ∀ c, db.carry t id = some c → ∃ c', db'.carry t id = some c' ∧ c.Moves c'
  revoked : ∀ id l, db.tenantLink id = some l → db'.tenantLink id ≠ some l →
    (l.revoked = false → tenantLock l.legacyTenantId ∈ ls) ∧
      ∀ l', db'.tenantLink id = some l' → l' = { l with revoked := true }
  linked : ∀ id l, db.tenantLink id = none → db'.tenantLink id = some l →
    tenantLock l.legacyTenantId ∈ ls ∧ .row (.account l.tenantId l.accountId) .keyShare ∈ ls
  pooled : ∀ t, anchoredTenant t = false → db'.pooled t ≠ db.pooled t → tenantLock t ∈ ls
  account : ∀ t a r, db.account t a = some r → ∃ r', db'.account t a = some r' ∧
    (r.closed = false → r'.closed → .row (.account t a) .update ∈ ls ∧
      ∀ id l, db.tenantLink id = some l → l.revoked = false → l.tenantId = t →
        l.accountId = a → tenantLock l.legacyTenantId ∈ ls)
  link : ∀ t id l, db.link t id = some l → ∃ l', db'.link t id = some l' ∧ l.Moves l'
  newLink : ∀ t id l, anchoredTenant t = false → db.link t id = none → db'.link t id = some l →
    db.carry t id = none ∧ ∃ c, db'.carry t id = some c
  newCarry : ∀ t id c, db.carry t id = none → db'.carry t id = some c →
    ∀ id' l', db'.link t id' = some l' → l'.accountId = c.accountId → l'.railId = c.railId →
      db'.carry t id' = none → l'.kept = false

theorem Guar.refl (ls : List (Lock Key LockName)) (db : Tables η) : Guar ls db db where
  rows _ h := absurd rfl h
  carry _ _ h := absurd rfl h
  revoked _ _ h h' := absurd h h'
  linked _ _ h h' := by rw [h] at h'; cases h'
  pooled _ _ h := absurd rfl h
  account _ _ r h := ⟨r, h, fun ho hc => by rw [ho] at hc; cases hc⟩
  link _ _ l h := ⟨l, h, .rfl⟩
  newLink _ _ _ _ h h' := by rw [h] at h'; cases h'
  newCarry _ _ _ h h' := by rw [h] at h'; cases h'

variable {ls : List (Lock Key LockName)}

theorem Guar.mono {ls' : List (Lock Key LockName)} {db db' : Tables η} (hsub : ls ⊆ ls')
    (h : Guar ls db db') : Guar ls' db db' where
  rows k hk := (h.rows k hk).imp fun _ hm => ⟨hm.1, hsub hm.2⟩
  carry t id hc := (h.carry t id hc).imp_left fun hl => hsub hl
  revoked id l hl hn := (h.revoked id l hl hn).imp_left fun hlock hr => hsub (hlock hr)
  linked id l ho hn := (h.linked id l ho hn).imp (fun hl => hsub hl) fun hl => hsub hl
  pooled t ht hp := hsub (h.pooled t ht hp)
  account t a r hr := by
    obtain ⟨r', hr', hclose⟩ := h.account t a r hr
    refine ⟨r', hr', fun ho hc => ?_⟩
    obtain ⟨hrow, hlinks⟩ := hclose ho hc
    exact ⟨hsub hrow, fun id l hl hv ht ha => hsub (hlinks id l hl hv ht ha)⟩
  link := h.link
  newLink := h.newLink
  newCarry := h.newCarry

variable {v : Tables η}

/-- A carry is added under the tenant's lock. -/
theorem Guar.lock_of_new {db : Tables η} (h : Guar ls db v) {t : Tenant} {id : Uuid} {c : Carry η}
    (ho : db.carry t id = none) (hn : v.carry t id = some c) : tenantLock t ∈ ls := by
  refine (h.carry t id ?_).1
  rw [hn, ho]
  exact Option.some_ne_none _

/-! ## Merging two changes -/

/-- Two changes of the same tables under compatible locks, row by row in one. -/
structure Merged (lx ly : List (Lock Key LockName)) (db vx vy m : Tables η) : Prop where
  compat : Compatible lx ly
  guarX : Guar lx db vx
  guarY : Guar ly db vy
  rows : ∀ k, (vx.lookup k = db.lookup k ∧ m.lookup k = vy.lookup k) ∨
    (vy.lookup k = db.lookup k ∧ m.lookup k = vx.lookup k)

namespace Merged

variable {lx ly : List (Lock Key LockName)} {db vx vy m : Tables η} {t : Tenant} {H : Ids η}
  {x : Option (Tenant × Uuid)}

/-- A link that one side sees unrevoked was there, or that side has just made it. -/
theorem tenantLink_old {id : Uuid} {l : TenantLink} {db : Tables η} (hg : Guar ls db v)
    (hv : v.tenantLink id = some l) (hr : l.revoked = false) :
    db.tenantLink id = some l ∨
      (db.tenantLink id = none ∧ .row (.account l.tenantId l.accountId) .keyShare ∈ ls ∧
        tenantLock l.legacyTenantId ∈ ls) := by
  cases hdb : db.tenantLink id with
  | none =>
    obtain ⟨hl, hrow⟩ := hg.linked id l hdb hv
    exact .inr ⟨rfl, hrow, hl⟩
  | some l0 =>
    refine .inl ?_
    by_contra hne
    have hne' : v.tenantLink id ≠ some l0 := by
      intro he
      exact hne (he.symm.trans hv)
    have hrev := (hg.revoked id l0 hdb hne').2 l hv
    rw [hrev] at hr
    cases hr

variable (h : Merged lx ly db vx vy m)

include h

theorem swap : Merged ly lx db vy vx m :=
  ⟨h.compat.symm, h.guarY, h.guarX, fun k => (h.rows k).symm⟩

/-- Without the tenant's lock nobody changes its carries. -/
theorem carry_eq (hl : tenantLock t ∉ ly) (id : Uuid) :
    m.carry t id = vx.carry t id ∧ vy.carry t id = db.carry t id := by
  have hy : vy.carry t id = db.carry t id := by
    by_contra hne
    exact hl (h.guarY.carry t id hne).1
  obtain ⟨hx, hm⟩ | ⟨-, hm⟩ := h.rows _
  · exact ⟨hm.trans (hy.trans hx.symm), hy⟩
  · exact ⟨hm, hy⟩

theorem pooled_eq (ht : anchoredTenant t = false)
    (hl : tenantLock t ∉ ly) : m.pooled t = vx.pooled t := by
  obtain ⟨hx, hm⟩ | ⟨-, hm⟩ := h.rows _
  · have hy : vy.pooled t = db.pooled t := by
      by_contra hne
      exact hl (h.guarY.pooled t ht hne)
    exact hm.trans (hy.trans hx.symm)
  · exact hm

variable {id : Uuid} {l : TenantLink}

/-- Nor ends its tenant link. -/
theorem tenantLink_eq (hx : vx.tenantLink id = some l)
    (hr : l.revoked = false) (hl : tenantLock l.legacyTenantId ∉ ly) :
    m.tenantLink id = some l := by
  obtain ⟨hdb, hm⟩ | ⟨-, hm⟩ := h.rows _
  · refine hm.trans ?_
    by_contra hne
    exact hl ((h.guarY.revoked id l (hdb.symm.trans hx) hne).1 hr)
  · exact hm.trans hx

/-- Nor closes the source of a link of the tenant. -/
theorem account_open {r : Account} (hx : vx.tenantLink id = some l)
    (hrev : l.revoked = false) (hl : tenantLock l.legacyTenantId ∉ ly)
    (hr : vx.account l.tenantId l.accountId = some r) (ho : r.closed = false) :
    ∃ r', m.account l.tenantId l.accountId = some r' ∧ r'.closed = false := by
  obtain ⟨hdb, hm⟩ | ⟨-, hm⟩ := h.rows _
  · obtain ⟨r', hr', hclose⟩ := h.guarY.account _ _ r (hdb.symm.trans hr)
    refine ⟨r', hm.trans hr', ?_⟩
    by_contra hc
    obtain ⟨hrow, hlinks⟩ := hclose ho (Bool.not_eq_false _ ▸ hc)
    rcases tenantLink_old h.guarX hx hrev with hold | ⟨-, hshare, -⟩
    · exact hl (hlinks id l hold hrev rfl rfl)
    · exact Bool.noConfusion (h.compat.row hshare hrow)
  · exact ⟨r, hm.trans hr, ho⟩

theorem rides (hl : tenantLock t ∉ ly) {hash : η}
    (hr : RidesLink H vx t hash) : RidesLink H m t hash := by
  obtain ⟨id, l, r, hid, hlink, hrev, rfl, hacc, ho⟩ := hr
  obtain ⟨r', hacc', ho'⟩ := h.account_open hlink hrev hl hacc ho
  exact ⟨id, l, r', hid, h.tenantLink_eq hlink hrev hl, hrev, rfl, hacc', ho'⟩

theorem link_moves {l : Link} (hx : vx.link t id = some l) :
    ∃ l', m.link t id = some l' ∧ l.Moves l' := by
  obtain ⟨hdb, hm⟩ | ⟨-, hm⟩ := h.rows _
  · obtain ⟨l', hl', hmv⟩ := h.guarY.link t id l (hdb.symm.trans hx)
    exact ⟨l', hm.trans hl', hmv⟩
  · exact ⟨l, hm.trans hx, .rfl⟩

/-- Nor adds a link to the tenant. -/
theorem link_back (ht : anchoredTenant t = false)
    (hl : tenantLock t ∉ ly) {l : Link} (hm : m.link t id = some l) :
    ∃ l0, vx.link t id = some l0 ∧ l0.Moves l := by
  obtain ⟨hdb, hml⟩ | ⟨-, hml⟩ := h.rows _
  · have hly : vy.link t id = some l := hml.symm.trans hm
    cases hl0 : db.link t id with
    | none =>
      obtain ⟨hnone, c, hc⟩ := h.guarY.newLink t id l ht hl0 hly
      exact absurd (h.guarY.lock_of_new hnone hc) hl
    | some l0 =>
      obtain ⟨l1, hl1, hmv⟩ := h.guarY.link t id l0 hl0
      obtain rfl : l1 = l := Option.some.inj (hl1.symm.trans hly)
      exact ⟨l0, hdb.trans hl0, hmv⟩
  · exact ⟨l, hml.symm.trans hm, .rfl⟩

/-- One of the two does not hold the tenant's lock. -/
theorem lock_cases (t : Tenant) :
    tenantLock t ∉ ly ∨ tenantLock t ∉ lx := by
  by_cases hl : tenantLock t ∈ lx
  · exact .inl (h.compat.advisory hl)
  · exact .inr hl

variable {c : Carry η}

/-- Whoever may have changed the tenant's carries, they ride on what they rode on. -/
theorem riding (hi : Inv H x vx) (hl : tenantLock t ∉ ly)
    (hc : m.carry t id = some c) (hr : c.released = false) :
    m.pooled t = none ∧ RidesLink H m t c.legacyLinkHash := by
  rw [(h.carry_eq hl id).1] at hc
  obtain ⟨hp, hride⟩ := hi.riding t id c hc hr
  exact ⟨(h.pooled_eq (hi.carried t id c hc).1 hl).trans hp, h.rides hl hride⟩

theorem carried (hi : Inv H x vx) (hl : tenantLock t ∉ ly)
    (hc : m.carry t id = some c) : anchoredTenant t = false ∧
      ∃ l, m.link t id = some l ∧ l.accountId = c.accountId ∧ l.railId = c.railId := by
  rw [(h.carry_eq hl id).1] at hc
  obtain ⟨ht, l, hlink, ha, hrail⟩ := hi.carried t id c hc
  obtain ⟨l', hlink', hmv⟩ := h.link_moves hlink
  exact ⟨ht, l', hlink', hmv.account.trans ha, hmv.rail.trans hrail⟩

theorem one (hi : Inv H x vx) (hl : tenantLock t ∉ ly) {id' : Uuid}
    {c' : Carry η} (hc : m.carry t id = some c) (hc' : m.carry t id' = some c')
    (hr : c.released = false) (hr' : c'.released = false) (ha : c.accountId = c'.accountId)
    (hrail : c.railId = c'.railId) : id = id' := by
  rw [(h.carry_eq hl _).1] at hc hc'
  exact hi.one t id id' c c' hc hc' hr hr' ha hrail

theorem released (hi : Inv H x vx) (hl : tenantLock t ∉ ly) {l : Link}
    (hx : x ≠ some (t, id)) (hc : m.carry t id = some c) (hr : c.released)
    (hm : m.link t id = some l) : l.kept = false := by
  rw [(h.carry_eq hl id).1] at hc
  obtain ⟨l0, hlink, hmv⟩ := h.link_back (hi.carried t id c hc).1 hl hm
  exact hmv.kept (hi.released t id c l0 hx hc hr hlink)

/-- An unrevoked link that one side has just made excludes another on the other side. -/
theorem oneLink (hi : Inv H x vx) {id' : Uuid} {l' : TenantLink}
    (hx : vx.tenantLink id = some l) (hy : vy.tenantLink id' = some l')
    (hdb : vx.tenantLink id' = db.tenantLink id') (hr : l.revoked = false)
    (hr' : l'.revoked = false) (ht : l.legacyTenantId = l'.legacyTenantId)
    (hnew : vx.tenantLink id ≠ db.tenantLink id) : id = id' := by
  rcases tenantLink_old h.guarX hx hr with hold | ⟨-, -, hlock⟩
  · exact absurd (hx.trans hold.symm) hnew
  rcases tenantLink_old h.guarY hy hr' with hold' | ⟨-, -, hlock'⟩
  · exact hi.oneLink id id' l l' hx (hdb.trans hold') hr hr' ht
  · rw [ht] at hlock
    exact absurd hlock' (h.compat.advisory hlock)

theorem inv (hx : Inv H x vx) (hy : Inv H none vy) :
    Inv H x m where
  made id l hm := by
    obtain ⟨-, he⟩ | ⟨-, he⟩ := h.rows _
    · exact hy.made id l (he.symm.trans hm)
    · exact hx.made id l (he.symm.trans hm)
  sides id l hm := by
    obtain ⟨-, he⟩ | ⟨-, he⟩ := h.rows _
    · exact hy.sides id l (he.symm.trans hm)
    · exact hx.sides id l (he.symm.trans hm)
  oneLink id id' l l' hm hm' hr hr' ht := by
    by_cases hne : id = id'
    · exact hne
    obtain ⟨hd, he⟩ | ⟨hd, he⟩ := h.rows _
    · have hv : vy.tenantLink id = some l := he.symm.trans hm
      obtain ⟨_, he'⟩ | ⟨hd', he'⟩ := h.rows _
      · exact hy.oneLink id id' l l' hv (he'.symm.trans hm') hr hr' ht
      have hv' : vx.tenantLink id' = some l' := he'.symm.trans hm'
      by_cases hnew : vx.tenantLink id' = db.tenantLink id'
      · exact hy.oneLink id id' l l' hv (hd'.trans (hnew.symm.trans hv')) hr hr' ht
      · exact (h.oneLink hx hv' hv hd hr' hr ht.symm hnew).symm
    · have hv : vx.tenantLink id = some l := he.symm.trans hm
      obtain ⟨hd', he'⟩ | ⟨_, he'⟩ := h.rows _
      · have hv' : vy.tenantLink id' = some l' := he'.symm.trans hm'
        by_cases hnew : vx.tenantLink id = db.tenantLink id
        · exact hy.oneLink id id' l l' (hd.trans (hnew.symm.trans hv)) hv' hr hr' ht
        · exact h.oneLink hx hv hv' hd' hr hr' ht hnew
      · exact hx.oneLink id id' l l' hv (he'.symm.trans hm') hr hr' ht
  carried t id c hc := by
    rcases h.lock_cases t with hl | hl
    · exact h.carried hx hl hc
    · exact h.swap.carried hy hl hc
  riding t id c hc hr := by
    rcases h.lock_cases t with hl | hl
    · exact h.riding hx hl hc hr
    · exact h.swap.riding hy hl hc hr
  one t id id' c c' hc hc' hr hr' ha hrail := by
    rcases h.lock_cases t with hl | hl
    · exact h.one hx hl hc hc' hr hr' ha hrail
    · exact h.swap.one hy hl hc hc' hr hr' ha hrail
  released t id c l hne hc hr hm := by
    rcases h.lock_cases t with hl | hl
    · exact h.released hx hl hne hc hr hm
    · exact h.swap.released hy hl nofun hc hr hm

/-- After the other side's change, this side's change is still one it may make. -/
theorem guar (hx : Inv H x vx) : Guar lx vy m where
  rows k hne := by
    obtain ⟨-, hm⟩ | ⟨hy, hm⟩ := h.rows k
    · exact absurd hm hne
    · exact h.guarX.rows k (by rwa [hm, hy] at hne)
  carry t id hne := by
    obtain ⟨-, hm⟩ | ⟨hy, hm⟩ := h.rows _
    · exact absurd hm hne
    change vy.carry t id = db.carry t id at hy
    change m.carry t id = vx.carry t id at hm
    rw [hm, hy] at hne ⊢
    exact h.guarX.carry t id hne
  revoked id l hl hne := by
    obtain ⟨-, hm⟩ | ⟨hy, hm⟩ := h.rows _
    · exact absurd (hm.trans hl) hne
    change m.tenantLink id = vx.tenantLink id at hm
    rw [hm] at hne ⊢
    exact h.guarX.revoked id l (hy.symm.trans hl) hne
  linked id l ho hn := by
    obtain ⟨-, hm⟩ | ⟨hy, hm⟩ := h.rows _
    · exact absurd (ho.symm.trans (hm.symm.trans hn)) nofun
    · exact h.guarX.linked id l (hy.symm.trans ho) (hm.symm.trans hn)
  pooled t ht hne := by
    obtain ⟨-, hm⟩ | ⟨hy, hm⟩ := h.rows _
    · exact absurd hm hne
    change vy.pooled t = db.pooled t at hy
    change m.pooled t = vx.pooled t at hm
    rw [hm, hy] at hne
    exact h.guarX.pooled t ht hne
  account t a r hr := by
    obtain ⟨-, hm⟩ | ⟨hy, hm⟩ := h.rows _
    · exact ⟨r, hm.trans hr, fun ho hc => by rw [ho] at hc; cases hc⟩
    obtain ⟨r', hr', hclose⟩ := h.guarX.account t a r (hy.symm.trans hr)
    refine ⟨r', hm.trans hr', fun ho hc => ?_⟩
    obtain ⟨hrow, hlinks⟩ := hclose ho hc
    refine ⟨hrow, fun id l hl hrev ht ha => ?_⟩
    -- A link that the other side has just made holds the account's row.
    rcases tenantLink_old h.guarY hl hrev with hold | ⟨-, hshare, -⟩
    · exact hlinks id l hold hrev ht ha
    · rw [ht, ha] at hshare
      exact Bool.noConfusion (h.compat.row hrow hshare)
  link t id l hl := by
    obtain ⟨-, hm⟩ | ⟨hy, hm⟩ := h.rows _
    · exact ⟨l, hm.trans hl, .rfl⟩
    · obtain ⟨l', hl', hmv⟩ := h.guarX.link t id l (hy.symm.trans hl)
      exact ⟨l', hm.trans hl', hmv⟩
  newLink t id l ht ho hn := by
    obtain ⟨-, hm⟩ | ⟨hy, hm⟩ := h.rows _
    · exact absurd (ho.symm.trans (hm.symm.trans hn)) nofun
    obtain ⟨hnone, c, hc⟩ := h.guarX.newLink t id l ht (hy.symm.trans ho) (hm.symm.trans hn)
    have hlock : tenantLock t ∈ lx := h.guarX.lock_of_new hnone hc
    obtain ⟨hmc, hyc⟩ := h.carry_eq (h.compat.advisory hlock) id
    exact ⟨hyc.trans hnone, c, hmc.trans hc⟩
  newCarry t id c ho hn := by
    obtain ⟨-, hm⟩ | ⟨hy, hm⟩ := h.rows _
    · exact absurd (ho.symm.trans (hm.symm.trans hn)) nofun
    have hnew : vx.carry t id = some c := hm.symm.trans hn
    have hold : db.carry t id = none := hy.symm.trans ho
    have hlock : tenantLock t ∈ lx := h.guarX.lock_of_new hold hnew
    have hnot : tenantLock t ∉ ly := h.compat.advisory hlock
    intro id' l' hl' ha hrail hcarry
    rw [(h.carry_eq hnot id').1] at hcarry
    obtain ⟨l0, hl0, hmv⟩ := h.link_back (hx.carried t id c hnew).1 hnot hl'
    exact hmv.kept (h.guarX.newCarry t id c hold hnew id' l0 hl0 (hmv.account.symm.trans ha)
      (hmv.rail.symm.trans hrail) hcarry)

end Merged

/-! ## Facts a transaction in progress relies on -/

/-- Links and carries move; nothing else changes. -/
structure Moved (v v' : Tables η) : Prop where
  carry : ∀ t id, Option.Rel Carry.Moves (v.carry t id) (v'.carry t id)
  link : ∀ t id, Option.Rel Link.Moves (v.link t id) (v'.link t id)
  tenantLink : ∀ id, v'.tenantLink id = v.tenantLink id
  pooled : ∀ t, v'.pooled t = v.pooled t
  account : ∀ t a, v'.account t a = v.account t a

section rel

variable {β : Type} {R : β → β → Prop} {o o' : Option β} {a b : β}

theorem rel_of_eq (hR : ∀ a, R a a) (h : o' = o) : Option.Rel R o o' := by
  rw [h]
  cases o with
  | none => exact .none
  | some a => exact .some (hR a)

theorem rel_of_some (h : Option.Rel R o o') (ho : o' = some b) : ∃ a, o = some a ∧ R a b := by
  cases h with
  | none => cases ho
  | some hab =>
    cases ho
    exact ⟨_, rfl, hab⟩

theorem rel_to_some (h : Option.Rel R o o') (ho : o = some a) : ∃ b, o' = some b ∧ R a b := by
  cases h with
  | none => cases ho
  | some hab =>
    cases ho
    exact ⟨_, rfl, hab⟩

end rel

variable {v' : Tables η}

theorem Moved.carry_of_some (h : Moved v v') {t : Tenant} {id : Uuid} {c' : Carry η}
    (hc : v'.carry t id = some c') : ∃ c, v.carry t id = some c ∧ c.Moves c' :=
  rel_of_some (h.carry t id) hc

theorem Moved.carry_none (h : Moved v v') {t : Tenant} {id : Uuid} (hc : v'.carry t id = none) :
    v.carry t id = none := by
  have hrel := h.carry t id
  rw [hc] at hrel
  generalize v.carry t id = o at hrel
  cases hrel
  rfl

theorem Moved.link_of_some (h : Moved v v') {t : Tenant} {id : Uuid} {l' : Link}
    (hl : v'.link t id = some l') : ∃ l, v.link t id = some l ∧ l.Moves l' :=
  rel_of_some (h.link t id) hl

theorem Carry.Moves.unreleased {c c' : Carry η} (h : c.Moves c') (hr : c'.released = false) :
    c.released = false := by
  by_contra hc
  rw [h.released (Bool.not_eq_false _ ▸ hc)] at hr
  cases hr

/-- What a transaction knows of the tables it sees, by the locks it holds. -/
structure Fact (H : Ids η) where
  holds : List (Lock Key LockName) → Tables η → Prop
  mono : ∀ {ls ls' v}, ls ⊆ ls' → holds ls v → holds ls' v
  moved : ∀ {ls v v'}, Moved v v' → holds ls v → holds ls v'
  stable : ∀ {x lx ly db vx vy m}, Merged lx ly db vx vy m → Inv H x vx → Inv H none vy →
    holds lx vx → holds lx m

namespace Fact

variable {H : Ids η}

def top : Fact H := ⟨fun _ _ => True, fun _ h => h, fun _ h => h, fun _ _ _ h => h⟩

def and (F G : Fact H) : Fact H where
  holds ls v := F.holds ls v ∧ G.holds ls v
  mono hsub h := ⟨F.mono hsub h.1, G.mono hsub h.2⟩
  moved hm h := ⟨F.moved hm h.1, G.moved hm h.2⟩
  stable hm hx hy h := ⟨F.stable hm hx hy h.1, G.stable hm hx hy h.2⟩

def lock (l : Lock Key LockName) : Fact H where
  holds ls _ := l ∈ ls
  mono hsub h := hsub h
  moved _ h := h
  stable _ _ _ h := h

def pure (p : Prop) : Fact H := ⟨fun _ _ => p, fun _ h => h, fun _ h => h, fun _ _ _ h => h⟩

/-- Something that the lock of a tenant protects. -/
def under (t : Tenant) (Q : Tables η → Prop) (hmoved : ∀ {v v'}, Moved v v' → Q v → Q v')
    (hstable : ∀ {x lx ly db vx vy m}, Merged lx ly db vx vy m → tenantLock t ∉ ly →
      Inv H x vx → Inv H none vy → Q vx → Q m) : Fact H where
  holds ls v := tenantLock t ∈ ls ∧ Q v
  mono hsub h := ⟨hsub h.1, h.2⟩
  moved hm h := ⟨h.1, hmoved hm h.2⟩
  stable hm hx hy h := ⟨h.1, hstable hm (hm.compat.advisory h.1) hx hy h.2⟩

def live (t : Tenant) (id : Uuid) : Fact H :=
  under t (fun v => ∃ l, v.tenantLink id = some l ∧ l.revoked = false ∧ l.legacyTenantId = t)
    (fun hm ⟨l, hl, h⟩ => ⟨l, (hm.tenantLink id).trans hl, h⟩)
    (fun hm hl _ _ ⟨l, hx, hr, ht⟩ => ⟨l, hm.tenantLink_eq hx hr (ht ▸ hl), hr, ht⟩)

/-- The hash names an unrevoked link of the tenant with an open source. -/
def rides (t : Tenant) (hash : η) : Fact H :=
  under t (fun v => RidesLink H v t hash)
    (fun hm ⟨id, l, r, hid, hl, hr, ht, hacc, ho⟩ =>
      ⟨id, l, r, hid, (hm.tenantLink id).trans hl, hr, ht, (hm.account _ _).trans hacc, ho⟩)
    (fun hm hl _ _ h => hm.rides hl h)

def notPooled (t : Tenant) : Fact H :=
  under t (fun v => anchoredTenant t = false ∧ v.pooled t = none)
    (fun hm h => ⟨h.1, (hm.pooled t).trans h.2⟩)
    (fun hm hl _ _ h => ⟨h.1, (hm.pooled_eq h.1 hl).trans h.2⟩)

/-- The account has no link of its own to keep. -/
def noOwn (t : Tenant) (a : Uuid) (rail : String) : Fact H :=
  under t (fun v => anchoredTenant t = false ∧ ∀ id l, v.link t id = some l → l.accountId = a →
      l.railId = rail → v.carry t id = none → l.kept = false)
    (fun hm h => by
      refine ⟨h.1, fun id l hl ha hr hc => ?_⟩
      obtain ⟨l₀, hl₀, hmv⟩ := hm.link_of_some hl
      exact hmv.kept (h.2 id l₀ hl₀ (hmv.account.symm.trans ha) (hmv.rail.symm.trans hr)
        (hm.carry_none hc)))
    (fun hm hnot _ _ h => by
      refine ⟨h.1, fun id l hl ha hr hc => ?_⟩
      rw [(hm.carry_eq hnot id).1] at hc
      obtain ⟨l₀, hl₀, hmv⟩ := hm.link_back h.1 hnot hl
      exact hmv.kept (h.2 id l₀ hl₀ (hmv.account.symm.trans ha) (hmv.rail.symm.trans hr) hc))

/-- Of the carries of a kind, only the listed ones are not released. -/
def left (t : Tenant) (sel : Uuid → String → η → Prop) (ids : List Uuid) : Fact H :=
  under t (fun v => ∀ id c, v.carry t id = some c → c.released = false →
      sel c.accountId c.railId c.legacyLinkHash → id ∈ ids)
    (fun hm h id c hc hr hs => by
      obtain ⟨c₀, hc₀, hmv⟩ := hm.carry_of_some hc
      rw [hmv.account, hmv.rail, hmv.hash] at hs
      exact h id c₀ hc₀ (hmv.unreleased hr) hs)
    (fun hm hnot _ _ h id c hc => by
      rw [(hm.carry_eq hnot id).1] at hc
      exact h id c hc)

/-- A row is locked and as read. -/
def locked (k : Key) (r : Option (Row η k))
    (hmoved : ∀ {v v' : Tables η}, Moved v v' → v.lookup k = r → v'.lookup k = r) : Fact H where
  holds ls v := (∃ m : Mode, m.writes ∧ .row k m ∈ ls) ∧ v.lookup k = r
  mono hsub h := ⟨h.1.imp fun _ hm => ⟨hm.1, hsub hm.2⟩, h.2⟩
  moved hm h := ⟨h.1, hmoved hm h.2⟩
  stable {_ _ _ db vx vy _} hm _ _ h := by
    refine ⟨h.1, ?_⟩
    obtain ⟨hx, hmm⟩ | ⟨-, hmm⟩ := hm.rows k
    · refine hmm.trans ?_
      by_contra hne
      obtain ⟨m, hm₁, hlock⟩ := h.1
      obtain ⟨n, hn, hlock'⟩ := hm.guarY.rows k fun he => hne (he.trans (hx.symm.trans h.2))
      exact Bool.noConfusion
        ((Mode.conflicts_of_writes hm₁ hn).symm.trans (hm.compat.row hlock hlock'))
    · exact hmm.trans h.2

def tenantLinkRow (id : Uuid) (l : TenantLink) : Fact H :=
  locked (.tenantLink id) (some l) fun hm h => (hm.tenantLink id).trans h

/-- There is no such link, and nobody else adds it. -/
def noLink (t : Tenant) (id : Uuid) : Fact H :=
  locked (.link t id) none fun {v v'} hm h => by
    have hrel := hm.link t id
    have hv : v.link t id = none := h
    rw [hv] at hrel
    cases hl : v'.link t id with
    | none => exact hl
    | some l => rw [hl] at hrel; cases hrel

/-- The account's row is held against new links, and its unrevoked links are among those still to
do, or have no carry that is not released. -/
def closing (t : Tenant) (a : Uuid) (todo : List (Uuid × TenantLink)) : Fact H where
  holds ls v := .row (.account t a) .update ∈ ls ∧ ∀ id l, v.tenantLink id = some l →
    l.revoked = false → l.tenantId = t → l.accountId = a →
      (∃ l', (id, l') ∈ todo ∧ l'.legacyTenantId = l.legacyTenantId) ∨
      (tenantLock l.legacyTenantId ∈ ls ∧ ∀ cid c, v.carry l.legacyTenantId cid = some c →
        c.legacyLinkHash = H.legacyLink id → c.released)
  mono hsub h := ⟨hsub h.1, fun id l hl hr ht ha => (h.2 id l hl hr ht ha).imp_right
    fun h' => ⟨hsub h'.1, h'.2⟩⟩
  moved hm h := by
    refine ⟨h.1, fun id l hl hr ht ha => ?_⟩
    refine (h.2 id l ((hm.tenantLink id).symm.trans hl) hr ht ha).imp_right fun h' => ⟨h'.1, ?_⟩
    intro cid c hc hh
    obtain ⟨c₀, hc₀, hmv⟩ := hm.carry_of_some hc
    exact hmv.released (h'.2 cid c₀ hc₀ (hmv.hash.symm.trans hh))
  stable {_ _ _ db vx vy _} hm _ _ h := by
    refine ⟨h.1, fun id l hl hr ht ha => ?_⟩
    have hvx : vx.tenantLink id = some l := by
      obtain ⟨hx, hmm⟩ | ⟨-, hmm⟩ := hm.rows (.tenantLink id)
      · rcases Merged.tenantLink_old hm.guarY (hmm.symm.trans hl) hr with hold | ⟨-, hshare, -⟩
        · exact hx.trans hold
        · rw [ht, ha] at hshare
          exact Bool.noConfusion (hm.compat.row h.1 hshare)
      · exact hmm.symm.trans hl
    refine (h.2 id l hvx hr ht ha).imp_right fun h' => ⟨h'.1, fun cid c hc => ?_⟩
    rw [(hm.carry_eq (hm.compat.advisory h'.1) cid).1] at hc
    exact h'.2 cid c hc

end Fact

end TraceCommons.Legacy
