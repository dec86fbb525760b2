import TraceCommons.Legacy.CarryRules

/-! # A carry transaction in progress

A row that is written before the lock that goes with it is kept apart until the end of the
transaction: what is proved meanwhile is about the other writes. The last section is the release
of a carry, which every trigger and every carry shares. -/

namespace TraceCommons.Legacy

open ReadCommitted Payout List

variable {η : Type} {H : Ids η} {x : Option (Tenant × Uuid)}

abbrev CarryLocal (η : Type) : Type := Local (Row η) LockName

abbrev CarryWorld (η : Type) : Type := World (Row η) Unit

def protocol (H : Ids η) : Protocol (Row η) LockName Unit where
  inv w := Inv H none w.db
  guar ls w w' := Guar ls w.db w'.db
  refl ls w := Guar.refl ls w.db

/-! ## A transaction in progress -/

/-- Its writes so far may be committed. -/
structure Ok (H : Ids η) (x : Option (Tenant × Uuid)) (l : CarryLocal η) (w : CarryWorld η) :
    Prop where
  locked : l.Locked
  guar : Guar l.locks w.db (l.view w)
  inv : Inv H x (l.view w)

variable {l : CarryLocal η} {w : CarryWorld η}

theorem Ok.merged {w' : CarryWorld η} (h : Ok H x l w) (hr : (protocol H).Rely l.locks w w') :
    ∃ ls, Merged l.locks ls w.db (l.view w) w'.db (l.view w') := by
  obtain ⟨-, ls, hc, hg⟩ := hr
  exact ⟨ls, hc, h.guar, hg, Local.merge h.locked hc hg.rows⟩

theorem Ok.rely {w' : CarryWorld η} (h : Ok H x l w) (hr : (protocol H).Rely l.locks w w') :
    Ok H x l w' := by
  obtain ⟨ls, hm⟩ := h.merged hr
  exact ⟨h.locked, hm.guar h.inv, hm.inv h.inv hr.1⟩

/-- A write is made, its row locked. -/
def Made (l : CarryLocal η) (w : CarryWorld η) (p : Write (Row η)) : Prop :=
  (∃ y ∈ l.writes, y.key = p.key) ∧ (∃ m : Mode, m.writes ∧ .row p.key m ∈ l.locks) ∧
    (l.view w).lookup p.key = p.row

def keys (pend : List (Write (Row η))) : List Key := pend.map Write.key

/-- The writes `pend` are made and kept apart; the others may be committed. -/
def Doing (H : Ids η) (pend : List (Write (Row η))) (x : Option (Tenant × Uuid)) (F : Fact H) :
    Assertion (protocol H) where
  holds l w := Ok H x (l.without (keys pend)) w ∧
    F.holds l.locks ((l.without (keys pend)).view w) ∧ ∀ p ∈ pend, Made l w p
  stable l w w' _ h hr := by
    obtain ⟨hok, hf, hp⟩ := h
    obtain ⟨ls, hm⟩ := hok.merged hr
    refine ⟨hok.rely hr, F.stable hm hok.inv hr.1 hf, fun p hmem => ?_⟩
    obtain ⟨hw, hl, hv⟩ := hp p hmem
    exact ⟨hw, hl, (lookup_view_of_mem hw _ _).trans hv⟩

/-- The tables seen in full, and without the writes kept apart. -/
def Agree (pend : List (Write (Row η))) (v v₀ : Tables η) : Prop :=
  ∀ k ∉ keys pend, v.lookup k = v₀.lookup k

variable {pend : List (Write (Row η))} {F G : Fact H} {x' : Option (Tenant × Uuid)}

/-- A statement adds its locks and its writes, with the locks of the rows it writes. -/
theorem after_eq (l : CarryLocal η) (w : CarryWorld η) (locks : List (Lock Key LockName))
    (ws : List (Write (Row η))) :
    ∃ ls, l.after w ⟨locks, ws, w.out⟩ = ⟨ls, l.writes ++ ws⟩ ∧ l.locks ++ locks ⊆ ls ∧
      ∀ p ∈ ws, ∃ m : Mode, m.writes ∧ .row p.key m ∈ ls := by
  refine ⟨l.locks ++ Effect.allLocks ⟨locks, ws, w.out⟩ _, rfl, ?_, fun p hp => ?_⟩
  · simp only [Effect.allLocks, ← append_assoc]
    exact subset_append_left _ _
  obtain ⟨m, hm, hlock⟩ := p.lock_writes _ (α := LockName)
  refine ⟨m, hm, ?_⟩
  rw [← hlock]
  exact mem_append_right _ (mem_append_right _ (mem_map_of_mem hp))

/-- After a statement whose writes may be committed beside those before it. -/
theorem Doing.after (hd : Doing H pend x F l w) (locks : List (Lock Key LockName))
    (ws : List (Write (Row η))) (hkeys : ∀ p ∈ ws, p.key ∉ keys pend)
    (h : ∀ ls', l.locks ++ locks ⊆ ls' → (∀ p ∈ ws, ∃ m : Mode, m.writes ∧ .row p.key m ∈ ls') →
      Guar ls' w.db (view ((l.without (keys pend)).view w) ws) ∧
        Inv H x' (view ((l.without (keys pend)).view w) ws) ∧
          G.holds ls' (view ((l.without (keys pend)).view w) ws)) :
    Doing H pend x' G (l.after w ⟨locks, ws, w.out⟩) w := by
  obtain ⟨hok, -, hp⟩ := hd
  obtain ⟨ls', hafter, hsub, hrow⟩ := after_eq l w _ ws
  have hfilter : (l.writes ++ ws).filter (fun p => p.key ∉ keys pend) =
      l.writes.filter (fun p => p.key ∉ keys pend) ++ ws := by
    rw [filter_append, filter_eq_self.2 fun p hp' => decide_eq_true (hkeys p hp')]
  have hview : view w.db ((l.writes ++ ws).filter fun p => p.key ∉ keys pend) =
      view ((l.without (keys pend)).view w) ws := by
    rw [hfilter, view_append]
    rfl
  obtain ⟨hg, hi, hG⟩ := h ls' hsub hrow
  have hold : l.locks ⊆ ls' := (append_subset.1 hsub).1
  rw [hafter]
  refine ⟨⟨?_, ?_, ?_⟩, ?_, fun p hmem => ?_⟩
  · intro p hp'
    simp only [Local.without, hfilter, mem_append] at hp'
    rcases hp' with hp' | hp'
    · exact (hok.locked p hp').imp fun _ hm => ⟨hm.1, hold hm.2⟩
    · exact hrow p hp'
  · simpa only [Local.without, Local.view, hview] using hg
  · simpa only [Local.without, Local.view, hview] using hi
  · simpa only [Local.without, Local.view, hview] using hG
  · obtain ⟨⟨y, hy, hk⟩, ⟨m, hm, hlock⟩, hv⟩ := hp p hmem
    refine ⟨⟨y, mem_append_left _ hy, hk⟩, ⟨m, hm, hold hlock⟩, ?_⟩
    change (view w.db (l.writes ++ ws)).lookup p.key = p.row
    rw [view_append, lookup_view_of_notMem fun q hq he => ?_]
    · exact hv
    · exact hkeys q hq (he ▸ mem_map_of_mem hmem)

variable {locks : Tables η → List (Lock Key LockName)} {τ : Type} {reply : Tables η → τ}

theorem Doing.exec {writes : Tables η → List (Write (Row η))} {x' : τ → Option (Tenant × Uuid)}
    {G : τ → Fact H}
    (h : ∀ ls db v v0, Agree pend v v0 → Guar ls db v0 → Inv H x v0 → F.holds ls v0 →
      (∀ p ∈ writes v, p.key ∉ keys pend) ∧ ∀ ls', ls ++ locks v ⊆ ls' →
        (∀ p ∈ writes v, ∃ m : Mode, m.writes ∧ .row p.key m ∈ ls') →
        Guar ls' db (view v0 (writes v)) ∧ Inv H (x' (reply v)) (view v0 (writes v)) ∧
          (G (reply v)).holds ls' (view v0 (writes v))) :
    Triple (Doing H pend x F) (Sql.exec locks writes reply)
      fun r => Doing H pend (x' r) (G r) := by
  refine .exec fun l w _ hd => ?_
  obtain ⟨hkeys, hnew⟩ := h _ _ _ _
    (fun k hk => (l.lookup_without hk w).symm) hd.1.guar hd.1.inv hd.2.1
  exact Doing.after hd _ _ hkeys hnew

/-- A statement that writes nothing. -/
theorem Doing.look {G : τ → Fact H}
    (h : ∀ ls v v0, Agree pend v v0 → Inv H x v0 → F.holds ls v0 →
      (G (reply v)).holds (ls ++ locks v) v0) :
    Triple (Doing H pend x F) (Sql.exec locks (fun _ => []) reply)
      fun r => Doing H pend x (G r) := by
  refine Doing.exec fun ls db v v0 hagree hg hi hf => ⟨fun p hp => absurd hp not_mem_nil, ?_⟩
  intro _ hsub _
  exact ⟨hg.mono ((append_subset.1 hsub).1), hi, (G _).mono hsub (h ls v v0 hagree hi hf)⟩

/-- A statement that writes nothing keeps what is known. -/
theorem Doing.keep :
    Triple (Doing H pend x F) (Sql.exec locks (fun _ => []) reply) fun _ => Doing H pend x F :=
  Doing.look fun _ _ _ _ _ h => F.mono (subset_append_left _ _) h

theorem Doing.weaken (h : ∀ ls v, Inv H x v → F.holds ls v → G.holds ls v)
    (hd : Doing H pend x F l w) : Doing H pend x G l w :=
  ⟨hd.1, h _ _ hd.1.inv hd.2.1, hd.2.2⟩

theorem Doing.conseq {F' : Fact H} {q : Query η τ} {G G' : τ → Fact H}
    (h : Triple (Doing H pend x F') q fun r => Doing H pend x (G' r))
    (hpre : ∀ ls v, Inv H x v → F.holds ls v → F'.holds ls v)
    (hpost : ∀ r ls v, Inv H x v → (G' r).holds ls v → (G r).holds ls v) :
    Triple (Doing H pend x F) q fun r => Doing H pend x (G r) :=
  Triple.conseq (fun _ _ _ hd => Doing.weaken hpre hd)
    (fun r _ _ _ hd => Doing.weaken (hpost r) hd) h

/-- Some of what is known is all that is needed from here on. -/
theorem Doing.pure {a : τ} (h : ∀ ls v, Inv H x v → F.holds ls v → G.holds ls v) :
    Triple (Doing H pend x F) (Pure.pure a : Query η τ) fun _ => Doing H pend x G :=
  Triple.pure fun _ _ _ hd => Doing.weaken h hd

/-! ## Releasing a carry -/

/-- Neither a link nor a carry is kept apart. -/
def Apart (pend : List (Write (Row η))) : Prop :=
  ∀ p ∈ pend, ∀ t id, p.key ≠ .link t id ∧ p.key ≠ .carry t id

theorem Apart.link (h : Apart pend) (t : Tenant) (id : Uuid) : Key.link t id ∉ keys pend := by
  intro hmem
  obtain ⟨p, hp, hk⟩ := mem_map.1 hmem
  exact (h p hp t id).1 hk

theorem Apart.carry (h : Apart pend) (t : Tenant) (id : Uuid) : Key.carry t id ∉ keys pend := by
  intro hmem
  obtain ⟨p, hp, hk⟩ := mem_map.1 hmem
  exact (h p hp t id).2 hk

/-- One row changes. -/
structure Puts (k : Key) (r : Option (Row η k)) (v v' : Tables η) : Prop where
  self : v'.lookup k = r
  other : ∀ k' ≠ k, v'.lookup k' = v.lookup k'

theorem puts_apply (k : Key) (r : Option (Row η k)) (v : Tables η) :
    Puts k r v (Write.apply ⟨k, r⟩ v) :=
  ⟨lookup_put v k r, fun _ hk => Write.lookup_ne ⟨k, r⟩ v hk⟩

variable {v' v : Tables η} {k : Key} {r : Option (Row η k)}

theorem Puts.rows {db : Tables η} (h : Puts k r v v') {ls : List (Lock Key LockName)}
    (hg : RowsLocked ls db v) (hl : ∃ m : Mode, m.writes ∧ .row k m ∈ ls) :
    RowsLocked ls db v' := by
  intro k' hne
  by_cases hk : k' = k
  · rw [hk]
    exact hl
  · rw [h.other k' hk] at hne
    exact hg k' hne

theorem Moved.of_lookup (h : ∀ k, v'.lookup k = v.lookup k) : Moved v v' where
  carry _ _ := rel_of_eq (fun _ => .rfl) (h _)
  link _ _ := rel_of_eq (fun _ => .rfl) (h _)
  tenantLink _ := h _
  pooled _ := h _
  account _ _ := h _

theorem Moved.refl (v : Tables η) : Moved v v := .of_lookup fun _ => rfl

variable {t : Tenant} {id : Uuid}

theorem Puts.moved_carry {c c' : Carry η} (h : Puts (.carry t id) (some c') v v')
    (hc : v.carry t id = some c) (hm : c.Moves c') : Moved v v' where
  carry t' id' := by
    by_cases hk : Key.carry t' id' = .carry t id
    · cases hk
      have hself : v'.carry t id = some c' := h.self
      rw [hself, hc]
      exact .some hm
    · exact rel_of_eq (fun _ => .rfl) (h.other _ hk)
  link _ _ := rel_of_eq (fun _ => .rfl) (h.other _ nofun)
  tenantLink _ := h.other _ nofun
  pooled _ := h.other _ nofun
  account _ _ := h.other _ nofun

theorem Puts.moved_link {l l' : Link} (h : Puts (.link t id) (some l') v v')
    (hl : v.link t id = some l) (hm : l.Moves l') : Moved v v' where
  carry _ _ := rel_of_eq (fun _ => .rfl) (h.other _ nofun)
  link t' id' := by
    by_cases hk : Key.link t' id' = .link t id
    · cases hk
      have hself : v'.link t id = some l' := h.self
      rw [hself, hl]
      exact .some hm
    · exact rel_of_eq (fun _ => .rfl) (h.other _ hk)
  tenantLink _ := h.other _ nofun
  pooled _ := h.other _ nofun
  account _ _ := h.other _ nofun

theorem Link.Moves.trans {l l' l'' : Link} (h : l.Moves l') (h' : l'.Moves l'') : l.Moves l'' :=
  ⟨h'.account.trans h.account, h'.rail.trans h.rail, fun hk => h'.kept (h.kept hk)⟩

theorem Carry.Moves.trans {c c' c'' : Carry η} (h : c.Moves c') (h' : c'.Moves c'') :
    c.Moves c'' :=
  ⟨h'.account.trans h.account, h'.rail.trans h.rail, h'.hash.trans h.hash,
    fun hr => h'.released (h.released hr)⟩

theorem Moved.carry_to (h : Moved v v') {c : Carry η} (hc : v.carry t id = some c) :
    ∃ c', v'.carry t id = some c' ∧ c.Moves c' :=
  rel_to_some (h.carry t id) hc

theorem Moved.link_to (h : Moved v v') {l : Link} (hl : v.link t id = some l) :
    ∃ l', v'.link t id = some l' ∧ l.Moves l' :=
  rel_to_some (h.link t id) hl

theorem RidesLink.of_eq (hlink : ∀ id, v'.tenantLink id = v.tenantLink id)
    (hacc : ∀ t a, v'.account t a = v.account t a) {hash : η} (h : RidesLink H v t hash) :
    RidesLink H v' t hash := by
  obtain ⟨id, l, r, hid, hl, hr, ht, ha, ho⟩ := h
  exact ⟨id, l, r, hid, (hlink id).trans hl, hr, ht, (hacc _ _).trans ha, ho⟩

/-- Links and carries that move keep the invariant, given that released carries' links end. -/
theorem Inv.moved (h : Inv H x v) (hm : Moved v v')
    (hrel : ∀ t id c l, x' ≠ some (t, id) → v'.carry t id = some c →
      c.released → v'.link t id = some l → l.kept = false) : Inv H x' v' where
  made id l hl := h.made id l ((hm.tenantLink id).symm.trans hl)
  sides id l hl := h.sides id l ((hm.tenantLink id).symm.trans hl)
  oneLink id id' l l' hl hl' := h.oneLink id id' l l' ((hm.tenantLink id).symm.trans hl)
    ((hm.tenantLink id').symm.trans hl')
  carried t id c hc := by
    obtain ⟨c0, hc0, hmc⟩ := hm.carry_of_some hc
    obtain ⟨ht, l0, hl0, ha, hr⟩ := h.carried t id c0 hc0
    obtain ⟨l, hl, hml⟩ := hm.link_to hl0
    exact ⟨ht, l, hl, (hml.account.trans ha).trans hmc.account.symm,
      (hml.rail.trans hr).trans hmc.rail.symm⟩
  riding t id c hc hr := by
    obtain ⟨c0, hc0, hmc⟩ := hm.carry_of_some hc
    obtain ⟨hp, hride⟩ := h.riding t id c0 hc0 (hmc.unreleased hr)
    rw [hmc.hash]
    exact ⟨(hm.pooled t).trans hp, hride.of_eq hm.tenantLink hm.account⟩
  one t id id' c c' hc hc' hr hr' ha hrail := by
    obtain ⟨c0, hc0, hmc⟩ := hm.carry_of_some hc
    obtain ⟨c1, hc1, hmc'⟩ := hm.carry_of_some hc'
    exact h.one t id id' c0 c1 hc0 hc1 (hmc.unreleased hr) (hmc'.unreleased hr')
      (hmc.account.symm.trans (ha.trans hmc'.account))
      (hmc.rail.symm.trans (hrail.trans hmc'.rail))
  released := hrel

theorem Guar.moved {ls : List (Lock Key LockName)} {db : Tables η} (h : Guar ls db v)
    (hm : Moved v v') (hrows : RowsLocked ls db v')
    (hlock : ∀ t id, v'.carry t id ≠ v.carry t id → tenantLock t ∈ ls) : Guar ls db v' where
  rows := hrows
  carry t id hne := by
    refine ⟨?_, fun c hc => ?_⟩
    · by_cases hsame : v'.carry t id = v.carry t id
      · exact (h.carry t id (by rwa [← hsame])).1
      · exact hlock t id hsame
    · by_cases hsame : v.carry t id = db.carry t id
      · exact hm.carry_to (hsame.trans hc)
      · obtain ⟨c1, hc1, hmv⟩ := (h.carry t id hsame).2 c hc
        obtain ⟨c2, hc2, hmv'⟩ := hm.carry_to hc1
        exact ⟨c2, hc2, hmv.trans hmv'⟩
  revoked id l hl hne := by
    rw [hm.tenantLink id] at hne ⊢
    exact h.revoked id l hl hne
  linked id l ho hn := h.linked id l ho ((hm.tenantLink id).symm.trans hn)
  pooled t ht hne := h.pooled t ht (by rwa [hm.pooled t] at hne)
  account t a r hr := by
    rw [hm.account t a]
    exact h.account t a r hr
  link t id l hl := by
    obtain ⟨l1, hl1, hmv⟩ := h.link t id l hl
    obtain ⟨l2, hl2, hmv'⟩ := hm.link_to hl1
    exact ⟨l2, hl2, hmv.trans hmv'⟩
  newLink t id l ht ho hn := by
    obtain ⟨l0, hl0, -⟩ := hm.link_of_some hn
    obtain ⟨hnone, c, hc⟩ := h.newLink t id l0 ht ho hl0
    obtain ⟨c', hc', -⟩ := hm.carry_to hc
    exact ⟨hnone, c', hc'⟩
  newCarry t id c ho hn id' l' hl' ha hr hc := by
    obtain ⟨c0, hc0, hmc⟩ := hm.carry_of_some hn
    obtain ⟨l0, hl0, hml⟩ := hm.link_of_some hl'
    exact hml.kept (h.newCarry t id c0 ho hc0 id' l0 hl0
      (hml.account.symm.trans (ha.trans hmc.account)) (hml.rail.symm.trans (hr.trans hmc.rail))
      (hm.carry_none hc))

/-! ## Rows kept apart -/

/-- The same rows may be committed. -/
theorem Ok.of_lookup {l' : CarryLocal η} (h : Ok H x l w) (hlocked : l'.Locked)
    (hsub : l.locks ⊆ l'.locks) (he : ∀ k, (l'.view w).lookup k = (l.view w).lookup k) :
    Ok H x l' w := by
  have hm : Moved (l.view w) (l'.view w) := .of_lookup he
  refine ⟨hlocked, (h.guar.mono hsub).moved hm (fun k hk => ?_) fun t id hne => ?_,
    h.inv.moved hm fun t id c k hne hc hr hl => ?_⟩
  · exact (h.guar.mono hsub).rows k (by rwa [he k] at hk)
  · exact absurd (he _) hne
  · exact h.inv.released t id c k hne ((he _).symm.trans hc) hr
      ((he _).symm.trans hl)

/-- A write to a row so far as it was committed is kept apart. -/
theorem Doing.defer (hd : Doing H [] x F l w) (locks : List (Lock Key LockName)) (k : Key)
    (r : Option (Row η k)) (hsame : (l.view w).lookup k = w.db.lookup k)
    (hG : ∀ ls, l.locks ++ locks ⊆ ls → G.holds ls (l.view w)) :
    Doing H [⟨k, r⟩] x G (l.after w ⟨locks, [⟨k, r⟩], w.out⟩) w := by
  obtain ⟨hok, -, -⟩ := hd
  change Ok H x (l.without []) w at hok
  rw [Local.without_nil] at hok
  obtain ⟨ls, hafter, hsub, hrow⟩ := after_eq l w _ _
  have hold : l.locks ⊆ ls := (append_subset.1 hsub).1
  have hlast : (view w.db (l.writes ++ [⟨k, r⟩])).lookup k = r := by
    rw [view_append]
    exact lookup_put _ k r
  let l' : CarryLocal η := ⟨ls, l.writes ++ [⟨k, r⟩]⟩
  have he : ∀ k', ((l'.without [k]).view w).lookup k' = (l.view w).lookup k' := by
    intro k'
    by_cases hk : k' = k
    · rw [hk, Local.lookup_without_mem (mem_singleton_self k), hsame]
    rw [Local.lookup_without (by simpa using hk)]
    change (view w.db (l.writes ++ [⟨k, r⟩])).lookup k' = (view w.db l.writes).lookup k'
    rw [view_append]
    exact Write.lookup_ne ⟨k, r⟩ _ hk
  rw [hafter]
  refine ⟨hok.of_lookup (fun p hp => ?_) hold he, G.moved (.of_lookup he) (hG ls hsub), ?_⟩
  · obtain ⟨hp, hne⟩ := mem_filter.1 hp
    rcases mem_append.1 hp with hp | hp
    · exact (hok.locked p hp).imp fun _ hm => ⟨hm.1, hold hm.2⟩
    · rw [mem_singleton.1 hp] at hne
      simp [keys] at hne
  · intro p hp
    obtain rfl := mem_singleton.1 hp
    exact ⟨⟨⟨k, r⟩, mem_append_right _ (mem_singleton_self _), rfl⟩,
      hrow _ (mem_singleton_self _), hlast⟩

/-- The row kept apart joins the others, with the writes of a last statement. -/
theorem Doing.join (hd : Doing H [⟨k, r⟩] x F l w) (locks : List (Lock Key LockName))
    (ws : List (Write (Row η)))
    (h : ∀ ls v0 v1, l.locks ++ locks ⊆ ls → Guar ls w.db v0 → Inv H x v0 → F.holds ls v0 →
      v0.lookup k = w.db.lookup k → v1 = l.view w → Puts k r v0 v1 →
      (∃ m : Mode, m.writes ∧ .row k m ∈ ls) →
      (∀ p ∈ ws, ∃ m : Mode, m.writes ∧ .row p.key m ∈ ls) →
      Guar ls w.db (view v1 ws) ∧ Inv H x' (view v1 ws) ∧ G.holds ls (view v1 ws)) :
    Doing H [] x' G (l.after w ⟨locks, ws, w.out⟩) w := by
  obtain ⟨hok, hf, hp⟩ := hd
  obtain ⟨-, ⟨m, hm, hlock⟩, hlast⟩ := hp ⟨k, r⟩ (mem_singleton_self _)
  obtain ⟨ls, hafter, hsub, hrow⟩ := after_eq l w _ ws
  have hold : l.locks ⊆ ls := (append_subset.1 hsub).1
  have hputs : Puts k r ((l.without (keys [⟨k, r⟩])).view w) (l.view w) :=
    ⟨hlast, fun k' hk => (Local.lookup_without (by simpa [keys] using hk) l w).symm⟩
  obtain ⟨hg, hi, hG⟩ := h ls _ _ hsub (hok.guar.mono hold) hok.inv (F.mono hold hf)
    (Local.lookup_without_mem (mem_singleton_self k) l w) rfl hputs ⟨m, hm, hold hlock⟩ hrow
  rw [hafter]
  simp only [Doing, keys, map_nil, Local.without_nil]
  refine ⟨⟨fun p hp' => ?_, ?_, ?_⟩, ?_, fun p hp' => absurd hp' not_mem_nil⟩
  · rcases mem_append.1 hp' with hp' | hp'
    · by_cases hk : p.key = k
      · exact ⟨m, hm, hold (hk ▸ hlock)⟩
      · refine (hok.locked p (mem_filter.2 ⟨hp', ?_⟩)).imp fun _ hm => ⟨hm.1, hold hm.2⟩
        simpa [keys] using hk
    · exact hrow p hp'
  · simpa [Local.view, view_append] using hg
  · simpa [Local.view, view_append] using hi
  · simpa [Local.view, view_append] using hG

/-- Nothing else is to be written. -/
theorem Doing.whole (hd : Doing H [⟨k, r⟩] x F l w)
    (h : ∀ ls db v0 v, Guar ls db v0 → Inv H x v0 → F.holds ls v0 →
      v0.lookup k = db.lookup k → Puts k r v0 v → (∃ m : Mode, m.writes ∧ .row k m ∈ ls) →
      Guar ls db v ∧ Inv H none v) : Doing H [] none .top l w := by
  have hjoin : Doing H [] none .top (l.after w ⟨[], [], w.out⟩) w :=
    Doing.join hd [] [] fun ls v0 v1 _ hg hi hf hk _ hp hl _ => by
      obtain ⟨hg', hi'⟩ := h ls _ v0 v1 hg hi hf hk hp hl
      exact ⟨hg', hi', trivial⟩
  have hsame : l.after w ⟨[], [], w.out⟩ = l := by
    simp [Local.after, Effect.allLocks]
  rwa [hsame] at hjoin

/-- Nothing is written yet. -/
def Fresh (H : Ids η) (F : Fact H) : Assertion (protocol H) where
  holds l w := l.writes = [] ∧ F.holds l.locks w.db
  stable l w w' hi h hr := by
    obtain ⟨hw, hf⟩ := h
    have hview : ∀ w : CarryWorld η, l.view w = w.db := fun w => by rw [Local.view, hw, view_nil]
    have hok : Ok H none l w := by
      refine ⟨fun p hp => ?_, ?_, ?_⟩
      · rw [hw] at hp
        exact absurd hp List.not_mem_nil
      · rw [hview]
        exact .refl _ _
      · rwa [hview]
    obtain ⟨ls, hm⟩ := hok.merged hr
    refine ⟨hw, ?_⟩
    rw [hview, hview] at hm
    exact F.stable hm hi hr.1 hf

theorem Fresh.view_eq (h : Fresh H F l w) : l.view w = w.db := by
  rw [Local.view, h.1, view_nil]

theorem Fresh.doing (hi : Inv H none w.db) (h : Fresh H F l w) : Doing H [] none F l w := by
  simp only [Doing, keys, map_nil, Local.without_nil, Fresh.view_eq h]
  refine ⟨⟨fun p hp => ?_, ?_, ?_⟩, h.2, fun p hp => absurd hp not_mem_nil⟩
  · rw [h.1] at hp
    exact absurd hp not_mem_nil
  · rw [Fresh.view_eq h]
    exact .refl _ _
  · rwa [Fresh.view_eq h]

theorem Fresh.look {G : τ → Fact H}
    (h : ∀ ls v, Inv H none v → F.holds ls v → (G (reply v)).holds (ls ++ locks v) v) :
    Triple (Fresh H F) (Sql.exec locks (fun _ => []) reply) fun r => Fresh H (G r) := by
  refine .exec fun l w hi hf => ⟨by simp [Local.after, hf.1], ?_⟩
  rw [Fresh.view_eq hf]
  refine (G _).mono ?_ (h _ _ hi hf.2)
  simp [Local.after, Effect.allLocks]

theorem Fresh.keep : Triple (Fresh H F) (Sql.exec locks (fun _ => []) reply) fun _ => Fresh H F :=
  Fresh.look fun _ _ _ h => F.mono (subset_append_left _ _) h

/-- An insert that is the first write. -/
theorem Fresh.insert {r : Row η k} {refs : List (Lock Key LockName)} {clash : Tables η → Bool}
    (h : ∀ ls v v', Inv H none v → F.holds ls v → v.lookup k = none →
      clash v = false → .row k .update ∈ ls → refs ⊆ ls → Puts k (some r) v v' →
      Guar ls v v' ∧ Inv H none v' ∧ G.holds ls v') :
    Triple (Fresh H F) (Sql.insert k r refs clash) fun _ => Doing H [] none G := by
  refine Triple.insert fun s w hi hf hnone hclash => ?_
  have hview : (s.without (keys ([] : List (Write (Row η))))).view w = w.db := by
    change (s.without []).view w = w.db
    rw [Local.without_nil, Fresh.view_eq hf]
  rw [Fresh.view_eq hf] at hnone hclash
  refine Doing.after (Fresh.doing hi hf) _ _ (fun p _ => not_mem_nil) fun ls hsub _ => ?_
  rw [hview]
  have hnew : Lock.row k .update :: refs ⊆ ls :=
    (append_subset.1 hsub).2
  exact h ls _ _ hi (F.mono ((append_subset.1 hsub).1) hf.2) hnone
    hclash (hnew (.head _)) (List.Subset.trans (subset_cons_self _ _) hnew)
    (puts_apply k _ _)

/-- The first write is kept apart. -/
theorem Fresh.write :
    Triple (Fresh H F) (Sql.exec (fun _ => []) (fun _ => [⟨k, r⟩]) reply)
      fun _ => Doing H [⟨k, r⟩] none F := by
  refine Triple.exec fun l w hi hf => ?_
  have hd := Fresh.doing hi hf
  refine Doing.defer hd [] k r (by rw [Fresh.view_eq hf]) fun ls hsub => ?_
  rw [Fresh.view_eq hf]
  exact F.mono (append_nil l.locks ▸ hsub) hf.2

/-- What a statement that puts one row has to show. -/
def PutOk (H : Ids η) (k : Key) (r : Row η k) (ls : List (Lock Key LockName)) (db v₀ : Tables η)
    (x' : Option (Tenant × Uuid)) (G : Fact H) : Prop :=
  ∀ v₁, Puts k (some r) v₀ v₁ → (∃ m : Mode, m.writes ∧ .row k m ∈ ls) →
    Guar ls db v₁ ∧ Inv H x' v₁ ∧ G.holds ls v₁

theorem Doing.put {r : Row η k} (hk : k ∉ keys pend)
    (h : ∀ ls db v0, Guar ls db v0 → Inv H x v0 → F.holds ls v0 → PutOk H k r ls db v0 x' G) :
    Triple (Doing H pend x F) (Sql.put k r) fun _ => Doing H pend x' G := by
  refine Doing.exec fun ls db v v0 _ hg hi hf => ⟨fun p hp => ?_, fun ls' hsub hrow => ?_⟩
  · rw [mem_singleton.1 hp]
    exact hk
  · have hold : ls ⊆ ls' := (append_subset.1 hsub).1
    exact h ls' db v0 (hg.mono hold) hi (F.mono hold hf) _ (puts_apply k _ v0)
      (hrow _ (mem_singleton_self _))

theorem Doing.update {f : Tables η → Row η k → Option (Row η k)}
    {x' : Bool → Option (Tenant × Uuid)} {G : Bool → Fact H} (hk : k ∉ keys pend)
    (hno : ∀ ls v v0, Inv H x v0 → F.holds ls v0 → (v0.lookup k).bind (f v) = none →
      Inv H (x' false) v0 ∧ (G false).holds ls v0)
    (hput : ∀ ls db v v0 r, Guar ls db v0 → Inv H x v0 → F.holds ls v0 →
      (v0.lookup k).bind (f v) = some r → PutOk H k r ls db v0 (x' true) (G true)) :
    Triple (Doing H pend x F) (Sql.update k f) fun found => Doing H pend (x' found) (G found) := by
  refine Doing.exec fun ls db v v0 hagree hg hi hf => ?_
  rw [hagree k hk]
  cases hb : (v0.lookup k).bind _ with
  | none =>
    refine ⟨fun p hp => absurd hp not_mem_nil, fun ls' hsub _ => ?_⟩
    have hold : ls ⊆ ls' := (append_subset.1 hsub).1
    obtain ⟨hi', hG⟩ := hno ls' v v0 hi (F.mono hold hf) hb
    exact ⟨hg.mono hold, hi', hG⟩
  | some r =>
    refine ⟨fun p hp => ?_, fun ls' hsub hrow => ?_⟩
    · rw [mem_singleton.1 hp]
      exact hk
    · have hold : ls ⊆ ls' := (append_subset.1 hsub).1
      exact hput ls' db v v0 r (hg.mono hold) hi (F.mono hold hf) hb _ (puts_apply k _ v0)
        (hrow _ (mem_singleton_self _))

/-- A link whose account and rail are those of `l`. -/
def Fact.linkOf (t : Tenant) (id : Uuid) (l : Link) : Fact H where
  holds _ v := ∃ l₀, v.link t id = some l₀ ∧ l₀.accountId = l.accountId ∧ l₀.railId = l.railId
  mono _ h := h
  moved hm h := by
    obtain ⟨l₀, hl₀, ha, hr⟩ := h
    obtain ⟨l₁, hl₁, hmv⟩ := hm.link_to hl₀
    exact ⟨l₁, hl₁, hmv.account.trans ha, hmv.rail.trans hr⟩
  stable hm _ _ h := by
    obtain ⟨l₀, hl₀, ha, hr⟩ := h
    obtain ⟨l₁, hl₁, hmv⟩ := hm.link_moves hl₀
    exact ⟨l₁, hl₁, hmv.account.trans ha, hmv.rail.trans hr⟩

/-- The released carry's link ends. -/
theorem endLink_put (hpend : Apart pend) {l l' : Link} (ha : l'.accountId = l.accountId)
    (hr : l'.railId = l.railId) (hk : l'.kept = false) :
    Triple (Doing H pend (some (t, id)) (F.and (.linkOf t id l))) (putLink t id l')
      fun _ => Doing H pend none F := by
  refine Doing.put (hpend.link t id) fun ls db v0 hg hi ⟨hf, l0, hl0, ha0, hr0⟩ v1 hp hrow => ?_
  have hm : Moved v0 v1 := hp.moved_link hl0 ⟨ha.trans ha0.symm, hr.trans hr0.symm, fun _ => hk⟩
  refine ⟨hg.moved hm (hp.rows hg.rows hrow) fun t' id' hne => ?_, hi.moved hm ?_, F.moved hm hf⟩
  · exact absurd (hp.other (.carry t' id') nofun) hne
  intro t' id' c l1 _ hc hrel hl1
  by_cases hkey : Key.link t' id' = .link t id
  · cases hkey
    obtain rfl : l' = l1 := Option.some.inj (hp.self.symm.trans hl1)
    exact hk
  · have hne : some (t, id) ≠ some (t', id') := by
      intro he
      cases he
      exact hkey rfl
    exact hi.released t' id' c l1 hne ((hp.other (.carry t' id') nofun).symm.trans hc) hrel
      ((hp.other _ hkey).symm.trans hl1)

theorem releaseCarry_triple (hpend : Apart pend) (F : Fact H) (t : Tenant)
    (sel : Uuid → String → η → Prop) (id : Uuid) (ids : List Uuid) :
    Triple (Doing H pend none (F.and (.left t sel (id :: ids)))) (releaseCarry t id)
      fun _ => Doing H pend none (F.and (.left t sel ids)) := by
  refine Triple.bind (B := fun found => Doing H pend (if found then some (t, id) else none)
    (F.and (.left t sel ids))) ?_ fun found => ?_
  · refine Doing.update (hpend.carry t id) (fun ls v v0 hi ⟨hf, hl, hleft⟩ hb => ?_)
      fun ls db v v0 r hg hi ⟨hf, hl, hleft⟩ hb v1 hp hrow => ?_
    · refine ⟨hi, hf, hl, fun id' c hc hr hs => ?_⟩
      refine (mem_cons.1 (hleft id' c hc hr hs)).resolve_left fun he => ?_
      rw [he] at hc
      have hc' : v0.lookup (.carry t id) = some c := hc
      simp [hc', hr] at hb
    · obtain ⟨c, hc, hb⟩ := Option.bind_eq_some_iff.1 hb
      have hrel : c.released = false := by
        by_contra hne
        simp [hne] at hb
      have hr : r = { c with released := true } := by
        simp only [hrel] at hb
        exact (Option.some.inj hb).symm
      have hm : Moved v0 v1 := hp.moved_carry hc (by rw [hr]; exact ⟨rfl, rfl, rfl, fun _ => rfl⟩)
      refine ⟨hg.moved hm (hp.rows hg.rows hrow) fun t' id' hne => ?_, hi.moved hm ?_,
        F.moved hm hf, hl, fun id' c' hc' hr' hs => ?_⟩
      · by_cases hkey : Key.carry t' id' = .carry t id
        · cases hkey
          exact hl
        · exact absurd (hp.other _ hkey) hne
      · intro t' id' c' l hne hc' hrel' hlink
        have hkey : Key.carry t' id' ≠ .carry t id := by
          intro he
          cases he
          exact hne rfl
        exact hi.released t' id' c' l nofun ((hp.other _ hkey).symm.trans hc') hrel'
          ((hp.other (.link t' id') nofun).symm.trans hlink)
      · by_cases hid : id' = id
        · rw [hid] at hc'
          obtain rfl : r = c' := Option.some.inj (hp.self.symm.trans hc')
          rw [hr] at hr'
          cases hr'
        · have hkey : Key.carry t id' ≠ .carry t id := by
            intro he
            cases he
            exact hid rfl
          exact (mem_cons.1 (hleft id' c' ((hp.other _ hkey).symm.trans hc') hr' hs)).resolve_left
            hid
  · cases found with
    | false => exact Triple.pure fun l w _ h => h
    | true =>
      -- Under the lock of its row the link is ending already, or ends now.
      refine Triple.bind (B := fun o => Doing H pend
        (if (o.any Link.kept) then some (t, id) else none)
        ((F.and (.left t sel ids)).and (o.elim .top (.linkOf t id)))) ?_ fun o => ?_
      · refine Doing.exec fun ls db v v0 hagree hg hi hf =>
          ⟨fun p hp => absurd hp not_mem_nil, fun ls' hsub _ => ?_⟩
        have hold : ls ⊆ ls' := (append_subset.1 hsub).1
        have hv : v.link t id = v0.link t id := hagree _ (hpend.link t id)
        refine ⟨hg.mono hold, ?_, (F.and _).mono hold hf, ?_⟩
        · change Inv H (if (v.link t id).any Link.kept then some (t, id) else none) v0
          rw [hv]
          refine hi.moved (Moved.refl v0) fun t' id' c l hne hc hr hl => ?_
          by_cases hkey : (t, id) = (t', id')
          · cases hkey
            by_contra hkept
            rw [hl] at hne
            simp [hkept] at hne
          · exact hi.released t' id' c l (fun he => hkey (Option.some.inj he)) hc hr hl
        · change (Option.elim (v.link t id) Fact.top (Fact.linkOf t id)).holds ls' v0
          rw [hv]
          cases hl : v0.link t id with
          | none => trivial
          | some l => exact ⟨l, hl, rfl, rfl⟩
      · cases o with
        | none => exact .pure fun l w _ h => ⟨h.1, h.2.1.1, h.2.2⟩
        | some l =>
          simp only [Option.any_some, Option.elim_some]
          by_cases hw : l.state = .waiting
          · have hk : l.kept := by simp [Link.kept, hw]
            rw [if_pos hw, if_pos hk]
            exact endLink_put hpend rfl rfl rfl
          · rw [if_neg hw]
            by_cases hact : l.state = .active && !l.unlinkRequested
            · have hk : l.kept := by simp [Link.kept, hact]
              rw [if_pos hact, if_pos hk]
              refine endLink_put hpend rfl rfl ?_
              simp [Link.kept, hw]
            · have hk : ¬ l.kept := by simpa [Link.kept, hw] using hact
              rw [if_neg hact, if_neg hk]
              exact .pure fun l w _ h => ⟨h.1, h.2.1.1, h.2.2⟩

theorem releaseAll_triple (hpend : Apart pend) (F : Fact H) (t : Tenant)
    (sel : Uuid → String → η → Prop) (ids : List Uuid) :
    Triple (Doing H pend none (F.and (.left t sel ids))) (Sql.forEach (releaseCarry t) ids)
      fun _ => Doing H pend none (F.and (.left t sel [])) :=
  Triple.forEach (A := fun ids => Doing H pend none (F.and (.left t sel ids)))
    (releaseCarry_triple hpend F t sel) ids

end TraceCommons.Legacy
