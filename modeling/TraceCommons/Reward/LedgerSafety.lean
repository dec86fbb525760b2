import TraceCommons.Lib.Table
import TraceCommons.Reward.Ledger

/-! # Rewards are never over-committed

What a reservation holds of a program's capacity only shrinks as time passes, so a limit that holds
at one moment holds from then on until the next call. Each call is checked against that. -/

namespace TraceCommons.Reward

open List

/-! ## What is committed at a time -/

/-- Awarded, submitted, or reserved and not expired. -/
def Reservation.committedAt (r : Reservation) (t : Time) : Bool :=
  r.state = .awarded || r.state = .submitted || (r.state = .reserved && t < r.expiresAt)

/-- What the reservation holds of a program for the participants selected. -/
def Reservation.load (program : Uuid) (sel : Hash → Bool) (t : Time) (r : Reservation) : Nat :=
  if r.programId = program && sel r.participantHash && r.committedAt t then r.awardUnits else 0

def Ledger.committed (s : Ledger) (t : Time) (program : Uuid) (sel : Hash → Bool) : Nat :=
  (s.reservations.map (·.load program sel t)).sum

theorem Reservation.committedAt_mono {r : Reservation} {t t' : Time} (ht : t ≤ t')
    (h : r.committedAt t') : r.committedAt t := by
  simp only [committedAt, Bool.or_eq_true, Bool.and_eq_true, decide_eq_true_eq] at h ⊢
  exact h.imp_right fun hres => ⟨hres.1, lt_of_le_of_lt ht hres.2⟩

/-- An amount held under a condition is held under a weaker one. -/
theorem ite_le_ite_of_imp {a b : Bool} (h : a → b) (n : Nat) :
    (if a then n else 0) ≤ if b then n else 0 := by
  split
  next ha => rw [if_pos (h ha)]
  · exact Nat.zero_le _

theorem Reservation.load_le {r r' : Reservation} (hp : r'.programId = r.programId)
    (hh : r'.participantHash = r.participantHash) (hu : r'.awardUnits = r.awardUnits)
    {t t' : Time} (h : r'.committedAt t' → r.committedAt t) (program : Uuid) (sel : Hash → Bool) :
    r'.load program sel t' ≤ r.load program sel t := by
  unfold load
  rw [hp, hh, hu]
  refine ite_le_ite_of_imp (fun hc => ?_) _
  simp only [Bool.and_eq_true] at hc ⊢
  exact ⟨hc.1, h hc.2⟩

theorem Reservation.load_le_units (r : Reservation) (program : Uuid) (sel : Hash → Bool)
    (t : Time) : r.load program sel t ≤ r.awardUnits := by
  unfold load
  split
  · exact le_rfl
  · exact Nat.zero_le _

namespace Ledger

variable {s s' : Ledger}

variable {g : Reservation → Reservation} {t : Time}

/-- Rows that change into rows that hold no more, at a later time. -/
theorem committed_map_le {t' : Time}
    (hg : ∀ r ∈ s.reservations, (g r).programId = r.programId ∧
      (g r).participantHash = r.participantHash ∧ (g r).awardUnits = r.awardUnits ∧
      ((g r).committedAt t' → r.committedAt t)) (program : Uuid) (sel : Hash → Bool) :
    ((s.reservations.map g).map (·.load program sel t')).sum ≤ s.committed t program sel := by
  rw [map_map]
  refine sum_le_sum fun r hr => ?_
  obtain ⟨hp, hh, hu, hc⟩ := hg r hr
  exact Reservation.load_le hp hh hu hc _ sel

theorem committed_mono (s : Ledger) {t' : Time} (ht : t ≤ t') (program : Uuid) (sel : Hash → Bool) :
    s.committed t' program sel ≤ s.committed t program sel :=
  sum_le_sum fun _ _ => Reservation.load_le rfl rfl rfl (Reservation.committedAt_mono ht) _ _

variable {sel : Hash → Bool}

theorem committed_eq_zero {program : Uuid}
    (h : ∀ r ∈ s.reservations, r.programId = program → sel r.participantHash = false) :
    s.committed t program sel = 0 := by
  refine sum_eq_zero fun n hn => ?_
  obtain ⟨r, hr, rfl⟩ := mem_map.1 hn
  unfold Reservation.load
  split
  next hc =>
    simp only [Bool.and_eq_true, decide_eq_true_eq] at hc
    rw [h r hr hc.1.1] at hc
    exact absurd hc.1.2 Bool.false_ne_true
  · rfl

theorem committed_le_of_imp (s : Ledger) (t : Time) (program : Uuid) {sel' : Hash → Bool}
    (h : ∀ x, sel x → sel' x) : s.committed t program sel ≤ s.committed t program sel' := by
  refine sum_le_sum fun r _ => ite_le_ite_of_imp (fun hc => ?_) _
  simp only [Bool.and_eq_true] at hc ⊢
  exact ⟨⟨hc.1.1, h _ hc.1.2⟩, hc.2⟩

/-- The sums the functions check bound what is committed afterwards. -/
theorem committed_le_used {τ : Uuid → Time} (hτ : ∀ id, τ id ≤ t)
    (hawarded : ∀ r ∈ s.reservations, r.state = .awarded →
      ∃ a ∈ s.awards, a.reservationId = r.reservationId) (program : Uuid)
    (aliases : Option (List Hash)) :
    s.committed t program (fun h => aliases.all (·.contains h)) ≤
      s.capacityUsedForAliases τ program aliases := by
  refine sum_le_sum fun r hr => ite_le_ite_of_imp (fun hc => ?_) _
  simp only [Bool.and_eq_true] at hc ⊢
  refine ⟨hc.1, ?_⟩
  have hcommit := hc.2
  simp only [Reservation.committedAt, counted, Bool.or_eq_true, Bool.and_eq_true,
    decide_eq_true_eq] at hcommit ⊢
  rcases hcommit with (haw | hsub) | hres
  · obtain ⟨a, ha, he⟩ := hawarded r hr haw
    exact .inl (.inl (find?_isSome.2 ⟨a, ha, decide_eq_true he⟩))
  · exact .inl (.inr hsub)
  · exact .inr ⟨hres.1, lt_of_le_of_lt (hτ _) hres.2⟩

/-! ## The limits -/

/-- The program keeps its capacity, and each participant its cap: a hash by itself, or all the
hashes of one principal. -/
structure Within (s : Ledger) (p : Program) (t : Time) : Prop where
  capacity : s.committed t p.programId (fun _ => true) ≤ p.terms.capacityUnits
  participant : p.identityMode = .operatorAsserted → ∀ h,
    s.committed t p.programId (fun x => x = h) ≤ p.terms.participantCapUnits
  principal : p.identityMode = .accountBound → ∀ principal,
    s.committed t p.programId (fun x => (s.aliases principal).contains x) ≤
      p.terms.participantCapUnits

def Limits (s : Ledger) (t₀ : Time) : Prop := ∀ t, t₀ ≤ t → ∀ p ∈ s.programs, s.Within p t

variable {t₀ : Time}

/-- Rows that hold no more keep every limit. -/
theorem Limits.map {now done : Time} {decisions : List Decision} {awards : List Award}
    {invalidations : List Invalidation} (h : s.Limits t₀) (hnow : t₀ ≤ now)
    (hg : ∀ t, done ≤ t → ∀ r ∈ s.reservations, (g r).programId = r.programId ∧
      (g r).participantHash = r.participantHash ∧ (g r).awardUnits = r.awardUnits ∧
      ((g r).committedAt t → r.committedAt now)) :
    Limits { s with
      reservations := s.reservations.map g, decisions, awards, invalidations } done := by
  intro t ht p hmem
  have hle := committed_map_le (hg t ht)
  obtain ⟨hcap, hpart, hprin⟩ := h now hnow p hmem
  exact ⟨(hle _ _).trans hcap, fun hm x => (hle _ _).trans (hpart hm x),
    fun hm x => (hle _ _).trans (hprin hm x)⟩

variable {r : Reservation}

/-- A new reservation that fits the limits it counts against. -/
theorem Limits.append {done : Time} {participantReservations : List ParticipantReservation}
    (h : s.Limits t₀) (ht : t₀ ≤ done)
    (hcap : ∀ p ∈ s.programs, p.programId = r.programId →
      s.committed done p.programId (fun _ => true) + r.awardUnits ≤ p.terms.capacityUnits)
    (hpart : ∀ p ∈ s.programs, p.programId = r.programId → p.identityMode = .operatorAsserted →
      s.committed done p.programId (fun x => x = r.participantHash) + r.awardUnits ≤
        p.terms.participantCapUnits)
    (hprin : ∀ p ∈ s.programs, p.programId = r.programId → p.identityMode = .accountBound →
      ∀ x, (s.aliases x).contains r.participantHash →
        s.committed done p.programId (fun y => (s.aliases x).contains y) + r.awardUnits ≤
          p.terms.participantCapUnits) :
    Limits { s with reservations := s.reservations ++ [r], participantReservations } done := by
  intro t hle p hmem
  obtain ⟨hcap0, hpart0, hprin0⟩ := h t (ht.trans hle) p hmem
  -- A limit the reservation does not count against stays; one it counts against has room.
  have hlimit : ∀ (sel : Hash → Bool) (n : Nat), s.committed t p.programId sel ≤ n →
      (p.programId = r.programId → sel r.participantHash →
        s.committed done p.programId sel + r.awardUnits ≤ n) →
      ((s.reservations ++ [r]).map (·.load p.programId sel t)).sum ≤ n := by
    intro sel n _ hroom
    rw [map_append, sum_append, map_singleton]
    by_cases hc : p.programId = r.programId ∧ sel r.participantHash
    · exact (Nat.add_le_add (committed_mono s hle _ _) (r.load_le_units _ _ _)).trans
        (hroom hc.1 hc.2)
    have hzero : r.load p.programId sel t = 0 := by
      unfold Reservation.load
      rw [if_neg]
      simp only [Bool.and_eq_true, decide_eq_true_eq]
      exact fun hl => hc ⟨hl.1.1.symm, hl.1.2⟩
    rwa [hzero]
  refine ⟨hlimit _ _ hcap0 fun hid _ => hcap p hmem hid, fun hm x => ?_, fun hm x => ?_⟩
  · refine hlimit _ _ (hpart0 hm x) fun hid hx => ?_
    rw [← of_decide_eq_true hx]
    exact hpart p hmem hid hm
  · exact hlimit _ _ (hprin0 hm x) fun hid hx => hprin p hmem hid hm x hx

/-! ## The invariant -/

/-- The award is the reservation's, for a claim made in time, by somebody else than those with a
part in it. -/
def AwardOk (s : Ledger) (a : Award) : Prop :=
  ∃ r ∈ s.reservations, ∃ p ∈ s.programs, ∃ k, r.reservationId = a.reservationId ∧
    p.programId = r.programId ∧ r.claim = some k ∧ r.state = .awarded ∧
    a.awardUnits = r.awardUnits ∧ k.submittedAt < r.expiresAt ∧
    a.reviewerHash ∉ [p.creatorHash, p.terms.sponsorHash, r.participantHash, r.creatorHash,
      k.submitterHash]

def boundHashes (s : Ledger) : List Hash := s.bindings.map (·.participantHash)

/-- Each hash is of one principal, and no principal has two reservations in a work namespace. -/
structure Identities (s : Ledger) : Prop where
  hashes : s.boundHashes.Nodup
  principals : ∀ b ∈ s.bindings, b.rewardPrincipalId ∈ s.principals
  named : ∀ x ∈ s.participantReservations, x.participantHash ∈ s.boundHashes
  namespaces : ∀ principal ns, s.namespaceCount (s.aliases principal) ns ≤ 1

structure Inv (s : Ledger) : Prop where
  programIds : (s.programs.map (·.programId)).Nodup
  reservationIds : (s.reservations.map (·.reservationId)).Nodup
  program : ∀ r ∈ s.reservations, ∃ p ∈ s.programs, p.programId = r.programId
  claim : ∀ r ∈ s.reservations, (r.state = .submitted ∨ r.state = .awarded → r.claim.isSome) ∧
    ∀ k, r.claim = some k → k.submittedAt < r.expiresAt
  evidence : ∀ r ∈ s.reservations, ∀ r' ∈ s.reservations, ∀ k k', r.claim = some k →
    r'.claim = some k' → k.evidenceHash = k'.evidenceHash → r = r'
  awarded : ∀ r ∈ s.reservations, r.state = .awarded →
    ∃ a ∈ s.awards, a.reservationId = r.reservationId
  awardIds : (s.awards.map (·.reservationId)).Nodup
  awards : ∀ a ∈ s.awards, s.AwardOk a
  bound : ∀ r ∈ s.reservations, ∀ p ∈ s.programs, p.programId = r.programId →
    p.identityMode = .accountBound → r.participantHash ∈ s.boundHashes
  identities : s.Identities

theorem Inv.program_eq (hi : s.Inv) {p q : Program} (hp : p ∈ s.programs) (hq : q ∈ s.programs)
    (he : q.programId = p.programId) : q = p :=
  inj_on_of_nodup_map hi.programIds hq hp he

variable {r' : Reservation}

theorem Inv.reservation_eq (hi : s.Inv) (hr : r ∈ s.reservations) (hr' : r' ∈ s.reservations)
    (he : r'.reservationId = r.reservationId) : r' = r :=
  inj_on_of_nodup_map hi.reservationIds hr' hr he

/-- The tables of the identities are the same. -/
structure SamePeople (s s' : Ledger) : Prop where
  principals : s'.principals = s.principals
  bindings : s'.bindings = s.bindings
  participantReservations : s'.participantReservations = s.participantReservations

theorem Identities.same (h : s.Identities) (hsame : SamePeople s s') : s'.Identities := by
  obtain ⟨p', o', r', d', a', i', q', b', x', c'⟩ := s'
  obtain ⟨rfl, rfl, rfl⟩ := hsame
  exact ⟨h.hashes, h.principals, h.named, h.namespaces⟩

/-- A principal's hashes are its own. -/
theorem Identities.disjoint (h : s.Identities) {x y : Uuid} {k : Hash} (hx : k ∈ s.aliases x)
    (hy : k ∈ s.aliases y) : x = y := by
  simp only [aliases, mem_map, mem_filter, decide_eq_true_eq] at hx hy
  obtain ⟨b, ⟨hb, rfl⟩, hk⟩ := hx
  obtain ⟨b', ⟨hb', rfl⟩, hk'⟩ := hy
  rw [inj_on_of_nodup_map h.hashes hb hb' (hk.trans hk'.symm)]

theorem aliases_subset (s : Ledger) (x : Uuid) : s.aliases x ⊆ s.boundHashes :=
  map_subset _ (filter_subset_self _)

/-- The tables the invariant is about are the same. -/
structure Same (s s' : Ledger) : Prop extends SamePeople s s' where
  programs : s'.programs = s.programs
  reservations : s'.reservations = s.reservations
  awards : s'.awards = s.awards

theorem Same.inv (h : Same s s') (hi : s.Inv) : s'.Inv := by
  have hid := hi.identities.same h.toSamePeople
  obtain ⟨p', o', r', d', a', i', q', b', x', c'⟩ := s'
  obtain ⟨⟨_, rfl, _⟩, rfl, rfl, rfl⟩ := h
  exact ⟨hi.programIds, hi.reservationIds, hi.program, hi.claim, hi.evidence, hi.awarded,
    hi.awardIds, hi.awards, hi.bound, hid⟩

theorem Same.limits (h : Same s s') (hl : s.Limits t₀) (ht : t₀ ≤ t) : s'.Limits t := by
  intro t' ht' p hp
  obtain ⟨hcap, hpart, hprin⟩ := hl t' (ht.trans ht') p (h.programs ▸ hp)
  unfold committed at hcap hpart hprin
  unfold aliases at hprin
  rw [← h.reservations] at hcap hpart hprin
  rw [← h.bindings] at hprin
  exact ⟨hcap, hpart, hprin⟩

/-! ## Changes of reservations -/

/-- What stays of a reservation: all but its state, once it has a claim that claim, and an award. -/
structure Keeps (r r' : Reservation) : Prop where
  reservationId : r'.reservationId = r.reservationId
  programId : r'.programId = r.programId
  participantHash : r'.participantHash = r.participantHash
  creatorHash : r'.creatorHash = r.creatorHash
  awardUnits : r'.awardUnits = r.awardUnits
  expiresAt : r'.expiresAt = r.expiresAt
  claim : ∀ k, r.claim = some k → r'.claim = some k
  awarded : r.state = .awarded → r'.state = .awarded

section changed

variable {decisions : List Decision} {awards : List Award} {invalidations : List Invalidation}

theorem AwardOk.map {a : Award} (h : s.AwardOk a) (hg : ∀ r ∈ s.reservations, Keeps r (g r)) :
    AwardOk { s with
      reservations := s.reservations.map g, decisions, awards, invalidations } a := by
  obtain ⟨r, hr, p, hpm, k, hid, hprog, hk, hst, hu, hlt, _⟩ := h
  have hkeep := hg r hr
  refine ⟨g r, mem_map_of_mem hr, p, hpm, k, hkeep.reservationId.trans hid,
    hprog.trans hkeep.programId.symm, hkeep.claim k hk, hkeep.awarded hst,
    hu.trans hkeep.awardUnits.symm, hkeep.expiresAt ▸ hlt, ?_⟩
  rwa [hkeep.participantHash, hkeep.creatorHash]

/-- Reservations change, perhaps with a new award. -/
theorem Inv.map {l : List Award} (hi : s.Inv) (hg : ∀ r ∈ s.reservations, Keeps r (g r))
    (ha : awards = s.awards ++ l)
    (hclaim : ∀ r ∈ s.reservations,
      ((g r).state = .submitted ∨ (g r).state = .awarded → (g r).claim.isSome) ∧
        ∀ k, (g r).claim = some k → k.submittedAt < (g r).expiresAt)
    (hev : ∀ r ∈ s.reservations, ∀ r' ∈ s.reservations, ∀ k k', (g r).claim = some k →
      (g r').claim = some k' → k.evidenceHash = k'.evidenceHash → r = r')
    (hawarded : ∀ r ∈ s.reservations, (g r).state = .awarded →
      ∃ a ∈ awards, a.reservationId = r.reservationId)
    (hids : (awards.map (·.reservationId)).Nodup)
    (hnew : ∀ a ∈ l, AwardOk { s with
      reservations := s.reservations.map g, decisions, awards, invalidations } a) :
    Inv { s with reservations := s.reservations.map g, decisions, awards, invalidations } := by
  refine ⟨hi.programIds, ?_, forall_mem_map.2 fun r hr => ?_, forall_mem_map.2 hclaim,
    forall_mem_map.2 fun r hr => forall_mem_map.2 fun r' hr' k k' hk hk' he => ?_,
    forall_mem_map.2 fun r hr hst => ?_, hids, fun a hmem => ?_,
    forall_mem_map.2 fun r hr p hpm hid hm => ?_, hi.identities.same ⟨rfl, rfl, rfl⟩⟩
  · rw [map_map]
    refine (map_congr_left fun r hr => ?_) ▸ hi.reservationIds
    exact ((hg r hr).reservationId).symm
  · rw [(hg r hr).programId]
    exact hi.program r hr
  · rw [hev r hr r' hr' k k' hk hk' he]
  · rw [(hg r hr).reservationId]
    exact hawarded r hr hst
  · rcases mem_append.1 (ha ▸ hmem) with hold | hnew'
    · exact (hi.awards a hold).map hg
    · exact hnew a hnew'
  · exact (hg r hr).participantHash ▸ hi.bound r hr p hpm (hid.trans (hg r hr).programId) hm

/-- The row as it was, or closed: neither held nor awarded any more. -/
def Closes (r r' : Reservation) : Prop :=
  r' = r ∨ r.state ≠ .awarded ∧ ∃ x t, r' = { r with state := x, terminalAt := t } ∧
    x ≠ .reserved ∧ x ≠ .submitted ∧ x ≠ .awarded

theorem Closes.keeps (h : Closes r r') : Keeps r r' := by
  rcases h with rfl | ⟨hna, x, t, rfl, -⟩
  · exact ⟨rfl, rfl, rfl, rfl, rfl, rfl, fun _ h => h, fun h => h⟩
  · exact ⟨rfl, rfl, rfl, rfl, rfl, rfl, fun _ h => h, fun h => absurd h hna⟩

theorem Closes.claim (h : Closes r r') : r'.claim = r.claim := by
  rcases h with rfl | ⟨-, x, t, rfl, -⟩ <;> rfl

theorem Closes.state (h : Closes r r') :
    r' = r ∨ r'.state ≠ .reserved ∧ r'.state ≠ .submitted ∧ r'.state ≠ .awarded := by
  rcases h with rfl | ⟨-, x, t, rfl, hx⟩
  · exact .inl rfl
  · exact .inr hx

theorem Closes.committedAt (h : Closes r r') {t' : Time} (ht : t ≤ t') (hc : r'.committedAt t') :
    r.committedAt t := by
  rcases h.state with rfl | ⟨hr, hs, ha⟩
  · exact Reservation.committedAt_mono ht hc
  · simp [Reservation.committedAt, hr, hs, ha] at hc

theorem Inv.close (hi : s.Inv) (hg : ∀ r ∈ s.reservations, Closes r (g r)) :
    Inv { s with reservations := s.reservations.map g, decisions, invalidations } := by
  refine hi.map (l := []) (fun r hr => (hg r hr).keeps) (append_nil _).symm (fun r hr => ?_)
    (fun r hr r' hr' k k' hk hk' he => ?_) (fun r hr hst => ?_) hi.awardIds nofun
  · rw [(hg r hr).claim, (hg r hr).keeps.expiresAt]
    refine ⟨fun hst => ?_, (hi.claim r hr).2⟩
    rcases (hg r hr).state with hsame | ⟨-, hns, hna⟩
    · rw [hsame] at hst
      exact (hi.claim r hr).1 hst
    · exact absurd hst (not_or.2 ⟨hns, hna⟩)
  · rw [(hg r hr).claim] at hk
    rw [(hg r' hr').claim] at hk'
    exact hi.evidence r hr r' hr' k k' hk hk' he
  · rcases (hg r hr).state with hsame | ⟨-, -, hna⟩
    · rw [hsame] at hst
      exact hi.awarded r hr hst
    · exact absurd hst hna

end changed

/-! ## New rows -/

section addProgram

variable {p : Program} {offers : List Offer} (hi : s.Inv)
  (hnew : s.findProgram p.programId = none)

include hi hnew

theorem Inv.addProgram : Inv { s with programs := s.programs ++ [p], offers } := by
  have hsub : s.programs ⊆ s.programs ++ [p] := subset_append_left _ _
  refine ⟨Table.append_key hi.programIds fun q hq => Table.ne_of_find_none hnew hq,
    hi.reservationIds, fun r hr => ?_, hi.claim, hi.evidence, hi.awarded, hi.awardIds,
    fun a ha => ?_, fun r hr q hqm hid hm => ?_, hi.identities.same ⟨rfl, rfl, rfl⟩⟩
  · exact (hi.program r hr).imp fun q hq => ⟨hsub hq.1, hq.2⟩
  · obtain ⟨r, hr, q, hqm, k, h⟩ := hi.awards a ha
    exact ⟨r, hr, q, hsub hqm, k, h⟩
  · rcases mem_append.1 hqm with hqm | hqm
    · exact hi.bound r hr q hqm hid hm
    · obtain rfl := mem_singleton.1 hqm
      obtain ⟨q', hq', he⟩ := hi.program r hr
      exact absurd (he.trans hid.symm) (Table.ne_of_find_none hnew hq')

/-- No reservation is the new program's. -/
theorem Limits.addProgram (hl : s.Limits t₀) (ht : t₀ ≤ t) :
    Limits { s with programs := s.programs ++ [p], offers } t := by
  intro t' ht' q hq
  rcases mem_append.1 hq with hq | hq
  · obtain ⟨hcap, hpart, hprin⟩ := hl t' (ht.trans ht') q hq
    exact ⟨hcap, hpart, hprin⟩
  obtain rfl := mem_singleton.1 hq
  have hzero : ∀ sel n, s.committed t' q.programId sel ≤ n := by
    intro _ n
    rw [committed_eq_zero fun r hr hid => ?_]
    · exact Nat.zero_le _
    · obtain ⟨q', hq', he⟩ := hi.program r hr
      exact absurd (he.trans hid) (Table.ne_of_find_none hnew hq')
  exact ⟨hzero _ _, fun _ _ => hzero _ _, fun _ _ => hzero _ _⟩

end addProgram

theorem Inv.addReservation (hi : s.Inv) (hnew : s.findReservation r.reservationId = none)
    (hclaim : r.claim = none) (hstate : r.state = .reserved)
    (hprog : ∃ p ∈ s.programs, p.programId = r.programId)
    (hbound : ∀ p ∈ s.programs, p.programId = r.programId → p.identityMode = .accountBound →
      r.participantHash ∈ s.boundHashes) :
    Inv { s with reservations := s.reservations ++ [r] } := by
  refine ⟨hi.programIds, ?_, ?_, ?_, ?_, ?_, hi.awardIds, ?_, ?_,
    hi.identities.same ⟨rfl, rfl, rfl⟩⟩
  · exact Table.append_key hi.reservationIds fun r' hr' => Table.ne_of_find_none hnew hr'
  · exact forall_mem_append.2 ⟨hi.program, forall_mem_singleton.2 hprog⟩
  · refine forall_mem_append.2 ⟨hi.claim, forall_mem_singleton.2 ?_⟩
    rw [hstate, hclaim]
    exact ⟨by simp, nofun⟩
  · have hnone : ∀ {k}, r.claim = some k → False := by
      intro k hk
      rw [hclaim] at hk
      cases hk
    exact forall_mem_append.2 ⟨fun r1 hr1 => forall_mem_append.2 ⟨hi.evidence r1 hr1,
      forall_mem_singleton.2 fun _ _ _ hk' => (hnone hk').elim⟩,
      forall_mem_singleton.2 fun _ _ _ _ hk => (hnone hk).elim⟩
  · refine forall_mem_append.2 ⟨hi.awarded, forall_mem_singleton.2 fun hst => ?_⟩
    rw [hstate] at hst
    cases hst
  · intro a ha
    obtain ⟨r', hr', q, hqm, k, h⟩ := hi.awards a ha
    exact ⟨r', mem_append_left _ hr', q, hqm, k, h⟩
  · exact forall_mem_append.2 ⟨hi.bound, forall_mem_singleton.2 hbound⟩

/-! ## Changes of the identities -/

section rebind

variable {principals : List Uuid} {bindings : List Binding}
  {participantReservations : List ParticipantReservation}

theorem Inv.rebind (hi : s.Inv)
    (hid : Identities { s with principals, bindings, participantReservations })
    (hsub : s.boundHashes ⊆ bindings.map (·.participantHash)) :
    Inv { s with principals, bindings, participantReservations } :=
  ⟨hi.programIds, hi.reservationIds, hi.program, hi.claim, hi.evidence, hi.awarded, hi.awardIds,
    hi.awards, fun r hr p hpm hid hm => hsub (hi.bound r hr p hpm hid hm), hid⟩

theorem Limits.rebind (hl : s.Limits t₀) (ht : t₀ ≤ t)
    (hprin : ∀ p ∈ s.programs, p.identityMode = .accountBound → ∀ x,
      s.committed t p.programId (fun h => (aliases { s with principals, bindings } x).contains h) ≤
        p.terms.participantCapUnits) : Limits { s with principals, bindings } t := by
  intro t' ht' p hpm
  obtain ⟨hcap, hpart, -⟩ := hl t' (ht.trans ht') p hpm
  exact ⟨hcap, hpart, fun hm x => (committed_mono s ht' _ _).trans (hprin p hpm hm x)⟩

end rebind

theorem namespaceCount_le_of_subset (s : Ledger) {l l' : List Hash} (h : l ⊆ l') (ns : Hash) :
    s.namespaceCount l ns ≤ s.namespaceCount l' ns := by
  refine countP_mono_left fun x _ hx => ?_
  simp only [Bool.and_eq_true, contains_iff_mem] at hx ⊢
  exact ⟨h hx.1, hx.2⟩

/-- A hash nobody has bound has no reservations of participants. -/
theorem Identities.namespaceCount_unbound (h : s.Identities) {k : Hash} (hk : k ∉ s.boundHashes)
    (ns : Hash) : s.namespaceCount [k] ns = 0 := by
  refine countP_eq_zero.2 fun x hx hc => ?_
  simp only [Bool.and_eq_true, contains_iff_mem, mem_singleton] at hc
  exact hk (hc.1 ▸ h.named x hx)

section newBinding

variable {b : Binding} (hi : s.Inv) (hnew : b.rewardPrincipalId ∉ s.principals)
  (hhash : b.participantHash ∉ s.boundHashes)

abbrev addBinding (s : Ledger) (b : Binding) : Ledger :=
  { s with principals := s.principals ++ [b.rewardPrincipalId], bindings := s.bindings ++ [b] }

include hi hnew

/-- The new principal has the new hash, the others what they had. -/
theorem aliases_addBinding (x : Uuid) : (s.addBinding b).aliases x = s.aliases x ∨
    (s.addBinding b).aliases x = [b.participantHash] := by
  by_cases hx : b.rewardPrincipalId = x
  · have hnone : s.bindings.filter (fun y => y.rewardPrincipalId = x) = [] := by
      refine filter_eq_nil_iff.2 fun y hy he => hnew ?_
      rw [hx, ← of_decide_eq_true he]
      exact hi.identities.principals y hy
    simp [aliases, hnone, hx]
  · exact .inl (by simp [aliases, hx])

include hhash

theorem Inv.addBinding : (s.addBinding b).Inv := by
  have hsub : s.boundHashes ⊆ (s.addBinding b).boundHashes :=
    map_subset _ (subset_append_left _ _)
  refine hi.rebind ⟨?_, ?_, fun x hx => hsub (hi.identities.named x hx), fun x ns => ?_⟩ hsub
  · exact Table.append_key hi.identities.hashes fun y hy he => hhash (he ▸ mem_map_of_mem hy)
  · exact forall_mem_append.2 ⟨fun y hy => mem_append_left _ (hi.identities.principals y hy),
      forall_mem_singleton.2 (mem_append_right _ (.head _))⟩
  · rcases aliases_addBinding hi hnew x with he | he
    · rw [he]
      exact hi.identities.namespaces x ns
    · rw [he]
      exact (hi.identities.namespaceCount_unbound hhash ns).trans_le (Nat.zero_le _)

theorem Limits.addBinding {t₀ : Time} (hl : s.Limits t₀) : (s.addBinding b).Limits t₀ := by
  refine hl.rebind le_rfl fun p hpm hm x => ?_
  rcases aliases_addBinding hi hnew x with he | he
  · rw [he]
    exact (hl _ le_rfl p hpm).principal hm x
  rw [he, committed_eq_zero fun r hr hid => ?_]
  · exact Nat.zero_le _
  have hbound := hi.bound r hr p hpm hid.symm hm
  refine Bool.eq_false_iff.2 fun hc => hhash ?_
  rw [contains_iff_mem, mem_singleton] at hc
  exact hc ▸ hbound

end newBinding

/-- A participant's first reservation in a work namespace. -/
theorem Identities.reserved {x : ParticipantReservation} {principal : Uuid}
    {reservations : List Reservation} (h : s.Identities)
    (hmem : x.participantHash ∈ s.aliases principal)
    (hzero : s.namespaceCount (s.aliases principal) x.workNamespaceHash = 0) :
    Identities { s with
      reservations, participantReservations := s.participantReservations ++ [x] } := by
  refine ⟨h.hashes, h.principals, forall_mem_append.2 ⟨h.named,
    forall_mem_singleton.2 (s.aliases_subset _ hmem)⟩, fun y ns => ?_⟩
  have hcount : (s.participantReservations ++ [x]).countP (fun z =>
      (s.aliases y).contains z.participantHash && z.workNamespaceHash = ns) =
      s.namespaceCount (s.aliases y) ns +
        if (s.aliases y).contains x.participantHash && x.workNamespaceHash = ns then 1 else 0 := by
    simp [namespaceCount]
  refine hcount.trans_le ?_
  split
  next hc =>
    simp only [Bool.and_eq_true, contains_iff_mem, decide_eq_true_eq] at hc
    rw [h.disjoint hc.1 hmem, ← hc.2, hzero]
  · exact h.namespaces y ns

section join

variable {surviving absorbed : Uuid}

def joined (s : Ledger) (x y : Option Binding) : List Hash :=
  (s.bindings.filter fun b => x.any (·.rewardPrincipalId = b.rewardPrincipalId) ||
    y.any (·.rewardPrincipalId = b.rewardPrincipalId)).map (·.participantHash)

theorem joinBindings_hashes (s : Ledger) (surviving absorbed : Uuid) (x y : Option Binding) :
    (s.joinBindings surviving absorbed x y).map (·.participantHash) = s.boundHashes := by
  have hmap : ∀ f : Binding → Binding, (∀ b, (f b).participantHash = b.participantHash) →
      (s.bindings.map f).map (·.participantHash) = s.boundHashes := fun f hf => Table.map_key hf
  cases y with
  | none => cases x <;> rfl
  | some y => cases x <;> exact hmap _ fun b => by split <;> rfl

theorem joinBindings_principals (hi : s.Inv) {x y : Option Binding}
    (hx : ∀ b, x = some b → b ∈ s.bindings) :
    ∀ b ∈ s.joinBindings surviving absorbed x y, b.rewardPrincipalId ∈ s.principals := by
  intro b hb
  cases y with
  | none =>
    have hb' : b ∈ s.bindings := by cases x <;> exact hb
    exact hi.identities.principals b hb'
  | some y =>
    cases x with
    | none =>
      obtain ⟨b, hb', rfl⟩ := mem_map.1 hb
      split <;> exact hi.identities.principals b hb'
    | some x =>
      obtain ⟨b, hb', rfl⟩ := mem_map.1 hb
      split
      · exact hi.identities.principals x (hx x rfl)
      · exact hi.identities.principals b hb'

/-- A principal's hashes after the merge are among those it had, or among the joined ones. -/
theorem joinBindings_aliases {x y : Option Binding}
    (hs : s'.bindings = s.joinBindings surviving absorbed x y) (principal : Uuid) :
    s'.aliases principal ⊆ s.aliases principal ∨ s'.aliases principal ⊆ s.joined x y := by
  unfold aliases
  rw [hs]
  cases y with
  | none => cases x <;> exact .inl (List.Subset.refl _)
  | some y =>
    cases x with
    | none =>
      refine .inl fun k hk => ?_
      simp only [joinBindings, mem_map, mem_filter] at hk ⊢
      obtain ⟨_, ⟨⟨b, hb, rfl⟩, hp⟩, rfl⟩ := hk
      split at hp <;> refine ⟨b, ⟨hb, hp⟩, ?_⟩ <;> split <;> rfl
    | some x =>
      by_cases hx : x.rewardPrincipalId = principal
      · refine .inr fun k hk => ?_
        simp only [joinBindings, joined, mem_map, mem_filter, Bool.or_eq_true,
          Option.any_some, decide_eq_true_eq] at hk ⊢
        obtain ⟨_, ⟨⟨b, hb, rfl⟩, hp⟩, rfl⟩ := hk
        by_cases he : b.rewardPrincipalId = y.rewardPrincipalId
        · exact ⟨b, ⟨hb, .inr he.symm⟩, by rw [if_pos he]⟩
        · rw [if_neg he] at hp ⊢
          exact ⟨b, ⟨hb, .inl (hx.trans hp.symm)⟩, rfl⟩
      · refine .inl fun k hk => ?_
        simp only [joinBindings, mem_map, mem_filter, decide_eq_true_eq] at hk ⊢
        obtain ⟨_, ⟨⟨b, hb, rfl⟩, hp⟩, rfl⟩ := hk
        by_cases he : b.rewardPrincipalId = y.rewardPrincipalId
        · rw [if_pos he] at hp
          exact absurd hp hx
        · rw [if_neg he] at hp ⊢
          exact ⟨b, ⟨hb, hp⟩, rfl⟩

end join

/-! ## The calls -/

/-- The award is on evidence that is not invalidated. -/
def OnValidEvidence (s s' : Ledger) (a : Award) : Prop :=
  ∃ r ∈ s'.reservations, ∃ k, r.reservationId = a.reservationId ∧ r.claim = some k ∧
    s.isInvalidated k.evidenceHash = false

/-- After a call that succeeded: the invariant, the limits from its end on, and new awards on
evidence that was valid before the call. -/
structure Kept (s : Ledger) (c : Reading) (s' : Ledger) : Prop where
  inv : s'.Inv
  limits : s'.Limits c.done
  earlier : s.awards ⊆ s'.awards
  awards : ∀ a ∈ s'.awards, a ∈ s.awards ∨ s.OnValidEvidence s' a

theorem Kept.of_awards {c : Reading} (ha : s'.awards = s.awards) (hi : s'.Inv)
    (hl : s'.Limits c.done) : s.Kept c s' :=
  ⟨hi, hl, ha ▸ List.Subset.refl _, fun _ h => .inl (ha ▸ h)⟩

theorem insertReservation_ok {guard : Bool} (h : s.insertReservation guard r = .ok s') :
    (guard = false → ∀ p ∈ s.programs, p.programId = r.programId →
      p.identityMode ≠ .accountBound) ∧ s' = { s with reservations := s.reservations ++ [r] } := by
  obtain ⟨_, hguard, h⟩ := bind_eq_ok.1 h
  obtain ⟨_, -, h⟩ := bind_eq_ok.1 h
  cases h
  refine ⟨fun hg p hp hid hm => ?_, rfl⟩
  simp only [refuse_eq_ok, hg, Bool.not_false, Bool.and_true] at hguard
  have hany := any_eq_false.1 hguard p hp
  simp [hid, hm] at hany

section calls

variable {c : Reading} {D : Digests} (hi : s.Inv) (hl : s.Limits c.now)

include hi hl

theorem Same.kept (h : Same s s') : s.Kept c s' :=
  .of_awards h.awards (h.inv hi) (h.limits hl c.now_le_done)

/-- A call made before is answered as it was then. -/
theorem replay_kept {β : Type} {check : Except RewardError PUnit} {v : β} :
    Yields (check >>= fun _ => pure (v, s)) fun r => s.Kept c r.2 :=
  .bind fun _ _ => .pure (Same.kept hi hl ⟨⟨rfl, rfl, rfl⟩, rfl, rfl, rfl⟩)

variable {operator : Option Operator} {program : Option Uuid}

theorem programCreate_kept {terms : Option Terms} :
    Yields (s.programCreate D c operator program terms) fun r => s.Kept c r.2 := by
  refine .bind fun actor _ => .found fun program _ => .found fun terms _ => ?_
  cases hf : s.findProgram _ with
  | some prior => exact replay_kept hi hl
  | none =>
    refine .refuse fun _ => .pure ?_
    exact .of_awards rfl (hi.addProgram hf) (.addProgram hi hf hl c.now_le_done)

theorem offerPublish_kept {terms : Option Terms} {manifest : Option Manifest} {elsewhere : Bool} :
    Yields (s.offerPublish D c operator program terms manifest elsewhere)
      fun r => s.Kept c r.2 := by
  refine .bind fun actor _ => .found fun program _ => .found fun terms _ =>
    .found fun manifest _ => .refuse fun _ => ?_
  cases hf : s.findOffer _ with
  | some prior => exact replay_kept hi hl
  | none =>
    refine .refuse fun hnew => .refuse fun _ => .refuse fun _ => .pure ?_
    have hnone : s.findProgram program = none := by simpa using hnew
    exact .of_awards rfl (hi.addProgram hnone) (.addProgram hi hnone hl c.now_le_done)

theorem offerSuspend_kept {suspended : Option Bool} :
    Yields (s.offerSuspend operator program suspended) (s.Kept c) := by
  refine .bind fun actor _ => .found fun program _ => .found fun suspended _ => .found fun _ _ =>
    .pure ?_
  exact Same.kept hi hl ⟨⟨rfl, rfl, rfl⟩, rfl, rfl, rfl⟩

variable {reservation : Option Uuid}

theorem reserve_kept {participant work consent : Option Hash} :
    Yields (s.reserve c operator program reservation participant work consent)
      fun r => s.Kept c r.2 := by
  refine .bind fun actor _ => .found fun program _ => .found fun reservation _ =>
    .found fun participant _ => .found fun work _ => .found fun consent _ => ?_
  cases hf : s.findReservation _ with
  | some prior => exact replay_kept hi hl
  | none =>
    refine .refuse fun _ => .found fun p hp => .refuse fun _ => .refuse fun hcap =>
      .refuse fun hpart => .bind fun s1 hins => .pure ?_
    obtain ⟨hguard, rfl⟩ := insertReservation_ok hins
    simp only [decide_eq_false_iff_not, not_lt] at hcap hpart
    obtain ⟨hpm, hid⟩ := Table.mem_of_find hp
    have hused := committed_le_used (s := s) c.used_le_done hi.awarded program none
    have hused' := committed_le_used (s := s) c.aliasesUsed_le_done hi.awarded program
      (some [participant])
    refine .of_awards rfl (hi.addReservation hf rfl rfl ⟨p, hpm, hid⟩
      fun q hq he hm => absurd hm (hguard rfl q hq he))
      (hl.append c.now_le_done (fun q hq he => ?_) (fun q hq he _ => ?_)
      fun q hq he hm => absurd hm (hguard rfl q hq he))
    · obtain rfl := hi.program_eq hpm hq (he.trans hid.symm)
      rw [hid]
      exact (Nat.add_le_add_right hused _).trans hcap
    · obtain rfl := hi.program_eq hpm hq (he.trans hid.symm)
      have hsel : s.committed c.done program (fun x => x = participant) =
          s.committed c.done program fun x => (some [participant]).all (·.contains x) :=
        congrArg _ (funext fun x => by simp)
      rw [hid, hsel]
      exact (Nat.add_le_add_right hused' _).trans hpart

/-- The change of one reservation, the others as they were. -/
theorem updateReservation_kept {id : Uuid} {r : Reservation} {f : Reservation → Reservation}
    {l awards : List Award} {decisions : List Decision} (hf : s.findReservation id = some r)
    (hkeep : Keeps r (f r))
    (hclaim : ((f r).state = .submitted ∨ (f r).state = .awarded → (f r).claim.isSome) ∧
      ∀ k, (f r).claim = some k → k.submittedAt < (f r).expiresAt)
    (hev : ∀ k, (f r).claim = some k → ∀ r' ∈ s.reservations, ∀ k', r'.claim = some k' →
      k.evidenceHash = k'.evidenceHash → r = r')
    (hcommit : ∀ t, c.done ≤ t → (f r).committedAt t → r.committedAt c.now)
    (ha : awards = s.awards ++ l)
    (hawarded : (f r).state = .awarded → ∃ a ∈ awards, a.reservationId = id)
    (hids : (awards.map (·.reservationId)).Nodup)
    (hnew : ∀ a ∈ l, AwardOk { s.updateReservation id f with awards, decisions } a)
    (hvalid : ∀ a ∈ l, s.OnValidEvidence { s.updateReservation id f with awards, decisions } a) :
    s.Kept c { s.updateReservation id f with awards, decisions } := by
  obtain ⟨hr, hid⟩ := Table.mem_of_find hf
  -- The rows with this id are the one row.
  have hcases : ∀ r' ∈ s.reservations,
      (r' = r ∧ (if r'.reservationId = id then f r' else r') = f r) ∨
        (r'.reservationId ≠ id ∧ (if r'.reservationId = id then f r' else r') = r') := by
    intro r' hr'
    by_cases he : r'.reservationId = id
    · obtain rfl := hi.reservation_eq hr hr' (he.trans hid.symm)
      exact .inl ⟨rfl, if_pos he⟩
    · exact .inr ⟨he, if_neg he⟩
  have hsame : ∀ r' : Reservation, Keeps r' r' :=
    fun _ => ⟨rfl, rfl, rfl, rfl, rfl, rfl, fun _ h => h, fun h => h⟩
  refine ⟨hi.map (fun r' hr' => ?_) ha (fun r' hr' => ?_)
    (fun r1 hr1 r2 hr2 k k' hk hk' he => ?_) (fun r' hr' hst => ?_) hids hnew,
    hl.map le_rfl (fun t ht r' hr' => ?_), ha ▸ subset_append_left _ _, fun a ha' => ?_⟩
  · rcases hcases r' hr' with ⟨rfl, he⟩ | ⟨-, he⟩
    · rw [he]
      exact hkeep
    · rw [he]
      exact hsame r'
  · rcases hcases r' hr' with ⟨_, he⟩ | ⟨-, he⟩
    · rw [he]
      exact hclaim
    · rw [he]
      exact hi.claim r' hr'
  · rcases hcases r1 hr1 with ⟨rfl, he1⟩ | ⟨_, he1⟩
    · rw [he1] at hk
      rcases hcases r2 hr2 with ⟨rfl, -⟩ | ⟨-, he2⟩
      · rfl
      · rw [he2] at hk'
        exact hev k hk r2 hr2 k' hk' he
    · rw [he1] at hk
      rcases hcases r2 hr2 with ⟨rfl, he2⟩ | ⟨-, he2⟩
      · rw [he2] at hk'
        exact (hev k' hk' r1 hr1 k hk he.symm).symm
      · rw [he2] at hk'
        exact hi.evidence r1 hr1 r2 hr2 k k' hk hk' he
  · rcases hcases r' hr' with ⟨rfl, he⟩ | ⟨-, he⟩
    · rw [he] at hst
      rw [hid]
      exact hawarded hst
    · rw [he] at hst
      obtain ⟨a, ha', hea⟩ := hi.awarded r' hr' hst
      exact ⟨a, ha ▸ mem_append_left _ ha', hea⟩
  · rcases hcases r' hr' with ⟨rfl, he⟩ | ⟨-, he⟩
    · rw [he]
      exact ⟨hkeep.programId, hkeep.participantHash, hkeep.awardUnits, hcommit t ht⟩
    · rw [he]
      exact ⟨rfl, rfl, rfl, Reservation.committedAt_mono (c.now_le_done.trans ht)⟩
  · exact (mem_append.1 (ha ▸ ha')).imp_right (hvalid a)

theorem claimSubmit_kept {evidence evaluation : Option Hash} :
    Yields (s.claimSubmit c operator reservation evidence evaluation) fun r => s.Kept c r.2 := by
  refine .bind fun actor _ => .found fun reservation _ => .found fun evidence _ =>
    .found fun evaluation _ => .found fun r hf => ?_
  cases hk : r.claim with
  | some claim => exact replay_kept hi hl
  | none =>
    refine .refuse fun hstate => .refuse fun hexp => .refuse fun _ => .refuse fun hdup => .pure ?_
    simp only [decide_eq_false_iff_not, not_not, not_le] at hstate hexp
    rw [any_eq_false] at hdup
    refine updateReservation_kept hi hl (l := []) hf ?_ ?_ ?_ ?_ (append_nil _).symm nofun
      hi.awardIds nofun nofun
    · refine ⟨rfl, rfl, rfl, rfl, rfl, rfl, fun k hk' => absurd (hk.symm.trans hk') nofun, ?_⟩
      intro hst
      rw [hstate] at hst
      cases hst
    · refine ⟨fun _ => rfl, fun k hk' => ?_⟩
      cases hk'
      exact hexp
    · intro k hk' r' hr' k' hk1 he
      cases hk'
      have hno := hdup r' hr'
      rw [hk1] at hno
      simp [← he] at hno
    · simp [Reservation.committedAt, hstate, hexp]

theorem close_kept {g : Reservation → Reservation} {decisions : List Decision}
    {invalidations : List Invalidation} (hg : ∀ r ∈ s.reservations, Closes r (g r)) :
    s.Kept c { s with reservations := s.reservations.map g, decisions, invalidations } := by
  refine .of_awards rfl (hi.close hg) (hl.map le_rfl (fun t ht r hr => ?_))
  have hkeep := (hg r hr).keeps
  exact ⟨hkeep.programId, hkeep.participantHash, hkeep.awardUnits,
    (hg r hr).committedAt (c.now_le_done.trans ht)⟩

omit hl in
theorem closes_update {id : Uuid} {r : Reservation} {x : ReservationState} {t : Option Time}
    (hf : s.findReservation id = some r) (hna : r.state ≠ .awarded)
    (hx : x ≠ .reserved ∧ x ≠ .submitted ∧ x ≠ .awarded) :
    ∀ r' ∈ s.reservations, Closes r'
      (if r'.reservationId = id then { r' with state := x, terminalAt := t } else r') := by
  intro r' hr'
  obtain ⟨hr, hid⟩ := Table.mem_of_find hf
  by_cases he : r'.reservationId = id
  · obtain rfl := hi.reservation_eq hr hr' (he.trans hid.symm)
    rw [if_pos he]
    exact .inr ⟨hna, x, t, rfl, hx⟩
  · rw [if_neg he]
    exact .inl rfl

variable {decision : Option Uuid}

theorem cancel_kept : Yields (s.cancel c operator reservation decision) (s.Kept c) := by
  refine .bind fun actor _ => .found fun reservation _ => .found fun decision _ => ?_
  cases hd : s.findDecision _ with
  | some prior =>
    exact .refuse fun _ => .pure (Same.kept hi hl ⟨⟨rfl, rfl, rfl⟩, rfl, rfl, rfl⟩)
  | none =>
    refine .found fun r hf => .refuse fun hstate => .pure ?_
    simp only [decide_eq_false_iff_not, not_not] at hstate
    have hna : r.state ≠ .awarded := by simp [hstate]
    exact close_kept hi hl (closes_update (x := .cancelled) hi hf hna ⟨nofun, nofun, nofun⟩)

theorem invalidate_kept {evidence : Option Hash} :
    Yields (s.invalidate c operator evidence decision) fun r => s.Kept c r.2 := by
  refine .bind fun actor _ => .found fun decision _ => .found fun evidence _ => ?_
  cases hd : s.findDecision _ with
  | some prior => exact replay_kept hi hl
  | none =>
    refine .refuse fun _ => .pure ?_
    refine close_kept hi hl fun r _ => ?_
    split
    next hc =>
      simp only [Bool.and_eq_true, decide_eq_true_eq] at hc
      exact .inr ⟨by simp [hc.2], _, _, rfl, nofun, nofun, nofun⟩
    · exact .inl rfl

theorem review_kept {accept : Option Bool} {reason : Option Reason} :
    Yields (s.review c operator reservation decision accept reason) fun r => s.Kept c r.2 := by
  refine .bind fun actor _ => .found fun reservation _ => .found fun decision _ =>
    .found fun accept _ => .found fun reason _ => ?_
  cases hd : s.findDecision _ with
  | some prior => exact replay_kept hi hl
  | none =>
    refine .found fun r hf => .found fun p hp => .refuse fun hself => .refuse fun hstate =>
      .refuse fun hvalid => ?_
    simp only [decide_eq_false_iff_not, not_not] at hstate
    have hna : r.state ≠ .awarded := by simp [hstate]
    cases accept with
    | false =>
      exact .pure (close_kept hi hl (closes_update (x := .rejected) hi hf hna
        ⟨nofun, nofun, nofun⟩))
    | true =>
      refine .bind fun s1 hins => .pure ?_
      obtain ⟨_, hfresh, hins⟩ := bind_eq_ok.1 hins
      cases hins
      obtain ⟨hr, hid⟩ := Table.mem_of_find hf
      obtain ⟨hpm, hpid⟩ := Table.mem_of_find hp
      obtain ⟨k, hk⟩ := Option.isSome_iff_exists.1 ((hi.claim r hr).1 (.inl hstate))
      simp only [refuse_eq_ok, Option.isSome_eq_false_iff, Option.isNone_iff_eq_none] at hfresh
      refine updateReservation_kept hi hl hf
        ⟨rfl, rfl, rfl, rfl, rfl, rfl, fun _ h => h, fun _ => rfl⟩
        ⟨fun _ => (hi.claim r hr).1 (.inl hstate), (hi.claim r hr).2⟩
        (fun k1 hk1 r' hr' k' hk' he => hi.evidence r hr r' hr' k1 k' hk1 hk' he)
        (fun t _ _ => by simp [Reservation.committedAt, hstate])
        rfl (fun _ => ⟨_, mem_append_right _ (.head _), rfl⟩)
        (Table.append_key hi.awardIds fun a ha => Table.ne_of_find_none hfresh ha)
        (forall_mem_singleton.2 ⟨{ r with state := .awarded, terminalAt := some _ },
          mem_map.2 ⟨r, hr, if_pos hid⟩, p, hpm, k, hid, hpid, hk, rfl, rfl,
          (hi.claim r hr).2 k hk, ?_⟩)
        (forall_mem_singleton.2 ⟨{ r with state := .awarded, terminalAt := some _ },
          mem_map.2 ⟨r, hr, if_pos hid⟩, k, hid, hk, by simpa [hk] using hvalid⟩)
      simp only [hk, Option.any_some, Bool.or_eq_false_iff, decide_eq_false_iff_not] at hself
      obtain ⟨⟨⟨⟨hcreator, hsponsor⟩, hpart⟩, hres⟩, hsub⟩ := hself
      simp only [mem_cons, not_mem_nil, or_false, not_or]
      exact ⟨hcreator, hsponsor, hpart, hres, Ne.symm hsub⟩

omit hi hl in
/-- The identity of the account: the one it has, or a new one. -/
theorem participantIdentity_ok {account newPrincipal : Uuid} {b : Binding} {t₀ : Time}
    (hi : s.Inv) (hl : s.Limits t₀)
    (h : s.participantIdentity D account newPrincipal = .ok (b, s')) :
    s'.Inv ∧ s'.Limits t₀ ∧ b ∈ s'.bindings ∧ s'.reservations = s.reservations ∧
      s'.awards = s.awards := by
  unfold participantIdentity at h
  cases hf : s.findBinding account with
  | some b' =>
    simp only [hf] at h
    cases h
    exact ⟨hi, hl, (Table.mem_of_find hf).1, rfl, rfl⟩
  | none =>
    simp only [hf, createIdentity] at h
    obtain ⟨_, hprin, h⟩ := bind_eq_ok.1 h
    obtain ⟨_, hfresh, h⟩ := bind_eq_ok.1 h
    cases h
    have hnew : newPrincipal ∉ s.principals := by simpa using hprin
    have hhash : D.principal newPrincipal ∉ s.boundHashes := by
      rw [refuse_eq_ok, any_eq_false] at hfresh
      intro hmem
      obtain ⟨x, hx, he⟩ := mem_map.1 hmem
      simpa [he] using hfresh x hx
    let b : Binding := ⟨account, newPrincipal, D.principal newPrincipal⟩
    exact ⟨hi.addBinding (b := b) hnew hhash, .addBinding (b := b) hi hnew hhash hl,
      mem_append_right _ (.head _), rfl, rfl⟩

theorem participantReserve_kept {u : Participant} {version : Option Hash} :
    Yields (s.participantReserve D c u program reservation version) fun r => s.Kept c r.2 := by
  refine .bind fun account _ => .found fun program _ => .found fun reservation _ => ?_
  cases hf : s.findReservation _ with
  | some prior => exact .found fun _ _ => .refuse fun _ => .found fun _ _ => replay_kept hi hl
  | none =>
    refine .found fun version _ => .bind fun ⟨b, s1⟩ hident => ?_
    obtain ⟨hi1, hl1, hb, hres, hawards⟩ := participantIdentity_ok hi hl hident
    refine .found fun p hp => .found fun offer _ => .refuse fun _ => .refuse fun _ =>
      .refuse fun _ => .refuse fun hns => .refuse fun hcap => .refuse fun hpart =>
      .bind fun s2 hins => .pure ?_
    obtain ⟨-, hs2⟩ := insertReservation_ok hins
    simp only [decide_eq_false_iff_not, not_lt] at hns hcap hpart
    obtain ⟨hpf, hmode⟩ := Option.filter_eq_some_iff.1 hp
    obtain ⟨hpm, hid⟩ := Table.mem_of_find hpf
    have hmem : b.participantHash ∈ s1.aliases b.rewardPrincipalId :=
      mem_map_of_mem (mem_filter.2 ⟨hb, decide_eq_true rfl⟩)
    have hused := committed_le_used (s := s1) c.used_le_done hi1.awarded program none
    have hused' := committed_le_used (s := s1) c.aliasesUsed_le_done hi1.awarded program
      (some (s1.aliases b.rewardPrincipalId))
    have hnew : s1.findReservation reservation = none := by
      rw [findReservation, hres]
      exact hf
    subst hs2
    refine .of_awards hawards ((hi1.addReservation hnew rfl rfl ⟨p, hpm, hid⟩
      fun _ _ _ _ => s1.aliases_subset _ hmem).rebind
        (hi1.identities.reserved hmem (Nat.le_zero.1 hns)) (List.Subset.refl _)) ?_
    refine hl1.append c.now_le_done (fun q hq he => ?_) (fun q hq he hm => ?_)
      fun q hq he _ x hx => ?_
    · obtain rfl := hi1.program_eq hpm hq (he.trans hid.symm)
      rw [hid]
      exact (Nat.add_le_add_right hused _).trans hcap
    · obtain rfl := hi1.program_eq hpm hq (he.trans hid.symm)
      rw [of_decide_eq_true hmode] at hm
      cases hm
    · obtain rfl := hi1.program_eq hpm hq (he.trans hid.symm)
      obtain rfl := hi1.identities.disjoint (contains_iff_mem.1 hx) hmem
      rw [hid]
      exact (Nat.add_le_add_right hused' _).trans hpart

/-- The checks of a merge cover the joined hashes. -/
theorem accountsMerge_kept {m : Merge} : Yields (s.accountsMerge c m) (s.Kept c) := by
  refine .found fun surviving _ => .found fun absorbed _ => .refuse fun _ => ?_
  dsimp only
  split
  · exact .pure (Same.kept hi hl ⟨⟨rfl, rfl, rfl⟩, rfl, rfl, rfl⟩)
  refine .bind fun _ _ => .refuse fun _ => .refuse fun hcap => .refuse fun hns => .pure ?_
  rw [any_eq_false] at hcap hns
  generalize hx : s.findBinding _ = x at hcap hns ⊢
  generalize s.findBinding _ = y at hcap hns ⊢
  let s1 : Ledger := { s with bindings := s.joinBindings surviving absorbed x y }
  have haliases : ∀ z, s1.aliases z ⊆ s.aliases z ∨ s1.aliases z ⊆ s.joined x y :=
    joinBindings_aliases rfl
  have hhashes : s1.boundHashes = s.boundHashes := s.joinBindings_hashes _ _ x y
  refine .of_awards rfl (hi.rebind ⟨hhashes.symm ▸ hi.identities.hashes,
      joinBindings_principals hi fun b hb => (Table.mem_of_find (hx.trans hb)).1,
      fun z hz => hhashes.symm ▸ hi.identities.named z hz, fun z ns => ?_⟩
      (hhashes ▸ List.Subset.refl _)) (hl.rebind c.now_le_done fun p hp hm z => ?_)
  · rcases haliases z with hsub | hsub
    · exact (s.namespaceCount_le_of_subset hsub ns).trans (hi.identities.namespaces z ns)
    · refine (s.namespaceCount_le_of_subset hsub ns).trans ?_
      by_contra hgt
      obtain ⟨r, hr, hc⟩ := countP_pos_iff.1 (Nat.zero_lt_of_lt (not_le.1 hgt))
      simp only [Bool.and_eq_true, decide_eq_true_eq] at hc
      refine hns r hr ?_
      simp only [Bool.and_eq_true, decide_eq_true_eq, hc.2]
      exact ⟨hc.1, not_le.1 hgt⟩
  · have himp : ∀ {l : List Hash}, s1.aliases z ⊆ l →
        s.committed c.done p.programId (fun k => (s1.aliases z).contains k) ≤
          s.committed c.done p.programId (fun k => l.contains k) := fun hsub =>
      s.committed_le_of_imp _ _ fun k hk =>
        contains_iff_mem.2 (hsub (contains_iff_mem.1 hk))
    rcases haliases z with hsub | hsub
    · exact (himp hsub).trans ((hl _ c.now_le_done p hp).principal hm z)
    refine (himp hsub).trans ?_
    have hcheck := hcap p hp
    simp only [Bool.and_eq_true, decide_eq_true_eq, not_and, not_lt] at hcheck
    by_cases hany : s.reservations.any fun r => r.programId = p.programId &&
        (s.joined x y).contains r.participantHash
    · exact (committed_le_used (s := s) c.used_le_done hi.awarded _
        _).trans (hcheck hany)
    rw [committed_eq_zero fun r hr hid => ?_]
    · exact Nat.zero_le _
    · have hno := any_eq_false.1 (Bool.eq_false_iff.2 hany) r hr
      simpa [hid] using hno

theorem apply_kept (call : Call) : Yields (s.apply D c call) (s.Kept c) := by
  cases call with
  | programCreate o p t => exact .map (programCreate_kept hi hl)
  | offerPublish o p t m e => exact .map (offerPublish_kept hi hl)
  | offerSuspend o p x => exact offerSuspend_kept hi hl
  | reserve o p r k w e => exact .map (reserve_kept hi hl)
  | claimSubmit o r e v => exact .map (claimSubmit_kept hi hl)
  | review o r d a x => exact .map (review_kept hi hl)
  | cancel o r d => exact cancel_kept hi hl
  | invalidate o e d => exact .map (invalidate_kept hi hl)
  | participantReserve u p r v => exact .map (participantReserve_kept hi hl)
  | accountsMerge m => exact accountsMerge_kept hi hl

end calls

/-! ## Every history -/

section histories

variable {D : Digests}

theorem step_kept {e : Reading × Call} (hi : s.Inv) (hl : s.Limits s.clock)
    (h : s.step D e = some s') : s.Kept e.1 s' ∧ s'.clock = e.1.done := by
  unfold step at h
  split at h
  next hclock =>
    have hnow : s.Limits e.1.now := fun t ht => hl t (hclock.trans ht)
    split at h
    next s1 happ =>
      cases h
      obtain ⟨hi1, hl1, hsub, ha⟩ := apply_kept hi hnow e.2 s1 happ
      have hsame : Same s1 { s1 with clock := e.1.done } := ⟨⟨rfl, rfl, rfl⟩, rfl, rfl, rfl⟩
      exact ⟨⟨hsame.inv hi1, hsame.limits hl1 le_rfl, hsub, ha⟩, rfl⟩
    · cases h
      exact ⟨Same.kept hi hnow ⟨⟨rfl, rfl, rfl⟩, rfl, rfl, rfl⟩, rfl⟩
  · cases h

theorem run_kept {es : List (Reading × Call)} (hi : s.Inv) (hl : s.Limits s.clock)
    (h : s.run D es = some s') : s'.Inv ∧ s'.Limits s'.clock := by
  induction es generalizing s with
  | nil =>
    cases h
    exact ⟨hi, hl⟩
  | cons e es ih =>
    obtain ⟨s1, hstep, hrun⟩ := Option.bind_eq_some_iff.1 h
    obtain ⟨hkept, hclock⟩ := step_kept hi hl hstep
    exact ih hkept.inv (hclock ▸ hkept.limits) hrun

theorem start_inv (t : Time) : (start t).Inv :=
  ⟨nodup_nil, nodup_nil, nofun, nofun, nofun, nofun, nodup_nil, nofun, nofun,
    ⟨nodup_nil, nofun, nofun, fun _ _ => Nat.zero_le _⟩⟩

/-- Rewards are not over-committed, now or later. -/
structure Sound (s : Ledger) : Prop where
  within : ∀ t, s.clock ≤ t → ∀ p ∈ s.programs, s.Within p t
  reservationIds : (s.reservations.map (·.reservationId)).Nodup
  awards : ∀ a ∈ s.awards, s.AwardOk a
  awardOnly : ∀ a ∈ s.awards, ∀ a' ∈ s.awards, a.reservationId = a'.reservationId → a = a'
  evidence : ∀ r ∈ s.reservations, ∀ r' ∈ s.reservations, ∀ k k', r.claim = some k →
    r'.claim = some k' → k.evidenceHash = k'.evidenceHash → r = r'
  namespaces : ∀ principal ns, s.namespaceCount (s.aliases principal) ns ≤ 1

/-- After every history, and every next call awards only on evidence not invalidated before. -/
theorem never_overcommitted (t₀ : Time) (es : List (Reading × Call))
    (h : (start t₀).run D es = some s) :
    s.Sound ∧ ∀ e s', s.step D e = some s' →
      s.awards ⊆ s'.awards ∧ ∀ a ∈ s'.awards, a ∈ s.awards ∨ s.OnValidEvidence s' a := by
  obtain ⟨hi, hl⟩ := run_kept (start_inv _) (fun _ _ => nofun) h
  refine ⟨⟨hl, hi.reservationIds, hi.awards,
    fun a ha a' ha' he => inj_on_of_nodup_map hi.awardIds ha ha' he, hi.evidence,
    hi.identities.namespaces⟩, fun e s' hstep => ?_⟩
  have hkept := (step_kept hi hl hstep).1
  exact ⟨hkept.earlier, hkept.awards⟩

/-- A program and an offer; an operator reserves for a participant, submits and has it awarded; an
account reserves in the offer and is merged into another one. -/
def awardedHistory : List (Reading × Call) :=
  let issuer : Option Operator := some ⟨1, .issuer⟩
  let reviewer : Option Operator := some ⟨2, .reviewer⟩
  let terms : Terms := ⟨.missionCompletion, 0, 0, 0, 0, 0, 0, 7, 10, 30, 20, 1000000000, 60⟩
  let manifest : Manifest := ⟨"d", "r", "e", "g", "c", "p", "t"⟩
  let account (n : Uuid) : Participant := ⟨.ok (), true, some n, n⟩
  let at' (t : Time) : Reading := ⟨t, fun _ => t, fun _ => t, t, t, fun _ => le_rfl,
    fun _ => le_rfl, fun _ => le_rfl, fun _ => le_rfl, le_rfl⟩
  [(at' 0, .programCreate issuer (some 1) (some terms)),
    (at' 1, .offerPublish issuer (some 2) (some terms) (some manifest) false),
    (at' 2, .reserve issuer (some 1) (some 10) (some 3) (some 4) (some 5)),
    (at' 3, .claimSubmit issuer (some 10) (some 6) (some 8)),
    (at' 4, .review reviewer (some 10) (some 20) (some true) (some .completionVerified)),
    (at' 5, .participantReserve (account 100) (some 2) (some 11) (some 9)),
    (at' 6, .accountsMerge ⟨some 101, some 100, some 0, .ok (), true, true, true⟩)]

def awardedDigests : Digests :=
  ⟨fun _ => 0, fun _ => 0, fun _ _ => 9, fun p => BitVec.ofNat 256 p, fun h _ => h, fun h _ _ => h⟩

theorem never_overcommitted_awarded : ∃ s, (start 0).run awardedDigests awardedHistory = some s ∧
    s.awards.map (·.awardUnits) = [10] ∧ s.bindings.map (·.accountId) = [101] ∧ s.Sound := by
  obtain ⟨s, hs, hrows⟩ := (Option.any_eq_true _ _).1 (by decide +kernel :
    ((start 0).run awardedDigests awardedHistory).any fun s =>
      s.awards.map (·.awardUnits) = [10] ∧ s.bindings.map (·.accountId) = [101])
  obtain ⟨ha, hb⟩ := of_decide_eq_true hrows
  exact ⟨s, hs, ha, hb, (never_overcommitted 0 awardedHistory hs).1⟩

end histories

end Ledger

end TraceCommons.Reward
