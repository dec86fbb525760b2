import TraceCommons.Trust.RuleCounts

/-! # Earned trust never rises on negative evidence

One more fact of the negative kinds takes submissions out of the count and nothing in; one more
attestation only adds to it. The order of the facts does not matter. -/

namespace TraceCommons.Trust

open List

/-! ## Order -/

section Order

variable {p : GrowthPolicy} {facts facts' : List EvaluationFact}

theorem statusExclusions_congr (h : ∀ f, f ∈ facts ↔ f ∈ facts') (id : Uuid) :
    id ∈ statusExclusions p facts ↔ id ∈ statusExclusions p facts' := by
  unfold statusExclusions
  split
  · simp [h]
  · rfl

section

variable (h : facts.Perm facts')

include h

theorem acceptances_perm : (acceptances p facts).Perm (acceptances p facts') := by
  have hsame : acceptances p facts = facts.filter fun f =>
      acceptedFactQualifies p f ∧ f.submissionId ∉ statusExclusions p facts' := by
    unfold acceptances
    simp [statusExclusions_congr fun f => h.mem_iff]
  rw [hsame]
  exact h.filter _

theorem acceptedAt_perm : acceptedAt p facts = acceptedAt p facts' := by
  refine OrdMap.ext_get? fun k => ?_
  rw [acceptedAt, acceptedAt, OrdMap.get?_foldl_insertMin, OrdMap.get?_foldl_insertMin]
  exact min?_congr fun a => (((acceptances_perm h).filter _).map _).mem_iff

theorem latestPenalty_perm : latestPenalty facts = latestPenalty facts' :=
  max?_congr fun _ => ((h.filter _).map _).mem_iff

theorem netting_perm (id : Uuid) (at_ : DateTime) : netting facts id at_ = netting facts' id at_ :=
  min?_congr fun _ => ((h.filter _).filterMap _).mem_iff

theorem standing_perm (start : DateTime) (id : Uuid) (at_ : DateTime) :
    standing p facts start id at_ = standing p facts' start id at_ := by
  have hgated : isGated p facts id = isGated p facts' id := h.any_eq
  have hattested : isAttested facts id = isAttested facts' id := h.any_eq
  unfold standing
  rw [latestPenalty_perm h, netting_perm h, hgated, hattested]

theorem tally_perm (start : DateTime) : tally p facts start = tally p facts' start := by
  unfold tally
  rw [acceptedAt_perm h]
  simp [standing_perm h]

end

theorem factsDigest_perm (d : Digests) (h : facts.Perm facts') :
    factsDigest d facts = factsDigest d facts' := by
  refine congrArg d.hash ?_
  have hperm := ((facts.map _).mergeSort_perm (· ≤ ·)).trans ((h.map _).trans
    ((facts'.map d.encode).mergeSort_perm (· ≤ ·)).symm)
  have hsorted : ∀ l : List String, (l.mergeSort (· ≤ ·)).Pairwise (· ≤ ·) := fun l => by
    simpa using @pairwise_mergeSort _ (· ≤ ·) (by simpa using fun _ _ _ => le_trans)
      (by simpa using le_total) l
  exact hperm.eq_of_pairwise (fun _ _ _ _ => le_antisymm) (hsorted _) (hsorted _)

theorem evaluateFacts_perm (d : Digests) (h : facts.Perm facts') (asOf : DateTime) :
    evaluateFacts d p facts asOf = evaluateFacts d p facts' asOf := by
  have hage : ageSeconds p facts asOf = ageSeconds p facts' asOf := by
    unfold ageSeconds
    rw [min?_congr fun _ => ((acceptances_perm h).map _).mem_iff]
  have hpenalty : penaltyActive p facts asOf = penaltyActive p facts' asOf := by
    unfold penaltyActive
    rw [latestPenalty_perm h]
  have hreport : ∀ penalty start,
      report d p facts asOf penalty start = report d p facts' asOf penalty start := by
    intro _ _
    unfold report
    rw [hage, tally_perm h, factsDigest_perm d h]
  simp [evaluateFacts, hpenalty, hreport]

end Order

/-! ## Standings -/

section Standings

variable {p : GrowthPolicy} {facts : List EvaluationFact} {f : EvaluationFact}

/-- A submission is a unit if it is in the window, after the last penalty, not netted out, and its
gate or its attestation qualifies. -/
theorem standing_eq_unit {start at_ : DateTime} {id : Uuid} {attested : Bool} :
    standing p facts start id at_ = .unit attested ↔
      (start < at_ ∧ ∀ g ∈ facts, g.isPenalty → g.occurredAt < at_) ∧
      netting facts id at_ = none ∧
      (isGated p facts id ∨ p.requireGatePass = false ∧ isAttested facts id) ∧
      isAttested facts id = attested := by
  have hpenalty : (latestPenalty facts).any (at_ ≤ ·) ↔
      ∃ g ∈ facts, g.isPenalty ∧ at_ ≤ g.occurredAt := by
    rw [latestPenalty, max?_any_le]
    simp only [mem_map, mem_filter]
    constructor
    · rintro ⟨_, ⟨g, ⟨hg, hp⟩, rfl⟩, hle⟩
      exact ⟨g, hg, hp, hle⟩
    · rintro ⟨g, hg, hp, hle⟩
      exact ⟨_, ⟨g, ⟨hg, hp⟩, rfl⟩, hle⟩
  unfold standing
  simp only [hpenalty]
  split
  next hskip =>
    refine iff_of_false nofun fun h => ?_
    rcases hskip with hle | ⟨g, hg, hp, hle⟩
    · exact absurd h.1.1 (not_lt.2 hle)
    · exact absurd (h.1.2 g hg hp) (not_lt.2 hle)
  next hin =>
    cases hnet : netting _ id at_ with
    | some n => simp
    | none =>
      cases isGated p _ id <;> cases p.requireGatePass <;> cases isAttested _ id <;>
        cases attested <;> simp_all

theorem netting_none_of_cons {id : Uuid} {at_ : DateTime}
    (h : netting (f :: facts) id at_ = none) : netting facts id at_ = none := by
  have hsub : facts.Sublist (f :: facts) := sublist_cons_self f _
  have hnil := min?_eq_none_iff.1 h
  refine min?_eq_none_iff.2 (sublist_nil.1 ?_)
  rw [← hnil]
  exact (hsub.filter _).filterMap _

end Standings

/-! ## Negative evidence -/

/-- An abuse penalty, a withdrawal, a revocation or a quarantine, or under a policy that requires
the gate a status that does not qualify. -/
def EvaluationFact.isNegative (p : GrowthPolicy) (f : EvaluationFact) : Bool :=
  f.isPenalty || f.nettingRank.isSome || (p.requireGatePass && f.isNonqualifyingStatus)

section Negative

variable {p : GrowthPolicy} {facts : List EvaluationFact} {f : EvaluationFact}

section

variable (h : f.isNegative p)

include h

theorem not_qualifies_of_isNegative :
    acceptedFactQualifies p f = false ∧ attestedFactQualifies f = false ∧
      gateFactQualifies p f = false := by
  simp only [EvaluationFact.isNegative, EvaluationFact.isPenalty, EvaluationFact.nettingRank,
    EvaluationFact.isNonqualifyingStatus] at h
  simp only [acceptedFactQualifies, attestedFactQualifies, gateFactQualifies]
  cases hk : f.sourceKind <;> cases ho : f.outcome <;> simp_all

omit h in
theorem mem_statusExclusions_cons {id : Uuid} (h : id ∈ statusExclusions p facts) :
    id ∈ statusExclusions p (f :: facts) := by
  unfold statusExclusions at h ⊢
  split at h
  next hgate =>
    rw [if_pos hgate]
    exact ((sublist_cons_self f facts).filter _ |>.map _).subset h
  · cases h

theorem mem_acceptances_cons {g : EvaluationFact} : g ∈ acceptances p (f :: facts) ↔
      g ∈ acceptances p facts ∧ g.submissionId ∉ statusExclusions p (f :: facts) := by
  have hf := (not_qualifies_of_isNegative h).1
  simp only [acceptances, mem_filter, decide_eq_true_eq, mem_cons]
  constructor
  · rintro ⟨rfl | hg, hq, hex⟩
    · exact absurd hq (by simp [hf])
    · exact ⟨⟨hg, hq, fun h => hex (mem_statusExclusions_cons h)⟩, hex⟩
  · rintro ⟨⟨hg, hq, -⟩, hex⟩
    exact ⟨.inr hg, hq, hex⟩

theorem entries_subset : (acceptedAt p (f :: facts)).entries ⊆ (acceptedAt p facts).entries := by
  rintro ⟨id, _⟩ he
  rw [OrdMap.mem_entries, acceptedAt, OrdMap.get?_foldl_insertMin] at he ⊢
  rw [← he]
  -- Some acceptance of the submission is left, so it is not excluded and all of them are.
  obtain ⟨g, hg, -⟩ := mem_map.1 (min?_eq_some_iff.1 he).1
  obtain ⟨hg, hid⟩ := mem_filter.1 hg
  have hex : id ∉ statusExclusions p (f :: facts) := by
    have := ((mem_acceptances_cons h).1 hg).2
    rwa [of_decide_eq_true hid] at this
  refine min?_congr fun a => ?_
  simp only [mem_map, mem_filter, decide_eq_true_eq, mem_acceptances_cons h]
  constructor
  · rintro ⟨g', ⟨hg', hk⟩, ha⟩
    exact ⟨g', ⟨⟨hg', by rwa [hk]⟩, hk⟩, ha⟩
  · rintro ⟨g', ⟨⟨hg', -⟩, hk⟩, ha⟩
    exact ⟨g', ⟨hg', hk⟩, ha⟩

theorem standing_of_isNegative {start at_ : DateTime} {id : Uuid}
    {attested : Bool} (hs : standing p (f :: facts) start id at_ = .unit attested) :
    standing p facts start id at_ = .unit attested := by
  obtain ⟨-, hatt, hgate⟩ := not_qualifies_of_isNegative h
  have hattested : isAttested (f :: facts) id = isAttested facts id := by
    simp [isAttested, hatt]
  have hgated : isGated p (f :: facts) id = isGated p facts id := by
    simp [isGated, hgate]
  obtain ⟨⟨hstart, hpen⟩, hnet, hq, ha⟩ := standing_eq_unit.1 hs
  rw [hattested] at hq ha
  rw [hgated] at hq
  exact standing_eq_unit.2 ⟨⟨hstart, fun g hg => hpen g (.tail _ hg)⟩,
    netting_none_of_cons hnet, hq, ha⟩

theorem unitsIn_of_isNegative (start : DateTime) (attested : Bool) (w : Int) :
    unitsIn (fun e => standing p (f :: facts) start e.1 e.2) (acceptedAt p (f :: facts)).entries
        attested w ≤
      unitsIn (fun e => standing p facts start e.1 e.2) (acceptedAt p facts).entries
        attested w := by
  have hsub := (acceptedAt p (f :: facts)).nodup_entries.subperm (entries_subset h)
  refine (countP_mono_left fun e _ he => ?_).trans (hsub.countP_le _)
  have he := of_decide_eq_true he
  exact decide_eq_true ⟨he.1, standing_of_isNegative h he.2⟩

theorem ageSeconds_of_isNegative (asOf : DateTime) :
    ageSeconds p (f :: facts) asOf ≤ ageSeconds p facts asOf := by
  unfold ageSeconds
  cases hnew : ((acceptances p _).map (·.occurredAt)).min? with
  | none =>
    dsimp only
    split
    · exact le_refl 0
    · exact le_max_right _ _
  | some first =>
    obtain ⟨hmem, -⟩ := min?_eq_some_iff.1 hnew
    obtain ⟨g, hg, rfl⟩ := mem_map.1 hmem
    have hg' := ((mem_acceptances_cons h).1 hg).1
    cases hold : ((acceptances p _).map (·.occurredAt)).min? with
    | none =>
      rw [min?_eq_none_iff, map_eq_nil_iff] at hold
      rw [hold] at hg'
      cases hg'
    | some first' =>
      have hle := (min?_eq_some_iff.1 hold).2 _ (mem_map_of_mem hg')
      exact max_le_max (Int.tdiv_le_tdiv (by decide)
        (Int.sub_le_sub_left hle asOf)) (le_refl 0)

end

/-- The latest penalty only moves on, and so does the end of its cooldown. -/
theorem penaltyActive_cons {asOf : DateTime} {penalty penalty' : Bool}
    (hold : penaltyActive p facts asOf = some penalty)
    (hnew : penaltyActive p (f :: facts) asOf = some penalty') (h : penalty = true) :
    penalty' = true := by
  subst h
  unfold penaltyActive at hold hnew
  cases hlast : latestPenalty facts with
  | none => simp [hlast] at hold
  | some last =>
    obtain ⟨hmem, -⟩ := max?_eq_some_iff.1 hlast
    have hmem' : last ∈ ((f :: facts).filter (·.isPenalty)).map (·.occurredAt) :=
      ((sublist_cons_self f _).filter _ |>.map _).subset hmem
    cases hlast' : latestPenalty _ with
    | none =>
      rw [latestPenalty, max?_eq_none_iff] at hlast'
      rw [hlast'] at hmem'
      cases hmem'
    | some last' =>
      have hle := (max?_eq_some_iff.1 hlast').2 _ hmem'
      rw [hlast] at hold
      rw [hlast'] at hnew
      cases hcool : durationSeconds p.penaltyCooldownSeconds with
      | none => simp [hcool] at hold
      | some cooldown =>
        simp only [hcool, Option.bind_eq_bind, Option.bind_some, dateTime] at hold hnew
        split at hold
        · split at hnew
          · obtain rfl := Option.some.inj hnew
            have hbefore := of_decide_eq_true (Option.some.inj hold)
            exact decide_eq_true (lt_of_lt_of_le hbefore (Int.add_le_add_right hle _))
          · cases hnew
        · cases hold

theorem penaltyActive_cons_eq (h : f.isPenalty = false) (asOf : DateTime) :
    penaltyActive p (f :: facts) asOf = penaltyActive p facts asOf := by
  unfold penaltyActive latestPenalty
  rw [filter_cons_of_neg (by simp [h])]

end Negative

/-! ## Attestations -/

section Attested

variable {p : GrowthPolicy} {facts : List EvaluationFact} {f : EvaluationFact}

/-- An attestation is of no other kind. -/
theorem kind_of_attested (h : attestedFactQualifies f) :
    acceptedFactQualifies p f = false ∧ gateFactQualifies p f = false ∧ f.isPenalty = false ∧
      f.nettingRank = none ∧ f.isNonqualifyingStatus = false := by
  simp only [attestedFactQualifies, decide_eq_true_eq] at h
  obtain ⟨hk, ho, -⟩ := h
  simp [acceptedFactQualifies, gateFactQualifies, EvaluationFact.isPenalty,
    EvaluationFact.nettingRank, EvaluationFact.isNonqualifyingStatus, ho]

theorem acceptances_cons_attested (h : attestedFactQualifies f) :
    acceptances p (f :: facts) = acceptances p facts := by
  obtain ⟨hacc, -, -, -, hstatus⟩ := kind_of_attested (p := p) h
  have hex : statusExclusions p (f :: facts) = statusExclusions p facts := by
    simp [statusExclusions, hstatus]
  unfold acceptances
  rw [hex, filter_cons_of_neg (by simp [hacc])]

theorem standing_cons_attested (h : attestedFactQualifies f) {start at_ : DateTime} {id : Uuid}
    {attested : Bool} (hs : standing p facts start id at_ = .unit attested) :
    ∃ attested', standing p (f :: facts) start id at_ = .unit attested' ∧
      (attested = true → attested' = true) := by
  obtain ⟨-, hgate, hpenalty, hrank, -⟩ := kind_of_attested (p := p) h
  obtain ⟨⟨hstart, hpen⟩, hnet, hq, ha⟩ := standing_eq_unit.1 hs
  have hgated : isGated p (f :: facts) id = isGated p facts id := by simp [isGated, hgate]
  have hatt : isAttested facts id = true → isAttested (f :: facts) id = true := by
    intro h
    simp only [isAttested, any_cons, Bool.or_eq_true]
    exact .inr h
  have hnet' : netting (f :: facts) id at_ = none := by
    rw [← hnet]
    unfold netting
    by_cases hf : f.submissionId = id ∧ at_ ≤ f.occurredAt
    · rw [filter_cons_of_pos (by simpa using hf), filterMap_cons_none (by simp [hrank])]
    · rw [filter_cons_of_neg (by simpa using hf)]
  refine ⟨isAttested _ id, standing_eq_unit.2 ⟨⟨hstart, ?_⟩, hnet', ?_, rfl⟩, ?_⟩
  · exact forall_mem_cons.2 ⟨fun hp => absurd hp (by simp [hpenalty]), hpen⟩
  · rw [hgated]
    exact hq.imp_right fun hq => ⟨hq.1, hatt hq.2⟩
  · exact fun he => hatt (ha.trans he)

/-- If no unit is lost and an attested one stays attested, no week loses weight. -/
theorem weight_mono {st st' : Uuid × DateTime → Standing} (hweight : 0 < p.weight)
    (h : ∀ e attested, st e = .unit attested →
      ∃ attested', st' e = .unit attested' ∧ (attested = true → attested' = true))
    (entries : List (Uuid × DateTime)) (w : Int) :
    unitsIn st entries true w ≤ unitsIn st' entries true w ∧
    weightOf p (unitsIn st entries false w, unitsIn st entries true w) ≤
      weightOf p (unitsIn st' entries false w, unitsIn st' entries true w) := by
  induction entries with
  | nil => exact ⟨Nat.le_refl _, Nat.le_refl _⟩
  | cons e entries ih =>
    obtain ⟨hatt, hsum⟩ := ih
    simp only [unitsIn, weightOf, countP_cons, decide_eq_true_eq] at hatt hsum ⊢
    by_cases hw : weekOf e = w
    · cases hst : st e with
      | unit attested =>
        obtain ⟨attested', _, _⟩ := h e _ hst
        cases attested <;> cases attested' <;> simp_all [Nat.add_mul] <;> omega
      | skipped | netted =>
        simp only [reduceCtorEq, and_false, if_false, Nat.add_mul]
        omega
    · simpa only [hw] using ⟨hatt, hsum⟩

end Attested

/-! ## The laws -/

/-- The counters of `evaluate` hold: fewer facts than a `u32` counts, and the capped units of all
weeks fit in one. -/
def Fits (p : GrowthPolicy) (facts : List EvaluationFact) (asOf : DateTime) : Prop :=
  facts.length < 2 ^ 32 ∧ ∀ start, windowStart p asOf = some start →
    unitsTotal p (tally p (occurred facts asOf) start).perWeek < 2 ^ 32

theorem evaluateFacts_eq_some {d : Digests} {p : GrowthPolicy} {facts : List EvaluationFact}
    {asOf : DateTime} {r : Evaluation} : evaluateFacts d p facts asOf = some r ↔
      ∃ penalty start, penaltyActive p facts asOf = some penalty ∧
        windowStart p asOf = some start ∧ r = report d p facts asOf penalty start := by
  unfold evaluateFacts
  cases penaltyActive p _ _ <;> cases windowStart p _ <;> simp [eq_comm]

section

variable {d : Digests} {p : GrowthPolicy} {facts : List EvaluationFact} {f : EvaluationFact}
  {asOf : DateTime} {r : Evaluation}

theorem evaluateFacts_negative (h : f.isNegative p) (hlen : facts.length < 2 ^ 32)
    (hfits : ∀ start, windowStart p asOf = some start →
      unitsTotal p (tally p facts start).perWeek < 2 ^ 32)
    (hr : evaluateFacts d p facts asOf = some r)
    (hpen : f.isPenalty → evaluateFacts d p (f :: facts) asOf ≠ none) :
    ∃ r', evaluateFacts d p (f :: facts) asOf = some r' ∧ r'.AtMost r ∧
      r'.ageSeconds ≤ r.ageSeconds := by
  obtain ⟨penalty, start, hactive, hstart, rfl⟩ := evaluateFacts_eq_some.1 hr
  have hnew : ∃ penalty', penaltyActive p (f :: facts) asOf = some penalty' := by
    cases hf : f.isPenalty with
    | false => exact ⟨penalty, (penaltyActive_cons_eq hf _).trans hactive⟩
    | true =>
      obtain ⟨r', hr'⟩ := Option.ne_none_iff_exists'.1 (hpen hf)
      obtain ⟨penalty', -, hactive', -⟩ := evaluateFacts_eq_some.1 hr'
      exact ⟨penalty', hactive'⟩
  obtain ⟨penalty', hactive'⟩ := hnew
  have hold : (acceptedAt p facts).entries.length < 2 ^ 32 :=
    (entries_length_le p _).trans_lt hlen
  have hsub := (acceptedAt p (f :: facts)).nodup_entries.subperm (entries_subset h)
  have hweek := fun w => week_tally p _ start w hold
  have hweek' := fun w => week_tally p _ start w (hsub.length_le.trans_lt hold)
  have hage : ageSeconds p (f :: facts) asOf ≤ ageSeconds p facts asOf :=
    ageSeconds_of_isNegative h asOf
  refine ⟨_, evaluateFacts_eq_some.2 ⟨penalty', start, hactive', hstart, rfl⟩,
    report_mono ?_ ?_ (hfits _ hstart) (penaltyActive_cons hactive hactive') hage, hage⟩
  · intro w
    rw [hweek, hweek']
    exact Nat.add_le_add (unitsIn_of_isNegative h _ _ w)
      (Nat.mul_le_mul_right _ (unitsIn_of_isNegative h _ _ w))
  · intro w
    rw [hweek, hweek']
    exact unitsIn_of_isNegative h _ _ w

theorem evaluateFacts_attested (h : attestedFactQualifies f) (hlen : facts.length < 2 ^ 32)
    (hfits : ∀ start, windowStart p asOf = some start →
      unitsTotal p (tally p (f :: facts) start).perWeek < 2 ^ 32)
    (hr : evaluateFacts d p facts asOf = some r) :
    ∃ r', evaluateFacts d p (f :: facts) asOf = some r' ∧ r.AtMost r' := by
  obtain ⟨penalty, start, hactive, hstart, rfl⟩ := evaluateFacts_eq_some.1 hr
  have hactive' : penaltyActive p (f :: facts) asOf = some penalty :=
    (penaltyActive_cons_eq (kind_of_attested (p := p) h).2.2.1 _).trans hactive
  have hsame : acceptedAt p (f :: facts) = acceptedAt p facts := by
    rw [acceptedAt, acceptances_cons_attested h, acceptedAt]
  have hage : ageSeconds p (f :: facts) asOf = ageSeconds p facts asOf := by
    rw [ageSeconds, acceptances_cons_attested h, ageSeconds]
  have hold : (acceptedAt p facts).entries.length < 2 ^ 32 :=
    (entries_length_le p _).trans_lt hlen
  have hweek := fun w => week_tally p _ start w hold
  have hweek' := fun w => week_tally p _ start w (by rwa [hsame])
  have hst : ∀ (e : Uuid × DateTime) attested, standing p facts start e.1 e.2 = .unit attested →
      ∃ attested', standing p (f :: facts) start e.1 e.2 = .unit attested' ∧
        (attested = true → attested' = true) := fun _ _ hs => standing_cons_attested h hs
  have hmono := weight_mono p.checks.2.1 hst (acceptedAt p facts).entries
  refine ⟨_, evaluateFacts_eq_some.2 ⟨penalty, start, hactive', hstart, rfl⟩,
    report_mono ?_ ?_ (hfits _ hstart) id hage.ge⟩
  · intro w
    rw [hweek, hweek', hsame]
    exact (hmono w).2
  · intro w
    rw [hweek, hweek', hsame]
    exact (hmono w).1

end

theorem occurred_insert (pre post : List EvaluationFact) (f : EvaluationFact) (asOf : DateTime) :
    occurred (pre ++ f :: post) asOf = occurred (pre ++ post) asOf ∨
    (occurred (pre ++ f :: post) asOf).Perm (f :: occurred (pre ++ post) asOf) := by
  have hperm : (occurred (pre ++ f :: post) asOf).Perm
      ((f :: (pre ++ post)).filter (·.occurredAt ≤ asOf)) := perm_middle.filter _
  by_cases hf : f.occurredAt ≤ asOf
  · rw [filter_cons_of_pos (by simpa using hf)] at hperm
    exact .inr hperm
  · simp [occurred, hf]

theorem unitsTotal_perm {p : GrowthPolicy} {facts facts' : List EvaluationFact} {asOf : DateTime}
    (h : facts.Perm facts') (hfits : ∀ start, windowStart p asOf = some start →
      unitsTotal p (tally p facts start).perWeek < 2 ^ 32) :
    ∀ start, windowStart p asOf = some start →
      unitsTotal p (tally p facts' start).perWeek < 2 ^ 32 := by
  intro start hstart
  rw [← tally_perm h]
  exact hfits _ hstart

/-- A negative fact anywhere in the list raises nothing, an attestation lowers nothing, and the
order of the facts does not matter, as long as the counters hold. Only a penalty can keep
`evaluate` from returning, when its cooldown ends at no date. -/
theorem trust_follows_evidence (d : Digests) (p : GrowthPolicy) (asOf : DateTime) :
    (∀ pre post f r, f.isNegative p → Fits p (pre ++ post) asOf →
      evaluate d p (pre ++ post) asOf = some r →
      (f.isPenalty → evaluate d p (pre ++ f :: post) asOf ≠ none) →
      ∃ r', evaluate d p (pre ++ f :: post) asOf = some r' ∧
        r'.units ≤ r.units ∧ r'.attestedUnits ≤ r.attestedUnits ∧
        r'.activeWeeks ≤ r.activeWeeks ∧ r'.ageSeconds ≤ r.ageSeconds ∧ r'.tier ≤ r.tier ∧
        r'.effectiveAllowance ≤ r.effectiveAllowance) ∧
    (∀ pre post f r, attestedFactQualifies f → Fits p (pre ++ f :: post) asOf →
      evaluate d p (pre ++ post) asOf = some r →
      ∃ r', evaluate d p (pre ++ f :: post) asOf = some r' ∧
        r.units ≤ r'.units ∧ r.attestedUnits ≤ r'.attestedUnits ∧
        r.activeWeeks ≤ r'.activeWeeks ∧ r.tier ≤ r'.tier ∧
        r.effectiveAllowance ≤ r'.effectiveAllowance) ∧
    ∀ facts facts' : List EvaluationFact, facts.Perm facts' →
      evaluate d p facts asOf = evaluate d p facts' asOf := by
  refine ⟨?_, ?_, fun facts facts' h => evaluateFacts_perm d (h.filter _) _⟩
  · intro pre post f r hf hfits hr hpen
    unfold evaluate at hr hpen ⊢
    rcases occurred_insert pre _ f _ with heq | hperm
    · rw [heq]
      exact ⟨r, hr, by simp⟩
    rw [evaluateFacts_perm d hperm] at hpen ⊢
    obtain ⟨r', hr', h, hage⟩ := evaluateFacts_negative hf
      (lt_of_le_of_lt (length_filter_le _ _) hfits.1) hfits.2 hr hpen
    exact ⟨r', hr', h.units, h.attestedUnits, h.activeWeeks, hage, h.tier, h.effectiveAllowance⟩
  · intro pre post f r hf hfits hr
    unfold evaluate at hr ⊢
    rcases occurred_insert pre _ f _ with heq | hperm
    · rw [heq]
      exact ⟨r, hr, by simp⟩
    rw [evaluateFacts_perm d hperm]
    have hlen : (occurred (pre ++ post) asOf).length < 2 ^ 32 := by
      have := hfits.1
      have := length_filter_le (fun f : EvaluationFact => decide (f.occurredAt ≤ asOf))
        (pre ++ post)
      simp only [occurred, length_append, length_cons] at *
      omega
    obtain ⟨r', hr', h⟩ := evaluateFacts_attested hf hlen (unitsTotal_perm hperm hfits.2) hr
    exact ⟨r', hr', h.units, h.attestedUnits, h.activeWeeks, h.tier, h.effectiveAllowance⟩

end TraceCommons.Trust
