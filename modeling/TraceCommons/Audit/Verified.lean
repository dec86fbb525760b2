import TraceCommons.Audit.MirrorRuns

/-! # What a verified log proves

The verifier recomputes every hash of a file. If it finds nothing and no line without a hash, the
last hash stands for the whole file: no line can be changed, dropped, added or moved under it. -/

namespace TraceCommons.Audit

open HashChain List

/-- The hash an event follows. An absent one is genesis. -/
def TraceCommonsAuditEvent.previous (e : TraceCommonsAuditEvent) : String :=
  e.previousEventHash.getD genesisHash

def TraceCommonsAuditEvent.own (e : TraceCommonsAuditEvent) : String := e.eventHash.getD genesisHash

/-- The event with both its hashes written out. -/
def TraceCommonsAuditEvent.written (e : TraceCommonsAuditEvent) : TraceCommonsAuditEvent :=
  (e.unsealed e.previous).withHash e.own

variable {K : Codec} {tenantId : String} {e e' : TraceCommonsAuditEvent} {lines lines' : List String}
  {r r' : Codec.TraceAuditChainReport}

/-- What the verifier finds nothing in. -/
structure Checked (K : Codec) (e : TraceCommonsAuditEvent) : Prop where
  previous : K.isAuditChainPreviousHash e.previous = true
  own : K.computeAuditEventHash e.previous e = e.own

theorem Checked.eq_of_own (h : Checked K e) (h' : Checked K e') (hown : e.own = e'.own) :
    e.previous = e'.previous ∧ e.written = e'.written := by
  have hhash := h.own.trans (hown.trans h'.own.symm)
  have hprev : e.previous = e'.previous := K.previous_eq_of_hash_eq h.previous h'.previous hhash
  have htext := congrArg String.toList (K.sha256Prefixed_injective _ _ hhash)
  simp only [hprev, String.toList_append, append_cancel_left_eq, String.toList_inj] at htext
  have hevent := congrArg K.fromJson htext
  simp only [Codec.canonicalAuditEventJson, K.fromJson_toJson] at hevent
  refine ⟨hprev, ?_⟩
  simp only [TraceCommonsAuditEvent.written, hprev, Option.some.inj hevent, hown]

theorem lineFailures_eq_nil {p h : String} {n : Nat} (hh : e.eventHash = some h)
    (hfail : K.lineFailures p n e h = []) : Checked K e ∧ e.previous = p := by
  simp only [Codec.lineFailures, append_eq_nil_iff, ite_eq_left_iff, cons_ne_nil, imp_false,
    not_not] at hfail
  obtain ⟨⟨⟨-, hprevious⟩, heq⟩, hown⟩ := hfail
  refine ⟨⟨hprevious, ?_⟩, heq⟩
  rw [TraceCommonsAuditEvent.own, hh]
  exact hown

/-- The loop finds nothing only in checked lines that are linked. -/
theorem verifyLines_clean {p : String} {n : Nat} {report : Codec.TraceAuditChainReport}
    (h : K.verifyLines tenantId p n report lines = some r) (hfail : r.failures = [])
    (hlegacy : r.legacyEventCount = 0) :
    report.failures = [] ∧ report.legacyEventCount = 0 ∧ ∃ es, lines.map K.fromJson = es.map some ∧
      (∀ e ∈ es, Checked K e) ∧ Linked (·.previous) (·.own) p es ∧
      r.lastEventHash = (es.getLast?.map (·.own)).or report.lastEventHash := by
  induction lines generalizing p n report with
  | nil =>
    obtain rfl : report = r := Option.some.inj h
    exact ⟨hfail, hlegacy, [], rfl, forall_mem_nil _, trivial, rfl⟩
  | cons line lines ih =>
    unfold Codec.verifyLines at h
    split at h
    · cases h
    next e hjson =>
    dsimp only at h
    cases hown : e.eventHash with rw [hown] at h
    -- a line without a hash is counted, and the count only grows
    | none => exact absurd (ih h).2.1 (Nat.succ_ne_zero _)
    | some own =>
    obtain ⟨hnone, hzero, es, hmap, hes, hlinked, hlast⟩ := ih h
    rw [append_eq_nil_iff, append_eq_nil_iff] at hnone
    obtain ⟨hchecked, hprevious⟩ := lineFailures_eq_nil hown hnone.2
    obtain rfl : e.own = own := by rw [TraceCommonsAuditEvent.own, hown, Option.getD_some]
    refine ⟨hnone.1.1, hzero, e :: es, by simp [hjson, hmap], forall_mem_cons.2 ⟨hchecked, hes⟩,
      ⟨hprevious, hlinked⟩, ?_⟩
    rw [hlast, getLast?_cons]
    cases es.getLast? <;> simp

/-- Two verified files of a tenant without legacy lines that end in one hash have the same events. -/
theorem verified_log_fixed_by_head (h : K.verifyFileAuditChain tenantId (some lines) = some r)
    (h' : K.verifyFileAuditChain tenantId (some lines') = some r') (hv : r.verified = true)
    (hv' : r'.verified = true) (hlegacy : r.legacyEventCount = 0)
    (hlegacy' : r'.legacyEventCount = 0) (hlast : r.lastEventHash = r'.lastEventHash) :
    ∃ es es' : List TraceCommonsAuditEvent, lines.map K.fromJson = es.map some ∧
      lines'.map K.fromJson = es'.map some ∧ es.map (·.written) = es'.map (·.written) := by
  obtain ⟨s, hs, rfl⟩ := Option.map_eq_some_iff.1 h
  obtain ⟨s', hs', rfl⟩ := Option.map_eq_some_iff.1 h'
  obtain ⟨-, -, es, hmap, hes, hlinked, hend⟩ := verifyLines_clean hs (by simpa using hv) hlegacy
  obtain ⟨-, -, es', hmap', hes', hlinked', hend'⟩ :=
    verifyLines_clean hs' (by simpa using hv') hlegacy'
  simp only [hend, hend', Option.or_none] at hlast
  exact ⟨es, es', hmap, hmap', hlinked.map_eq_of_head Checked.eq_of_own
    (fun hx => hx.own ▸ K.computeAuditEventHash_ne_genesis _ _) hes hes' hlinked'
    (congrArg (Option.getD · genesisHash) hlast)⟩

/-- The second file leaves out the first line's previous hash. -/
theorem verified_log_fixed_by_head_chained : ∃ (K : Codec) (r : Codec.TraceAuditChainReport),
    let lines := [firstLine K, secondLine K].map K.toJson
    let lines' := [{ firstLine K with previousEventHash := none }, secondLine K].map K.toJson
    K.verifyFileAuditChain "tenant" (some lines) = some r ∧
    K.verifyFileAuditChain "tenant" (some lines') = some r ∧ r.verified = true ∧
    ∃ es es' : List TraceCommonsAuditEvent, lines.map K.fromJson = es.map some ∧
      lines'.map K.fromJson = es'.map some ∧ es.map (·.written) = es'.map (·.written) := by
  obtain ⟨K⟩ := exists_codec
  obtain ⟨r, h, hv⟩ := verifyFileAuditChain_chained (chained_olderLast K)
  have h' : K.verifyFileAuditChain "tenant" (some ([{ firstLine K with previousEventHash := none },
      secondLine K].map K.toJson)) = some r := by
    rw [← h]
    simp only [Codec.verifyFileAuditChain, map, Codec.verifyLines, K.fromJson_toJson]
    rfl
  have hlegacy : r.legacyEventCount = 0 := by
    simp only [Codec.verifyFileAuditChain, map, Codec.verifyLines, K.fromJson_toJson] at h
    cases h
    rfl
  exact ⟨K, r, h, h', hv, verified_log_fixed_by_head h h' hv hv hlegacy hlegacy rfl⟩

end TraceCommons.Audit
