import TraceCommons.Audit.Mirror
import TraceCommons.Audit.Chain

/-! # The mirrored logs never part beyond repair

The database has the events of the file and at most one more. An append makes it one ahead and then
lets the file follow; wherever it stops, the next append is refused as stale, and a repair writes the
line that is missing. -/

namespace TraceCommons.Audit

open Conc HashChain List

variable {site : Site} {s s' : Logs} {e : TraceCommonsAuditEvent}
  {es pending : List TraceCommonsAuditEvent}

/-! ## The invariant -/

/-- The file has the events `es`, the database the same ones and then `pending`. -/
structure Mirrored (site : Site) (s : Logs) (es pending : List TraceCommonsAuditEvent) : Prop where
  lines : s.lines = es.map site.codec.toJson
  rows : s.hashed = (es ++ pending).map (site.codec.auditEventStorageWrite site.tenantId)
  short : pending.length ≤ 1
  chained : Chained site.codec site.tenantId (es ++ pending)
  ids : (s.rows.map (·.auditEventId)).Nodup
  newest : NewestLast es
  newer : ∀ p ∈ pending, ∀ x ∈ es, x.createdAt ≤ p.createdAt

/-- What an append makes of `event` after the log `es`. -/
structure Follows (site : Site) (es : List TraceCommonsAuditEvent)
    (event e : TraceCommonsAuditEvent) : Prop where
  sealed : Sealed site.codec site.tenantId e
  previous : e.previousEventHash = some (headHash es)
  newer : ∀ x ∈ es, x.createdAt ≤ e.createdAt
  eventId : e.eventId = event.eventId
  kind : e.kind = event.kind
  status : e.status = event.status
  reason : e.reason = event.reason

theorem NewestLast.concat (h : ∀ x ∈ es, x.createdAt ≤ e.createdAt) : NewestLast (es ++ [e]) := by
  intro x hx last hlast
  obtain rfl : e = last := by simpa using hlast
  rcases mem_append.1 hx with hx | hx
  · exact h x hx
  · rw [mem_singleton.1 hx]

variable {row : TraceAuditEventRecord}

theorem appendTraceAuditRow_unhashed {rows rows' : List TraceAuditEventRecord}
    (hrow : row.eventHash.isSome = false) (h : appendTraceAuditRow row rows = .ok rows') :
    rows' = rows ++ [row] ∧ row.auditEventId ∉ rows.map (·.auditEventId) := by
  rw [appendTraceAuditRow_current (by rw [hrow]; exact nofun)] at h
  split at h
  · cases h
  next hid => exact ⟨(Except.ok.inj h).symm, hid⟩

theorem auditEventIds_nodup_concat {rows : List TraceAuditEventRecord}
    (h : (rows.map (·.auditEventId)).Nodup) (hrow : row.auditEventId ∉ rows.map (·.auditEventId)) :
    ((rows ++ [row]).map (·.auditEventId)).Nodup := by
  rw [map_append, nodup_append]
  refine ⟨h, by simp, ?_⟩
  rintro a ha _ hb rfl
  obtain rfl : a = row.auditEventId := by simpa using hb
  exact hrow ha

namespace Mirrored

theorem addUnhashed (h : Mirrored site s es pending) (he : s.addUnhashed row = some s') :
    Mirrored site s' es pending := by
  simp only [Logs.addUnhashed] at he
  split at he
  · cases he
  rename_i hrow
  split at he
  · cases he
  rename_i rows hrows
  cases he
  obtain ⟨rfl, hid⟩ := appendTraceAuditRow_unhashed (Bool.not_eq_true _ ▸ hrow) hrows
  refine ⟨h.lines, ?_, h.short, h.chained, auditEventIds_nodup_concat h.ids hid, h.newest, h.newer⟩
  rw [← h.rows]
  simp [Logs.hashed, hrow]

theorem tenant (h : Mirrored site s es pending) : ∀ x ∈ es, x.tenantId = site.tenantId :=
  fun x hx => (h.chained.sealed x (mem_append_left _ hx)).1

theorem latestEventHash_eq (h : Mirrored site s es pending) :
    latestEventHash s.rows = (es ++ pending).getLast?.bind (·.eventHash) := by
  have hrows := h.rows
  rw [Logs.hashed] at hrows
  rw [latestEventHash, hrows, getLast?_map]
  cases (es ++ pending).getLast? <;> rfl

variable {event : TraceCommonsAuditEvent}

/-- With the logs equal, the row of the next event is taken, unless its id is not new. -/
theorem appendTraceAuditRow_follows (h : Mirrored site s es []) (he : Follows site es event e) :
    appendTraceAuditRow (site.codec.auditEventStorageWrite site.tenantId e) s.rows =
      if e.eventId ∈ s.rows.map (·.auditEventId) then .error .postgres
      else .ok (s.rows ++ [site.codec.auditEventStorageWrite site.tenantId e]) := by
  refine appendTraceAuditRow_current fun _ latest hl => ?_
  rw [h.latestEventHash_eq, append_nil] at hl
  rw [Codec.auditEventStorageWrite, he.previous, Option.getD_some, headHash, hl, Option.getD_some]

/-- With the database ahead, a row that follows the file is stale. -/
theorem appendTraceAuditRow_ahead {p : TraceCommonsAuditEvent} (h : Mirrored site s es [p])
    (he : Follows site es event e) :
    ∃ error, appendTraceAuditRow (site.codec.auditEventStorageWrite site.tenantId e) s.rows =
      .error error := by
  obtain ⟨-, q, -, -, hhash⟩ := he.sealed
  obtain ⟨-, r, -, -, hp⟩ := h.chained.sealed p (by simp)
  have hne := h.chained.headHash_ne
  rw [headHash_concat, hp] at hne
  refine @appendTraceAuditRow_stale _ _ (site.codec.computeAuditEventHash r p)
    (by rw [Codec.auditEventStorageWrite, hhash]; rfl) ?_ ?_
  · rw [h.latestEventHash_eq, getLast?_concat, Option.bind_some, hp]
  · rw [Codec.auditEventStorageWrite, he.previous]
    exact hne.symm

theorem appendRow (h : Mirrored site s es []) (he : Follows site es event e)
    (hid : e.eventId ∉ s.rows.map (·.auditEventId)) :
    Mirrored site
      { s with rows := s.rows ++ [site.codec.auditEventStorageWrite site.tenantId e] } es [e] := by
  have hchain : Chained site.codec site.tenantId (es ++ [e]) :=
    (append_nil es ▸ h.chained).concat he.sealed he.previous
  refine ⟨h.lines, ?_, Nat.le_refl 1, hchain, auditEventIds_nodup_concat h.ids hid, h.newest, ?_⟩
  · have hrows := h.rows
    obtain ⟨-, q, -, -, hhash⟩ := he.sealed
    rw [append_nil] at hrows
    rw [map_append, ← hrows]
    simp [Logs.hashed, Codec.auditEventStorageWrite, hhash]
  · intro p hp
    rw [mem_singleton.1 hp]
    exact he.newer

theorem appendLine (h : Mirrored site s es [e]) :
    Mirrored site { s with file := some (s.lines ++ [site.codec.toJson e]) } (es ++ [e]) [] := by
  refine ⟨?_, by rw [append_nil]; exact h.rows, Nat.zero_le 1,
    by rw [append_nil]; exact h.chained, h.ids,
    NewestLast.concat (h.newer e (.head _)), fun p hp => absurd hp not_mem_nil⟩
  rw [map_append, ← h.lines]
  rfl

/-- The plan of a repair is what the file has not got. -/
theorem plan (h : Mirrored site s es pending) {fileEvents : List TraceCommonsAuditEvent}
    (hread : site.codec.readAllAuditEvents site.tenantId s.lines = some fileEvents) :
    site.codec.planAuditChainRepair fileEvents s.rows = .ok pending := by
  rw [h.lines, Codec.readAllAuditEvents, readAuditEventsInFileOrder_toJson h.tenant] at hread
  obtain rfl := Option.some.inj hread
  refine planAuditChainRepair_chained h.chained h.rows h.newest.getLast?_insertionSort ?_
  -- the ids of the rows are all different, those with a hash among them
  intro x hx hmem
  have hperm := (perm_insertionSort (fun a b : TraceCommonsAuditEvent =>
    a.createdAt ≤ b.createdAt) es).map (·.eventId)
  have hnd : ((es ++ pending).map (·.eventId)).Nodup := by
    have hsub : s.hashed.map (·.auditEventId) = (es ++ pending).map (·.eventId) := by
      rw [h.rows, map_map]
      rfl
    rw [← hsub]
    exact h.ids.sublist (filter_sublist.map _)
  rw [map_append, nodup_append] at hnd
  exact hnd.2.2 _ (hperm.mem_iff.1 hmem) _ (mem_map_of_mem hx) rfl

theorem readAll (h : Mirrored site s es pending) :
    ∃ fileEvents, site.codec.readAllAuditEvents site.tenantId s.lines = some fileEvents := by
  rw [h.lines, Codec.readAllAuditEvents, readAuditEventsInFileOrder_toJson h.tenant]
  exact ⟨_, rfl⟩

end Mirrored

/-! ## Assertions -/

variable {calm : Bool} {reserved : Option Uuid}

def at_ (site : Site) (calm : Bool) (reserved : Option Uuid)
    (es pending : List TraceCommonsAuditEvent) : Assertion (logMachine calm reserved) where
  holds h := Mirrored site h.now es pending
  stable h m s hp hm := by
    cases m with
    | none =>
      cases hm
      exact hp
    | some row =>
      simp only at hm
      split at hm
      · cases hm
      · exact hp.addUnhashed hm

def vacant (calm : Bool) (reserved : Option Uuid) : Assertion (logMachine calm reserved) where
  holds h := ∀ id, reserved = some id → id ∉ h.now.rows.map (·.auditEventId)
  stable h m s hp hm := by
    cases m with
    | none =>
      cases hm
      exact hp
    | some row =>
      simp only [Logs.addUnhashed] at hm
      split at hm
      · cases hm
      rename_i hres
      split at hm
      · cases hm
      rename_i hrow
      split at hm
      · cases hm
      rename_i rows hrows
      cases hm
      obtain ⟨rfl, -⟩ := appendTraceAuditRow_unhashed (Bool.not_eq_true _ ▸ hrow) hrows
      intro id hid hmem
      rw [Hist.push_now, List.map_append] at hmem
      rcases List.mem_append.1 hmem with hmem | hmem
      · exact hp id hid hmem
      · refine hres (hid.trans ?_)
        simpa using hmem

def inStep (site : Site) (calm : Bool) (reserved : Option Uuid) :
    Assertion (logMachine calm reserved) where
  holds h := ∃ es pending, Mirrored site h.now es pending
  stable h m s hp hm := by
    obtain ⟨es, pending, hp⟩ := hp
    exact ⟨es, pending, (at_ site calm reserved es pending).stable h m s hp hm⟩

/-! ## Calls -/

variable {I P : Assertion (logMachine calm reserved)}

theorem exec_eq {c : Choice} {o : Op} {r : Reply o}
    (h : (logMachine calm reserved).exec c s o = some (r, s')) :
    s.exec c o = (r, s') ∧ (calm = true → c.fault = .none) := by
  simp only at h
  split at h
  · cases h
  rename_i hcalm
  refine ⟨Option.some.inj h, fun hc => ?_⟩
  by_contra hf
  exact hcalm ⟨hc, hf⟩

theorem reply_eq {α : Type} {c : Choice} {a : α} {r : Option α} (h : Logs.reply c a = r)
    (hc : calm = true → c.fault = .none) : r = some a ∨ r = none ∧ calm = false := by
  simp only [Logs.reply] at h
  split at h
  · exact .inl h.symm
  next hf => exact .inr ⟨h.symm, Bool.eq_false_iff.2 fun hcalm => hf (hc hcalm)⟩

theorem reads_of_exec {o : Op} (ho : ∀ (s : Logs) c, (s.exec c o).2 = s) :
    (logMachine calm reserved).Reads o :=
  fun c s _ _ h => (congrArg _ (exec_eq h).1).symm.trans (ho s c)

/-! ## Functions -/

/-- An error is a sign of `p`. -/
abbrev failsOnly (p : Prop) : AuditError → Assertion (logMachine calm reserved) := fun _ => .lift p

theorem failsOnly_mono {α : Type} {x : Act α}
    {Q : α → Assertion (logMachine calm reserved)} {p q : Prop} (hpq : p → q)
    (hx : Ends I P x Q (failsOnly p)) : Ends I P x Q (failsOnly q) :=
  hx.conseq (fun _ _ hp => hp) (fun _ _ _ hq => hq) fun _ _ _ hp => hpq hp

theorem ensureAuditEventTenant_ends :
    Ends I P (site.ensureAuditEventTenant e)
      (fun _ => P.and (.lift (e.tenantId = site.tenantId)))
      (failsOnly (e.tenantId ≠ site.tenantId)) := by
  rw [Site.ensureAuditEventTenant]
  split
  next ht => exact .pure fun h _ hp => ⟨hp, ht⟩
  next ht => exact .raise fun _ _ _ => ht

theorem latestAuditEvent_ends (hP : ∀ h, P h → at_ site calm reserved es pending h) :
    Ends I P site.latestAuditEvent (fun r => P.and (.lift (r = es.getLast?)))
      (failsOnly (calm = false)) := by
  have hread : Ends I P readLastNonemptyLine
      (fun r => P.and (.lift
        ((r = some (es.getLast?.map site.codec.toJson) ∨ r = none ∧ calm = false) ∧
          ∀ x ∈ es, x.tenantId = site.tenantId)))
      (failsOnly (calm = false)) := by
    refine .read (reads_of_exec fun _ _ => rfl) fun h c r hi hp hc => ⟨hp, ?_, (hP h hp).tenant⟩
    obtain ⟨he, hcalm⟩ := exec_eq hc
    have hr := reply_eq (congrArg Prod.fst he) hcalm
    rwa [(hP h hp).lines, getLast?_map] at hr
  refine .bind hread fun r => .lift fun ⟨hr, ht⟩ => ?_
  rcases hr with rfl | ⟨rfl, hcalm⟩
  · cases hl : es.getLast? with
    | none => exact .pure fun h _ hp => ⟨hp, rfl⟩
    | some last =>
      simp only [Option.map_some, site.codec.fromJson_toJson, Site.ensureAuditEventTenant,
        ht _ (mem_of_getLast? hl)]
      exact .bind (.pure fun _ _ hp => hp) fun _ => .pure fun h _ hp => ⟨hp, rfl⟩
  · exact .raise fun _ _ _ => hcalm

theorem stampAndChainAuditEvent_ends {event : TraceCommonsAuditEvent}
    (hP : ∀ h, P h → at_ site calm reserved es pending h) :
    Ends I P (site.stampAndChainAuditEvent event)
      (fun e => P.and (.lift (Follows site es event e)))
      (failsOnly (calm = false ∨ event.tenantId ≠ site.tenantId)) := by
  refine .bind (failsOnly_mono .inr ensureAuditEventTenant_ends) fun _ =>
    Ends.lift fun ht => ?_
  refine .bind (failsOnly_mono .inl (latestAuditEvent_ends hP)) fun latest =>
    Ends.lift fun hlatest => ?_
  subst hlatest
  have hnow : Ends I P utcNow (fun _ => P)
      (failsOnly (calm = false ∨ event.tenantId ≠ site.tenantId)) :=
    Ends.read (reads_of_exec fun _ _ => rfl) fun _ _ _ _ hp _ => hp
  refine .bind hnow fun now => .pure fun h _ hp => ⟨hp, ?_⟩
  have htenant : (event.stamped (max now ((es.getLast?.map (·.createdAt)).getD 0))).tenantId =
      site.tenantId := ht
  obtain ⟨hseal, hprev⟩ := sealed_chainAuditEventAfter (hP h hp).chained.left htenant
  refine ⟨hseal, hprev, fun x hx => ?_, rfl, rfl, rfl, rfl⟩
  cases hl : es.getLast? with
  | none => exact absurd hx (getLast?_eq_none_iff.1 hl ▸ not_mem_nil)
  | some last => exact Nat.le_trans ((hP h hp).newest x hx _ hl) (Nat.le_max_right now _)

theorem mirrorAuditEventRowToDb_ends {event : TraceCommonsAuditEvent} {row : site.AuditRowMirror}
    (hI : ∀ h, (at_ site calm reserved es [] h ∨ at_ site calm reserved es [e] h) → I h)
    (he : Follows site es event e) :
    Ends I ((at_ site calm reserved es []).and (vacant calm reserved))
      (site.mirrorAuditEventRowToDb e row) (fun _ => at_ site calm reserved es [e])
      (failsOnly (calm = false ∨ reserved ≠ some event.eventId ∨ site.normalizeAuditEventMetadata
        event.eventId event.kind event.status event.reason row ≠ none)) := by
  rw [Site.mirrorAuditEventRowToDb, he.eventId, he.kind, he.status, he.reason]
  split
  next text hn => exact .raise fun _ _ _ => .inr (.inr (by rw [hn]; exact nofun))
  have hcall : Ends I ((at_ site calm reserved es []).and (vacant calm reserved))
      (appendTraceAuditEvent (site.codec.auditEventStorageWrite site.tenantId e))
      (fun r => r.casesOn (fun _ => .lift (calm = false ∨ reserved ≠ some event.eventId))
        fun _ => at_ site calm reserved es [e])
      (failsOnly (calm = false ∨ reserved ≠ some event.eventId ∨ site.normalizeAuditEventMetadata
        event.eventId event.kind event.status event.reason row ≠ none)) := by
    refine .call fun h c r s hi hp hc => ?_
    obtain ⟨hexec, hcalm⟩ := exec_eq hc
    simp only [Logs.exec, hp.1.appendTraceAuditRow_follows he] at hexec
    split at hexec
    next hbefore =>
      cases hexec
      refine ⟨I.again hi, .inl (Bool.eq_false_iff.2 fun hct => ?_)⟩
      rw [hcalm hct] at hbefore
      cases hbefore
    · split at hexec
      next hmem =>
        split at hmem
        next hid =>
          cases hexec
          refine ⟨I.again hi, .inr fun hres => hp.2 _ hres ?_⟩
          rwa [← he.eventId]
        · cases hmem
      next rows hrows =>
        split at hrows
        · cases hrows
        rename_i hid
        cases hrows
        cases hexec
        have hnext := hp.1.appendRow he hid
        refine ⟨hI _ (.inr hnext), ?_⟩
        split
        next hok => exact hnext
        next herr => exact .inl (Bool.eq_false_iff.2 fun hct => herr (hcalm hct))
  refine .bind hcall fun r => ?_
  cases r with
  | ok u => exact .pure fun _ _ hp => hp
  | error err => exact .raise fun _ _ hp => hp.elim .inl fun h => .inr (.inl h)

theorem writeChainedAuditEvent_ends
    (hI : ∀ h, at_ site calm reserved (es ++ [e]) [] h → I h) :
    Ends I (at_ site calm reserved es [e]) (site.writeChainedAuditEvent e)
      (fun _ => at_ site calm reserved (es ++ [e]) []) (failsOnly (calm = false)) := by
  refine .assume (fun _ hp => hp.chained) fun hchain => ?_
  obtain ⟨ht, q, -, -, hhash⟩ := hchain.sealed e (by simp)
  rw [Site.writeChainedAuditEvent, Site.ensureAuditEventTenant, if_pos ht]
  refine .bind (Q := fun _ => at_ _ _ _ es [e]) (.pure fun _ _ hp => hp)
    fun _ => ?_
  refine .bind (latestAuditEvent_ends fun _ hp => hp) fun latest => .lift fun hlatest => ?_
  subst hlatest
  have hguard : e.previousEventHash = some ((es.getLast?.bind (·.eventHash)).getD genesisHash) ∧
      e.eventHash.isSome = true := ⟨hchain.previous_eq, by rw [hhash]; rfl⟩
  rw [if_pos hguard]
  have hcall : Ends I (at_ site calm reserved es [e])
      (appendLine (site.codec.toJson e))
      (fun r => if r then at_ site calm reserved (es ++ [e]) [] else .lift (calm = false))
      (failsOnly (calm = false)) := by
    refine .call fun h c r s hi hp hc => ?_
    obtain ⟨hexec, hcalm⟩ := exec_eq hc
    have hquiet : c.fault ≠ .none → calm = false := fun hf =>
      Bool.eq_false_iff.2 fun hct => hf (hcalm hct)
    simp only [Logs.exec] at hexec
    split at hexec
    next hbefore =>
      cases hexec
      exact ⟨I.again hi, hquiet (by rw [hbefore]; exact nofun)⟩
    · cases hexec
      have hnext := hp.appendLine
      refine ⟨hI _ hnext, ?_⟩
      by_cases hf : c.fault = .none
      · rw [decide_eq_true hf]
        exact hnext
      · rw [decide_eq_false hf]
        exact hquiet hf
  refine .bind hcall fun r => ?_
  cases r with
  | true => exact .pure fun _ _ hp => hp
  | false => exact .raise fun _ _ hp => hp

/-! ## Requests -/

/-- With the logs equal: the event ends up in both, or the append failed for a reason. -/
theorem appendAuditEventMirrored_ends (event : TraceCommonsAuditEvent) (row : site.AuditRowMirror)
    (label : String) (hreq : site.requireDbMirrorWrites = true)
    (hI : ∀ es pending h, at_ site calm reserved es pending h → I h) :
    Ends I ((at_ site calm reserved es []).and (vacant calm reserved))
      (site.appendAuditEventMirrored event row label)
      (fun e => at_ site calm reserved (es ++ [e]) [])
      (failsOnly (calm = false ∨ event.tenantId ≠ site.tenantId ∨ reserved ≠ some event.eventId ∨
        site.normalizeAuditEventMetadata event.eventId event.kind event.status event.reason row ≠
          none)) := by
  refine .bind (failsOnly_mono (Or.imp_right .inl)
    (stampAndChainAuditEvent_ends fun _ hp => hp.1)) fun e =>
    Ends.lift fun he => ?_
  rw [if_pos hreq]
  refine .bind (mirrorAuditEventRowToDb_ends (fun h hp => hp.elim (hI _ _ h) (hI _ _ h))
    he).attempt fun r => ?_
  cases r with
  | error err =>
    rw [Site.enforceDbMirrorWriteResult, hreq]
    refine .bind (Q := fun _ => .lift False) (.raise fun _ _ hp => ?_) fun _ =>
      fun _ _ _ hp => hp.elim
    exact hp.elim .inl fun h => .inr (.inr h)
  | ok u =>
    refine .bind (Q := fun _ => at_ _ _ _ es [e]) (.pure fun _ _ hp => hp)
      fun _ => ?_
    exact .bind (failsOnly_mono .inl (writeChainedAuditEvent_ends fun h => hI _ _ h)) fun _ =>
      Ends.pure fun _ _ hp => hp

/-- With the database ahead, an append fails and neither log changes. -/
theorem appendAuditEventMirrored_ahead (event : TraceCommonsAuditEvent) (row : site.AuditRowMirror)
    (label : String) {p : TraceCommonsAuditEvent} (hreq : site.requireDbMirrorWrites = true) :
    Ends (at_ site calm reserved es [p]) (at_ site calm reserved es [p])
      (site.appendAuditEventMirrored event row label) (fun _ => .lift False) (fun _ => .top) := by
  have hstamp : Ends (at_ site calm reserved es [p]) (at_ site calm reserved es [p])
      (site.stampAndChainAuditEvent event)
      (fun e => (at_ site calm reserved es [p]).and (.lift (Follows site es event e)))
      (fun _ => .top) :=
    (stampAndChainAuditEvent_ends fun _ hp => hp).conseq (fun _ _ hp => hp) (fun _ _ _ hq => hq)
      fun _ _ _ _ => trivial
  refine .bind hstamp fun e => .lift fun he => ?_
  rw [if_pos hreq]
  -- the only write that is tried is the row, and it is refused
  have hmirror : Ends (at_ site calm reserved es [p]) (at_ site calm reserved es [p])
      (site.mirrorAuditEventRowToDb e row) (fun _ => .lift False) (fun _ => .top) := by
    rw [Site.mirrorAuditEventRowToDb]
    split
    · exact .raise fun _ _ _ => trivial
    refine .bind (Q := fun r => .lift (∃ error, r = .error error)) ?_ fun r => ?_
    · refine .call fun h c r s hi hp hc => ?_
      obtain ⟨hexec, -⟩ := exec_eq hc
      obtain ⟨_, hstale⟩ := hp.appendTraceAuditRow_ahead he
      simp only [Logs.exec, hstale] at hexec
      split at hexec <;> cases hexec
      · exact ⟨Assertion.again _ hi, _, rfl⟩
      · exact ⟨Assertion.again _ hi, _, rfl⟩
    · refine .assume (fun _ hp => hp) fun ⟨error, hr⟩ => ?_
      subst hr
      exact .raise fun _ _ _ => trivial
  refine .bind hmirror.attempt fun r => ?_
  cases r with
  | ok u => exact fun _ _ _ hp => hp.elim
  | error err =>
    rw [Site.enforceDbMirrorWriteResult, hreq]
    exact .bind (Q := fun _ => .lift False) (.raise fun _ _ _ => trivial) fun _ _ _ _ hp =>
      hp.elim

theorem readFileWith_ends {read : List String → Option (List TraceCommonsAuditEvent)}
    (hP : ∀ h, P h → at_ site calm reserved es pending h)
    (hread : ∀ h, P h → ∃ events, read h.now.lines = some events) :
    Ends I P (Site.readFileWith read)
      (fun events => P.and (.lift (read (es.map site.codec.toJson) = some events)))
      (failsOnly (calm = false)) := by
  have hcall : Ends I P readToString
      (fun r => P.and (.lift (r = none ∧ calm = false ∨ r = some (es.map site.codec.toJson) ∧
        ∃ events, read (es.map site.codec.toJson) = some events))) (failsOnly (calm = false)) := by
    refine .read (reads_of_exec fun _ _ => rfl) fun h c r hi hp hc => ⟨hp, ?_⟩
    obtain ⟨hexec, hcalm⟩ := exec_eq hc
    have hlines := (hP h hp).lines
    rcases reply_eq (congrArg Prod.fst hexec) hcalm with rfl | hfail
    · exact .inr ⟨congrArg _ hlines, hlines ▸ hread h hp⟩
    · exact .inl hfail
  refine .bind hcall fun r => .lift fun hr => ?_
  rcases hr with ⟨rfl, hcalm⟩ | ⟨rfl, _, hevents⟩
  · exact .raise fun _ _ _ => hcalm
  · simp only [hevents]
    exact .pure fun _ _ hp => ⟨hp, rfl⟩

theorem forEach_writeChainedAuditEvent_ends
    (hI : ∀ es pending h, at_ site calm reserved es pending h → I h) :
    Ends I (at_ site calm reserved es pending) (Proc.forEach site.writeChainedAuditEvent pending)
      (fun _ => at_ site calm reserved (es ++ pending) []) (failsOnly (calm = false)) := by
  refine .assume (fun _ hp => hp.short) fun hshort => ?_
  cases pending with
  | nil =>
    rw [append_nil]
    exact .pure fun _ _ hp => hp
  | cons p tail =>
    obtain rfl : tail = [] := length_eq_zero_iff.1 (Nat.le_zero.1 (Nat.le_of_succ_le_succ hshort))
    exact .bind (writeChainedAuditEvent_ends fun h => hI _ _ h) fun _ =>
      Ends.pure fun _ _ hp => hp

/-- A repair that is not refused at the door and only plans leaves the logs, else it makes them
equal. -/
theorem runAuditChainRepair_ends (request : Site.TraceAuditChainRepairRequest)
    (hI : ∀ es pending h, at_ site calm reserved es pending h → I h) :
    Ends I (at_ site calm reserved es pending) (site.runAuditChainRepair request)
      (fun _ => if request.dryRun then at_ site calm reserved es pending
        else at_ site calm reserved (es ++ pending) [])
      (failsOnly (calm = false ∨ request.dryRun = false ∧ request.acceptLegacySegment = true ∧
        site.allowLegacySegmentResume = false)) := by
  rw [Site.runAuditChainRepair]
  split
  next hdoor =>
    refine .raise fun _ _ _ => .inr ?_
    simpa [and_assoc] using hdoor
  refine .bind (failsOnly_mono .inl (readFileWith_ends (fun _ hp => hp) fun _ hp => hp.readAll))
    fun fileEvents => .lift fun hread => ?_
  have hlist : Ends I (at_ site calm reserved es pending) listTraceAuditEvents
      (fun r => (at_ site calm reserved es pending).and (.lift (r = none ∧ calm = false ∨
        ∃ rows, r = some rows ∧ site.codec.planAuditChainRepair fileEvents rows = .ok pending)))
      (failsOnly (calm = false ∨ request.dryRun = false ∧ request.acceptLegacySegment = true ∧
        site.allowLegacySegmentResume = false)) := by
    refine .read (reads_of_exec fun _ _ => rfl) fun h c r hi hp hc => ⟨hp, ?_⟩
    obtain ⟨hexec, hcalm⟩ := exec_eq hc
    rcases reply_eq (congrArg Prod.fst hexec) hcalm with rfl | hfail
    · exact .inr ⟨h.now.rows, rfl, hp.plan (hp.lines ▸ hread)⟩
    · exact .inl hfail
  refine .bind hlist fun r => .lift fun hr => ?_
  rcases hr with ⟨rfl, hcalm⟩ | ⟨_, rfl, hplan⟩
  · exact .raise fun _ _ _ => .inl hcalm
  simp only [hplan]
  split
  · exact .pure fun _ _ hp => hp
  · exact .bind (failsOnly_mono .inl (forEach_writeChainedAuditEvent_ends hI)) fun _ =>
      Ends.pure fun _ _ hp => hp

end TraceCommons.Audit
