import TraceCommons.Audit.MirrorSafety

/-! # Whole runs of the mirrored log

From logs that agree, with no line newer than the file's last one, every run keeps the logs within
one event of each other and repairable. The condition on the times is needed: the repair takes the
newest event for the file's head, so with a newer event further up it plans a line that the file
already has, and is refused. -/

namespace TraceCommons.Audit

open Conc HashChain List

variable {site : Site} {s s' : Logs} {e : TraceCommonsAuditEvent}
  {es pending : List TraceCommonsAuditEvent}

/-! ## What is said of the two logs -/

def Site.mirror (site : Site) (es : List TraceCommonsAuditEvent) : List TraceAuditEventRecord :=
  es.map (site.codec.auditEventStorageWrite site.tenantId)

def Site.fileEvents (site : Site) (s : Logs) : Option (List TraceCommonsAuditEvent) :=
  site.codec.readAuditEventsInFileOrder site.tenantId s.lines

/-- The file's events are a prefix of the database's chain, at most one event shorter. -/
def InStep (site : Site) (s : Logs) : Prop :=
  ∃ es rest, site.fileEvents s = some es ∧ s.hashed = site.mirror (es ++ rest) ∧ rest.length ≤ 1

/-- The file and the database's chain have the same events. -/
def Equal (site : Site) (s : Logs) : Prop :=
  ∃ es, site.fileEvents s = some es ∧ s.hashed = site.mirror es

def Ahead (s : Logs) : Prop := s.lines.length < s.hashed.length

def InBoth (site : Site) (e : TraceCommonsAuditEvent) (s : Logs) : Prop :=
  site.codec.toJson e ∈ s.lines ∧ site.codec.auditEventStorageWrite site.tenantId e ∈ s.rows

/-- Both logs hold one chain of the tenant's events, and no two rows have the same id. -/
def Agree (site : Site) (s : Logs) : Prop :=
  ∃ es, s.lines = es.map site.codec.toJson ∧ s.hashed = site.mirror es ∧
    Chained site.codec site.tenantId es ∧ (s.rows.map (·.auditEventId)).Nodup

/-- No line of the file is newer than its last one. -/
def NewestLineLast (site : Site) (s : Logs) : Prop :=
  ∀ es, site.fileEvents s = some es → NewestLast es

namespace Mirrored

theorem fileEvents_eq (h : Mirrored site s es pending) : site.fileEvents s = some es := by
  rw [Site.fileEvents, h.lines]
  exact readAuditEventsInFileOrder_toJson h.tenant

theorem inStep (h : Mirrored site s es pending) : InStep site s :=
  ⟨es, pending, h.fileEvents_eq, h.rows, h.short⟩

theorem equal (h : Mirrored site s es []) : Equal site s :=
  ⟨es, h.fileEvents_eq, by rw [h.rows, append_nil]; rfl⟩

theorem inBoth (h : Mirrored site s (es ++ [e]) []) : InBoth site e s := by
  have hrows : site.codec.auditEventStorageWrite site.tenantId e ∈ s.hashed := by
    rw [h.rows]
    exact mem_map_of_mem (by simp)
  refine ⟨?_, mem_of_mem_filter hrows⟩
  rw [h.lines]
  exact mem_map_of_mem (by simp)

theorem ahead_iff (h : Mirrored site s es pending) : Ahead s ↔ ∃ p, pending = [p] := by
  have hshort := h.short
  rw [Ahead, h.lines, h.rows]
  simp only [length_map, length_append]
  rw [← length_eq_one_iff]
  omega

theorem verified (h : Mirrored site s (es ++ [e]) []) :
    ∃ report, site.codec.verifyFileAuditChain site.tenantId s.file = some report ∧
      report.verified = true := by
  have hfile : s.file = some ((es ++ [e]).map site.codec.toJson) := by
    have hlines := h.lines
    rw [Logs.lines] at hlines
    cases hf : s.file with
    | none =>
      rw [hf] at hlines
      simp at hlines
    | some lines =>
      rw [hf] at hlines
      exact congrArg _ hlines
  rw [hfile]
  exact verifyFileAuditChain_chained (append_nil (es ++ [e]) ▸ h.chained)

end Mirrored

theorem Agree.mirrored (h : Agree site s) (hnew : NewestLineLast site s) :
    ∃ es, Mirrored site s es [] := by
  obtain ⟨es, hlines, hrows, hchain, hids⟩ := h
  have hread : site.fileEvents s = some es := by
    rw [Site.fileEvents, hlines]
    exact readAuditEventsInFileOrder_toJson fun x hx => (hchain.sealed x hx).1
  refine ⟨es, hlines, ?_, Nat.zero_le 1, ?_, hids, hnew es hread, fun p hp => absurd hp not_mem_nil⟩
  · rw [append_nil]
    exact hrows
  · rw [append_nil]
    exact hchain

/-! ## Runs -/

/-- Nothing is ever taken out of either log. -/
theorem InBoth.exec (h : InBoth site e s) (c : Choice) (o : Op) : InBoth site e (s.exec c o).2 := by
  cases o with
  | appendLine line =>
    simp only [Logs.exec]
    split
    · exact h
    · exact ⟨mem_append_left _ h.1, h.2⟩
  | appendTraceAuditEvent row =>
    simp only [Logs.exec, appendTraceAuditRow]
    split
    · exact h
    split
    · exact h
    rename_i rows hrows
    split at hrows
    · cases hrows
    split at hrows
    · cases hrows
    · cases hrows
      exact ⟨h.1, mem_append_left _ h.2⟩
  | _ => exact h

theorem InBoth.addUnhashed {row : TraceAuditEventRecord} (h : InBoth site e s)
    (hs : s.addUnhashed row = some s') : InBoth site e s' := by
  simp only [Logs.addUnhashed] at hs
  split at hs
  · cases hs
  rename_i hrow
  split at hs
  · cases hs
  rename_i rows hrows
  cases hs
  obtain ⟨rfl, -⟩ := appendTraceAuditRow_unhashed (Bool.not_eq_true _ ▸ hrow) hrows
  exact ⟨h.1, mem_append_left _ h.2⟩

variable {evs : List (Event (logMachine false none) site.Request)} {c : Site.LogConfig}

theorem InBoth.run {c' : Site.LogConfig} (h : InBoth site e c.hist.now)
    (hrun : site.runLogs c evs = some c') : InBoth site e c'.hist.now := by
  refine Config.run_keeps (P := fun h => InBoth _ e _) (fun h ch o r s hp hc => ?_)
    (fun h m s _ hp hm => ?_) h hrun
  · have hs : (h.now.exec ch o).2 = s := congrArg _ (exec_eq hc).1
    rw [← hs]
    exact InBoth.exec hp ch o
  · cases m with
    | none =>
      cases hm
      exact hp
    | some row => exact hp.addUnhashed hm

variable {calm : Bool} {reserved : Option Uuid}

/-- What an answer says of the logs it left: an event reported as appended is in both. -/
def answered (site : Site) (calm : Bool) (reserved : Option Uuid)
    (b : Except AuditError Site.Answer × Unit) : Assertion (logMachine calm reserved) where
  holds h := ∀ e u, b = (.ok (.appended e), u) → InBoth site e h.now
  stable h m s hp hm e u hb := by
    cases m with
    | none =>
      cases hm
      exact hp e u hb
    | some row =>
      simp only at hm
      split at hm
      · cases hm
      · exact (hp e u hb).addUnhashed hm

theorem at_inStep (es pending : List TraceCommonsAuditEvent) (h : Hist Logs)
    (hp : at_ site calm reserved es pending h) : inStep site calm reserved h :=
  ⟨es, pending, hp⟩

section

variable (hreq : site.requireDbMirrorWrites = true)

include hreq

/-- With the database ahead, an append cannot report success. -/
theorem locked_append_ahead {event : TraceCommonsAuditEvent} {row : site.AuditRowMirror}
    {label : String} {p : TraceCommonsAuditEvent} {h : Hist Logs} (hp : Mirrored site h.now es [p]) :
    (site.locked (.append event row label)).Safe (at_ site calm reserved es [p])
      (fun b _ => ∃ error, b.1 = .error error) h := by
  refine ((appendAuditEventMirrored_ahead _ row _ hreq).safe_map hp hp).mono ?_ hp
  rintro b h' _ (⟨e, l, -, hfalse⟩ | ⟨error, l, rfl, -⟩)
  · exact hfalse.elim
  · exact ⟨error, rfl⟩

theorem locked_safe (request : site.Request) (h : Hist Logs) (hi : inStep site false none h) :
    (site.locked request).Safe (inStep site false none)
      (fun b => answered site false none b) h := by
  obtain ⟨es, pending, hp⟩ := hi
  have hi : inStep site false none h := ⟨es, pending, hp⟩
  cases request with
  | append event row label =>
    by_cases hahead : Ahead h.now
    · obtain ⟨p, rfl⟩ := hp.ahead_iff.1 hahead
      refine ((locked_append_ahead hreq hp).of_inv (at_inStep es [p])).mono ?_ hi
      rintro b h' _ ⟨_, herr⟩ e u rfl
      cases herr
    · obtain rfl : pending = [] := by
        have hshort := hp.short
        rw [hp.ahead_iff, ← length_eq_one_iff] at hahead
        exact length_eq_zero_iff.1 (by omega)
      refine ((appendAuditEventMirrored_ends _ row _ hreq at_inStep).safe_map hi
        ⟨hp, fun _ hid => nomatch hid⟩).mono ?_ hi
      rintro b h' _ (⟨e, l, rfl, hend⟩ | ⟨_, l, rfl, -⟩) e' u hb
      · cases hb
        exact Mirrored.inBoth hend
      · cases hb
  | repair request =>
    refine ((runAuditChainRepair_ends _ at_inStep).safe_map hi hp).mono ?_ hi
    rintro b h' _ (⟨_, l, rfl, -⟩ | ⟨_, l, rfl, -⟩) e u hb <;> cases hb

/-! ## Without failures -/

omit hreq in
/-- A repair that meets no failure makes the logs equal. -/
theorem repair_completes {request : Site.TraceAuditChainRepairRequest}
    (hdry : request.dryRun = false)
    (hdoor : ¬(request.acceptLegacySegment = true ∧ site.allowLegacySegmentResume = false))
    (hp : Mirrored site s es pending) :
    (site.locked (.repair request)).Completes (logMachine true none) site.locked s fun b s' =>
      (∃ outcome, b = (.ok (.repaired outcome), ())) ∧ Mirrored site s' (es ++ pending) [] := by
  refine Prog.completes (I := inStep site true none) (A := fun b =>
    (at_ site true none (es ++ pending) []).and
      (.lift (∃ outcome, b = (Except.ok (Site.Answer.repaired outcome), ()))))
    (fun past => ⟨es, pending, hp⟩) (fun past => ?_) fun b h hq => ⟨hq.2, hq.1⟩
  have hi : inStep site true none ⟨s, past⟩ := ⟨es, pending, hp⟩
  refine ((runAuditChainRepair_ends request at_inStep).safe_map hi hp).mono ?_ hi
  rintro b h' _ (⟨outcome, l, rfl, hend⟩ | ⟨error, l, rfl, hfail⟩)
  · rw [hdry] at hend
    exact ⟨hend, outcome, rfl⟩
  · rcases hfail with hcalm | ⟨-, hrefused⟩
    · cases hcalm
    · exact absurd hrefused hdoor

/-- With the logs equal, an append of a new event that meets no failure succeeds. -/
theorem append_completes {event : TraceCommonsAuditEvent} {row : site.AuditRowMirror}
    {label : String}
    (htenant : event.tenantId = site.tenantId)
    (hid : event.eventId ∉ s.rows.map (·.auditEventId))
    (hrow : site.normalizeAuditEventMetadata event.eventId event.kind event.status event.reason row
      = none) (hp : Mirrored site s es []) :
    (site.locked (.append event row label)).Completes (logMachine true (some event.eventId))
      site.locked s fun b s' =>
        ∃ e, b = (.ok (.appended e), ()) ∧ Mirrored site s' (es ++ [e]) [] := by
  refine Prog.completes (I := inStep _ _ _)
    (A := fun b => ⟨fun h => ∃ e, b = (.ok (.appended e), ()) ∧ Mirrored _ _ _ [],
      fun h m s ⟨e, hb, hq⟩ hm =>
        ⟨e, hb, (at_ _ _ _ _ []).stable h m s hq hm⟩⟩)
    (fun past => ⟨es, [], hp⟩) (fun past => ?_) fun b h hq => hq
  have hi : inStep site true (some event.eventId) ⟨s, past⟩ := ⟨es, [], hp⟩
  have hvacant : vacant true (some event.eventId) ⟨s, past⟩ := by
    rintro id ⟨⟩
    exact hid
  refine ((appendAuditEventMirrored_ends _ row _ hreq at_inStep).safe_map hi
    ⟨hp, hvacant⟩).mono ?_ hi
  rintro b h' _ (⟨e, l, rfl, hend⟩ | ⟨_, l, _, hfail⟩)
  · exact ⟨e, rfl, hend⟩
  rcases hfail with hcalm | ht | hres | hn
  · cases hcalm
  · exact absurd htenant ht
  · exact absurd rfl hres
  · exact absurd hrow hn

/-! ## The result -/

def fresh (s : Logs) : Site.LogConfig := ⟨⟨s, []⟩, none⟩

theorem mirrored_of_run (hagree : Agree site s)
    (hnew : NewestLineLast site s) (hrun : site.runLogs (fresh s) evs = some c) :
    Config.Sound (inStep site false none) (answered site false none) c := by
  obtain ⟨es, hp⟩ := hagree.mirrored hnew
  have hstart : Config.Sound (inStep site false none) (answered site false none) (fresh s) :=
    ⟨⟨es, [], hp⟩, fun _ hr => nomatch hr⟩
  exact hstart.run (fun request _ => locked_safe hreq _) hrun

/-- While the database is ahead and nobody repairs, no append succeeds and neither log moves. -/
theorem ahead_blocks {c' : Site.LogConfig}
    {p : TraceCommonsAuditEvent} (hp : Mirrored site c.hist.now es [p]) (hidle : c.running = none)
    (hevs : ∀ request, Event.start (Site.Request.repair request) ∉ evs)
    (hrun : site.runLogs c evs = some c') :
    Mirrored site c'.hist.now es [p] ∧ ∀ b, c'.running = some (.ret b) →
      ∃ error, b.1 = .error error := by
  have hstart : Config.Sound (at_ site false none es [p])
      (fun b => .lift (∃ error, b.1 = .error error)) c :=
    ⟨hp, fun _ hr => by rw [hidle] at hr; cases hr⟩
  have hend := hstart.run (fun request hmem => by
    cases request with
    | append event row label => exact fun h hi => locked_append_ahead hreq hi
    | repair request => exact absurd hmem (hevs _)) hrun
  exact ⟨hend.1, fun b hb => hend.2 _ hb⟩

end

/-- Agreement, blocking and repairability of the two logs, over every run. -/
theorem mirrored_logs_stay_repairable (site : Site) (hreq : site.requireDbMirrorWrites = true)
    (s : Logs) (hagree : Agree site s) (hnew : NewestLineLast site s) (c : Site.LogConfig)
    (evs : List (Event (logMachine false none) site.Request))
    (hrun : site.runLogs (fresh s) evs = some c) :
    InStep site c.hist.now ∧
    (∀ e u, c.running = some (.ret (.ok (.appended e), u)) →
      ∀ evs' c', site.runLogs c evs' = some c' → InBoth site e c'.hist.now) ∧
    (c.running = none → Ahead c.hist.now →
      ∀ evs' c', (∀ request, Event.start (Site.Request.repair request) ∉ evs') →
        site.runLogs c evs' = some c' →
          c'.hist.now.lines = c.hist.now.lines ∧ c'.hist.now.hashed = c.hist.now.hashed ∧
          ∀ b, c'.running = some (.ret b) → ∃ error, b.1 = .error error) ∧
    (c.running = none → ∀ request : Site.TraceAuditChainRepairRequest, request.dryRun = false →
      ¬(request.acceptLegacySegment = true ∧ site.allowLegacySegmentResume = false) →
      (site.locked (.repair request)).Completes (logMachine true none) site.locked c.hist.now
        fun b s₁ => (∃ outcome, b = (.ok (.repaired outcome), ())) ∧ Equal site s₁ ∧
          ∀ event row label, event.tenantId = site.tenantId →
            event.eventId ∉ s₁.rows.map (·.auditEventId) →
            site.normalizeAuditEventMetadata event.eventId event.kind event.status event.reason row
              = none →
            (site.locked (.append event row label)).Completes
              (logMachine true (some event.eventId)) site.locked s₁ fun b s₂ =>
                ∃ e, b = (.ok (.appended e), ()) ∧ InBoth site e s₂ ∧ Equal site s₂ ∧
                  ∃ report, site.codec.verifyFileAuditChain site.tenantId s₂.file = some report ∧
                    report.verified = true) := by
  have hsound := mirrored_of_run hreq hagree hnew hrun
  obtain ⟨es, _, hp⟩ := hsound.1
  refine ⟨hp.inStep, fun e u hret evs' c' hrun' => ?_, fun hidle hahead evs' c' hevs hrun' => ?_,
    fun hidle request hdry hdoor => ?_⟩
  · exact InBoth.run (hsound.2 _ hret e u rfl) hrun'
  · obtain ⟨p, rfl⟩ := hp.ahead_iff.1 hahead
    obtain ⟨hp', hfail⟩ := ahead_blocks hreq hp hidle hevs hrun'
    exact ⟨hp'.lines.trans hp.lines.symm, hp'.rows.trans hp.rows.symm, hfail⟩
  · refine (repair_completes hdry hdoor hp).mono fun b s₁ hq => ⟨hq.1, hq.2.equal, ?_⟩
    intro _ _ _ htenant hid hrow
    refine (append_completes hreq htenant hid hrow hq.2).mono fun b s₂ hq2 => ?_
    obtain ⟨e, hb, hend⟩ := hq2
    exact ⟨e, hb, hend.inBoth, hend.equal, hend.verified⟩

/-! ## Logs whose last line is not the newest -/

/-- The repair takes the newest event for the head, and finds the row after it in the file. -/
theorem plan_refused_of_newer {rows : List TraceAuditEventRecord}
    (h : Chained site.codec site.tenantId (es ++ pending))
    (hrows : rows.filter (·.eventHash.isSome) = site.mirror (es ++ pending))
    (hnew : ¬NewestLast es) :
    site.codec.planAuditChainRepair (es.insertionSort fun a b => a.createdAt ≤ b.createdAt) rows =
      .error (.unrestorable "db_row_already_in_file") := by
  have hmem : ∀ x, x ∈ es.insertionSort (fun a b => a.createdAt ≤ b.createdAt) ↔ x ∈ es := fun x =>
    mem_insertionSort _
  have hsorted := pairwise_insertionSort
    (fun a b : TraceCommonsAuditEvent => a.createdAt ≤ b.createdAt) es
  cases hl : (es.insertionSort fun a b => a.createdAt ≤ b.createdAt).getLast? with
  | none =>
    rw [getLast?_eq_none_iff] at hl
    refine absurd (fun x hx => ?_) hnew
    rw [← hmem, hl] at hx
    cases hx
  | some m =>
    obtain ⟨_, hbefore⟩ := getLast?_eq_some_iff.1 hl
    have hnewest : ∀ x ∈ es, x.createdAt ≤ m.createdAt := by
      intro x hx
      rw [← hmem, hbefore, mem_append] at hx
      rcases hx with hx | hx
      · rw [hbefore, pairwise_append] at hsorted
        exact hsorted.2.2 x hx m (.head _)
      · rw [mem_singleton.1 hx]
    obtain ⟨l, r, rfl⟩ := append_of_mem ((hmem m).1 (hbefore ▸ by simp))
    cases r with
    | nil => exact absurd (NewestLast.concat fun x hx => hnewest x (by simp [hx])) hnew
    | cons x r =>
      rw [append_cons, append_assoc] at h hrows
      exact planAuditChainRepair_already h hrows hl ((hmem x).2 (by simp))

/-! ## An ideal codec -/

instance countable_char : Countable Char := Function.Injective.countable fun _ _ => Char.toNat_inj.1

instance countable_string : Countable String :=
  Function.Injective.countable fun _ _ => String.toList_inj.1

deriving instance Countable for TokenRole, TraceCorpusStatus, TraceCommonsAuditEvent

/-- Texts for the values of a countable type, in one letter. -/
theorem exists_text (α : Type) [Countable α] :
    ∃ f : α → String, Function.Injective f ∧ ∀ a, '\n' ∉ (f a).toList := by
  obtain ⟨code, hcode⟩ := exists_injective_nat α
  refine ⟨fun a => String.ofList (replicate (code a) 'x'), fun a b hab => hcode ?_, fun a h => ?_⟩
  · simpa using congrArg length (String.ofList_injective hab)
  · rw [String.toList_ofList] at h
    cases eq_of_mem_replicate h

theorem exists_codec : Nonempty Codec := by
  obtain ⟨hash, hhash, hline⟩ := exists_text String
  obtain ⟨json, hjson, -⟩ := exists_text TraceCommonsAuditEvent
  refine ⟨{
    sha256Prefixed := fun s => "h" ++ hash s
    isCanonicalSha256PrefixedHash := fun h => h.toList.head? == some 'h' && !h.toList.contains '\n'
    toJson := json
    fromJson := fun s => open Classical in
      if h : ∃ e, json e = s then some (Classical.choose h) else none
    sha256Prefixed_injective := fun a b hab => hhash (by simpa using hab)
    canonical_sha256Prefixed := fun a => by simpa using hline a
    not_canonical_genesis := by decide
    newline_notMem := fun h hh => by simpa using (Bool.and_eq_true_iff.1 hh).2
    fromJson_toJson := fun e => ?_ }⟩
  have hex : ∃ e', json e' = json e := ⟨e, rfl⟩
  rw [dif_pos hex, hjson (Classical.choose_spec hex)]

/-! ## A repair that is refused -/

def plainSite (K : Codec) : Site where
  codec := K
  tenantId := "tenant"
  requireDbMirrorWrites := true
  accountAdmission := false
  allowLegacySegmentResume := false
  AuditRowMirror := Unit
  normalizeAuditEventMetadata _ _ _ _ _ := none
  LegacySegmentResume := Unit
  planLegacySegmentResume _ _ := .error "file_head_not_in_db"
  writeLegacySegmentResumeEvent _ := Proc.raise (.refused "file_head_not_in_db")

def draft (id createdAt : Nat) : TraceCommonsAuditEvent :=
  { eventId := id, tenantId := "tenant", submissionId := 0, kind := "submitted", createdAt }

def firstLine (K : Codec) : TraceCommonsAuditEvent := K.chainAuditEventAfter none (draft 1 10)

def secondLine (K : Codec) : TraceCommonsAuditEvent :=
  K.chainAuditEventAfter (some (firstLine K)) (draft 2 5)

/-- Logs that agree, with the later time on the first line. -/
def olderLast (K : Codec) : Logs where
  file := some [K.toJson (firstLine K), K.toJson (secondLine K)]
  rows := (plainSite K).mirror [firstLine K, secondLine K]

def thirdRow (K : Codec) : TraceCommonsAuditEvent :=
  K.chainAuditEventAfter (some (secondLine K)) (draft 3 5)

/-- The logs after an append that stopped between its two writes. -/
def cutAfterRow (K : Codec) : Logs :=
  { olderLast K with rows := (plainSite K).mirror [firstLine K, secondLine K, thirdRow K] }

theorem chained_olderLast (K : Codec) : Chained K "tenant" [firstLine K, secondLine K] := by
  obtain ⟨hfirst, hfirst'⟩ := sealed_chainAuditEventAfter (e := draft 1 10)
    Chained.nil rfl
  have hone : Chained K "tenant" ([] ++ [firstLine K]) := Chained.nil.concat hfirst hfirst'
  obtain ⟨hsecond, hsecond'⟩ := sealed_chainAuditEventAfter (e := draft 2 5) hone rfl
  exact hone.concat hsecond hsecond'

theorem chained_cutAfterRow (K : Codec) :
    Chained K "tenant" ([firstLine K, secondLine K] ++ [thirdRow K]) := by
  obtain ⟨hthird, hthird'⟩ := sealed_chainAuditEventAfter (e := draft 3 5) (chained_olderLast K) rfl
  exact (chained_olderLast K).concat hthird hthird'

theorem agree_olderLast (K : Codec) : Agree (plainSite K) (olderLast K) :=
  ⟨[firstLine K, secondLine K], rfl, rfl, chained_olderLast K, (by decide : [1, 2].Nodup)⟩

theorem appendTraceAuditRow_thirdRow (K : Codec) :
    appendTraceAuditRow (K.auditEventStorageWrite "tenant" (thirdRow K)) (olderLast K).rows =
      .ok (cutAfterRow K).rows := by
  rw [appendTraceAuditRow_current]
  · rfl
  · intro _ _ hl
    exact Option.some.inj hl

/-- The append of the third event up to its second write. -/
theorem run_cutAfterRow (K : Codec) : ∃ evs past,
    (plainSite K).runLogs (fresh (olderLast K)) evs = some ⟨⟨cutAfterRow K, past⟩, none⟩ := by
  have hread : K.fromJson (K.toJson (secondLine K)) = some (secondLine K) := K.fromJson_toJson _
  have hlast : (olderLast K).lines.getLast? = some (K.toJson (secondLine K)) := rfl
  have hdraft : (draft 3 0).tenantId = "tenant" := rfl
  have hsecond : (secondLine K).tenantId = "tenant" := rfl
  have hstamp : ((plainSite K).stampAndChainAuditEvent (draft 3 0)).alone
      (logMachine false none) {} () (olderLast K) = some ((.ok (thirdRow K), ()), olderLast K) := by
    simp [Site.stampAndChainAuditEvent, Site.ensureAuditEventTenant, Site.latestAuditEvent,
      readLastNonemptyLine, Logs.exec, Logs.reply, hlast, hread, hdraft, plainSite]
    rfl
  have hmirror : ((plainSite K).mirrorAuditEventRowToDb (thirdRow K) ()).attempt.alone
      (logMachine false none) {} () (olderLast K) = some ((.ok (.ok ()), ()), cutAfterRow K) := by
    simp only [Site.mirrorAuditEventRowToDb, appendTraceAuditEvent, Proc.alone_attempt,
      Proc.alone_bind, Proc.alone_call, Logs.exec, plainSite, appendTraceAuditRow_thirdRow]
    rfl
  have hprog : ∃ f g, (plainSite K).locked (.append (draft 3 0) () "audit event") =
      ((plainSite K).stampAndChainAuditEvent (draft 3 0) ()).bind f ∧ f (.ok (thirdRow K), ()) =
        (((plainSite K).mirrorAuditEventRowToDb (thirdRow K) ()).attempt ()).bind g :=
    ⟨_, _, Prog.bind_assoc _ _ _, Prog.bind_assoc _ _ _⟩
  obtain ⟨f, g, hlocked, hf⟩ := hprog
  obtain ⟨n, past, hrun⟩ := Config.run_bind (plainSite K).locked f [] hstamp
  obtain ⟨m, past', hrun'⟩ := Config.run_bind (plainSite K).locked g past hmirror
  refine ⟨.start (.append (draft 3 0) () "audit event") :: (replicate n (.call {}) ++
    (replicate m (.call {}) ++ [.stop])), past', ?_⟩
  rw [Config.run] at hrun hrun'
  rw [hf] at hrun
  rw [Site.runLogs, Config.run, foldlM_cons]
  simp only [Config.step, fresh, hlocked, Option.bind_eq_bind, Option.bind_some, foldlM_append,
    hrun, hrun']
  rfl

theorem plan_cutAfterRow (K : Codec) :
    K.planAuditChainRepair ([firstLine K, secondLine K].insertionSort fun a b =>
      a.createdAt ≤ b.createdAt) (cutAfterRow K).rows =
        .error (.unrestorable "db_row_already_in_file") := by
  refine @plan_refused_of_newer (plainSite K) _ _ _ (chained_cutAfterRow K) rfl fun hnew => ?_
  have hle : 10 ≤ 5 := hnew (firstLine K) (by simp) _ rfl
  omega

/-- Two lines out of order in time, and an append cut between its writes: every later repair is
refused, though it meets no failure. -/
theorem repair_refused_for_good : ∃ (site : Site) (s : Logs)
    (evs : List (Event (logMachine false none) site.Request)) (c : Site.LogConfig),
    site.requireDbMirrorWrites = true ∧ Agree site s ∧
    site.runLogs (fresh s) evs = some c ∧ c.running = none ∧ Ahead c.hist.now ∧
    ∀ now : DateTime, (site.locked (.repair { dryRun := false })).alone (logMachine true none)
      { now } c.hist.now =
        some ((.error (.refused "db_row_already_in_file"), ()), c.hist.now) := by
  obtain ⟨K⟩ := exists_codec
  obtain ⟨evs, past, hrun⟩ := run_cutAfterRow K
  refine ⟨plainSite K, olderLast K, evs, _, rfl, agree_olderLast K, hrun, rfl,
    (by decide : 2 < 3), fun now => ?_⟩
  obtain ⟨sorted, hread, hplan⟩ : ∃ sorted,
      K.readAllAuditEvents "tenant" (cutAfterRow K).lines = some sorted ∧
      K.planAuditChainRepair sorted (cutAfterRow K).rows =
        .error (.unrestorable "db_row_already_in_file") := by
    have hlines : (cutAfterRow K).lines = [firstLine K, secondLine K].map K.toJson := rfl
    refine ⟨_, ?_, plan_cutAfterRow K⟩
    rw [hlines, Codec.readAllAuditEvents, readAuditEventsInFileOrder_toJson]
    · rfl
    · exact fun x hx => ((chained_olderLast K).sealed x hx).1
  have hrepair : ((plainSite K).serve (.repair { dryRun := false })).alone (logMachine true none)
      { now } () (cutAfterRow K) =
        some ((.error (.refused "db_row_already_in_file"), ()), cutAfterRow K) := by
    simp [Site.serve, Site.runAuditChainRepair, Site.readFileWith, readToString,
      listTraceAuditEvents, Logs.exec, Logs.reply, plainSite, hread, hplan]
  exact hrepair

/-- On an empty log, an append cut between its writes leaves the database ahead, and a repair makes
the logs equal again. -/
theorem mirrored_logs_stay_repairable_empty : ∃ (site : Site)
    (evs : List (Event (logMachine false none) site.Request)) (c : Site.LogConfig),
    site.runLogs (fresh ⟨none, []⟩) evs = some c ∧ Ahead c.hist.now ∧ InStep site c.hist.now ∧
    (site.locked (.repair { dryRun := false })).Completes (logMachine true none) site.locked
      c.hist.now fun _ s => Equal site s := by
  obtain ⟨K⟩ := exists_codec
  have hagree : Agree (plainSite K) ⟨none, []⟩ := ⟨[], rfl, rfl, Chained.nil, nodup_nil⟩
  have hnew : NewestLineLast (plainSite K) ⟨none, []⟩ := by
    intro es hes
    cases hes
    exact fun x hx => absurd hx not_mem_nil
  obtain ⟨c, hrun, hidle, hahead⟩ : ∃ c, (plainSite K).runLogs (fresh ⟨none, []⟩)
      [.start (.append (draft 1 0) () "audit event"), .call {}, .call { now := 7 }, .call {}, .stop]
        = some c ∧ c.running = none ∧ Ahead c.hist.now := ⟨_, rfl, rfl, Nat.one_pos⟩
  have hdoor : ¬(false = true ∧ (plainSite K).allowLegacySegmentResume = false) := nofun
  have hall := mirrored_logs_stay_repairable (plainSite K) rfl ⟨none, []⟩ hagree hnew c _ hrun
  exact ⟨plainSite K, _, c, hrun, hahead, hall.1,
    (hall.2.2.2 hidle { dryRun := false } rfl hdoor).mono fun _ _ h => h.2.1⟩

end TraceCommons.Audit
