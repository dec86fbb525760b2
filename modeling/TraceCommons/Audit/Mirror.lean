import TraceCommons.Lib.Conc
import TraceCommons.Audit.Log

/-! # Appends and repairs of the mirrored log

The file and the database are written one after the other with no common transaction. Here are the
calls an append and a repair make on them, in the source's order, and what a call can do: it may
fail without effect, or take effect and fail all the same. One program runs at a time, since each
holds the tenant's append lock; rows without a hash come from elsewhere at any time. -/

namespace TraceCommons.Audit

open Conc

/-! ## The two logs -/

structure Logs where
  /-- The non-blank lines of `events.jsonl`, `none` while there is no file. -/
  file : Option (List String)
  /-- The tenant's rows of `trace_audit_events`, in the order of `audit_sequence`. -/
  rows : List TraceAuditEventRecord
  deriving DecidableEq

namespace Logs

def lines (s : Logs) : List String := s.file.getD []

/-- The database's chain: a row without a hash is outside it. -/
def hashed (s : Logs) : List TraceAuditEventRecord := s.rows.filter (·.eventHash.isSome)

end Logs

inductive DatabaseError
  | constraint (text : String)
  | postgres
  deriving DecidableEq

def validateTraceAuditAppendChain (tenantId : String) (auditEventId : Uuid)
    (latestEventHash previousEventHash : Option String) (eventHashPresent : Bool) :
    Except DatabaseError Unit :=
  if eventHashPresent then
    match latestEventHash with
    | none => .ok ()
    | some expectedPrevious =>
      let providedPrevious := previousEventHash.getD genesisHash
      if providedPrevious = expectedPrevious then .ok ()
      else .error (.constraint ("trace audit append for tenant " ++ tenantId ++ " event "
        ++ toString auditEventId ++ " has stale previous_event_hash: expected "
        ++ expectedPrevious ++ ", got " ++ providedPrevious))
  else .ok ()

def latestEventHash (rows : List TraceAuditEventRecord) : Option String :=
  (rows.filter (·.eventHash.isSome)).getLast?.bind (·.eventHash)

/-- One transaction; the row gets the next sequence number, and its id must be new. -/
def appendTraceAuditRow (row : TraceAuditEventRecord) (rows : List TraceAuditEventRecord) :
    Except DatabaseError (List TraceAuditEventRecord) :=
  match validateTraceAuditAppendChain row.tenantId row.auditEventId (latestEventHash rows)
      row.previousEventHash row.eventHash.isSome with
  | .error e => .error e
  | .ok () =>
    if row.auditEventId ∈ rows.map (·.auditEventId) then .error .postgres
    else .ok (rows ++ [row])

theorem appendTraceAuditRow_current {row : TraceAuditEventRecord}
    {rows : List TraceAuditEventRecord}
    (h : row.eventHash.isSome = true → ∀ latest, latestEventHash rows = some latest →
      row.previousEventHash.getD genesisHash = latest) :
    appendTraceAuditRow row rows =
      if row.auditEventId ∈ rows.map (·.auditEventId) then .error .postgres
      else .ok (rows ++ [row]) := by
  have hvalid : validateTraceAuditAppendChain row.tenantId row.auditEventId (latestEventHash rows)
      row.previousEventHash row.eventHash.isSome = .ok () := by
    unfold validateTraceAuditAppendChain
    split
    next hh =>
      split
      · rfl
      next latest hl => exact if_pos (h hh _ hl)
    · rfl
  simp [appendTraceAuditRow, hvalid]

theorem appendTraceAuditRow_stale {row : TraceAuditEventRecord}
    {rows : List TraceAuditEventRecord} {latest : String} (hh : row.eventHash.isSome = true)
    (hl : latestEventHash rows = some latest)
    (hne : row.previousEventHash.getD genesisHash ≠ latest) :
    ∃ error, appendTraceAuditRow row rows = .error error := by
  simp only [appendTraceAuditRow, validateTraceAuditAppendChain, hh, hl, if_neg hne]
  exact ⟨_, rfl⟩

/-! ## Calls -/

inductive AuditError
  | io (context : String)
  | parse
  | tenantMismatch
  | notChained (eventId : Uuid)
  | metadata (text : String)
  | mirror (error : DatabaseError)
  | mirrorRequired (operation : String)
  | drift
  | refused (label : String)
  deriving DecidableEq

inductive Op
  | readLastNonemptyLine
  | readToString
  | utcNow
  | appendLine (line : String)
  | appendTraceAuditEvent (row : TraceAuditEventRecord)
  | listTraceAuditEvents
  | getTraceAuditEventById (id : Uuid)

@[reducible] def Reply : Op → Type
  | .readLastNonemptyLine => Option (Option String)
  | .readToString => Option (List String)
  | .utcNow => DateTime
  | .appendLine _ => Bool
  | .appendTraceAuditEvent _ => Except DatabaseError Unit
  | .listTraceAuditEvents => Option (List TraceAuditEventRecord)
  | .getTraceAuditEventById _ => Option (Option TraceAuditEventRecord)

inductive Fault
  | none
  /-- The call fails before it takes effect. -/
  | before
  /-- The call takes effect and its reply is lost. -/
  | lostReply
  deriving DecidableEq

structure Choice where
  fault : Fault := .none
  now : DateTime := 0
  deriving DecidableEq

namespace Logs

/-- A read that meets a fault gives nothing. -/
def reply {α : Type} (c : Choice) (a : α) : Option α := if c.fault = .none then some a else none

def exec (c : Choice) (s : Logs) : (o : Op) → Reply o × Logs
  | .readLastNonemptyLine => (reply c s.lines.getLast?, s)
  | .readToString => (reply c s.lines, s)
  | .utcNow => (c.now, s)
  | .appendLine line =>
    if c.fault = .before then (false, s)
    else (c.fault = .none, { s with file := some (s.lines ++ [line]) })
  | .appendTraceAuditEvent row =>
    if c.fault = .before then (.error .postgres, s)
    else match appendTraceAuditRow row s.rows with
      | .error e => (.error e, s)
      | .ok rows => (if c.fault = .none then .ok () else .error .postgres, { s with rows := rows })
  | .listTraceAuditEvents => (reply c s.rows, s)
  | .getTraceAuditEventById id => (reply c (s.rows.find? (·.auditEventId == id)), s)

/-- A row without a hash, written by anybody. -/
def addUnhashed (row : TraceAuditEventRecord) (s : Logs) : Option Logs :=
  if row.eventHash.isSome then none
  else match appendTraceAuditRow row s.rows with
    | .error _ => none
    | .ok rows => some { s with rows := rows }

end Logs

/-- The calls on the two logs. With `calm` no call meets a fault; nobody else's row takes the
`reserved` id. -/
@[reducible] def logMachine (calm : Bool) (reserved : Option Uuid) : Machine Op Reply Logs where
  Choice := Choice
  Move := Option TraceAuditEventRecord
  exec c s o := if calm = true ∧ c.fault ≠ .none then none else some (s.exec c o)
  move
    | none, s => some s
    | some row, s => if reserved = some row.auditEventId then none else s.addUnhashed row
  idle := none
  move_idle _ := rfl

abbrev Act (α : Type) : Type := Proc Op Reply AuditError Unit α

def readLastNonemptyLine : Act (Option (Option String)) := Proc.call Op.readLastNonemptyLine

def readToString : Act (Option (List String)) := Proc.call Op.readToString

def utcNow : Act DateTime := Proc.call Op.utcNow

def appendLine (line : String) : Act Bool := Proc.call (Op.appendLine line)

def appendTraceAuditEvent (row : TraceAuditEventRecord) : Act (Except DatabaseError Unit) :=
  Proc.call (Op.appendTraceAuditEvent row)

def listTraceAuditEvents : Act (Option (List TraceAuditEventRecord)) :=
  Proc.call Op.listTraceAuditEvents

def getTraceAuditEventById (id : Uuid) : Act (Option (Option TraceAuditEventRecord)) :=
  Proc.call (Op.getTraceAuditEventById id)

/-! ## The site -/

/-- The configuration of a tenant's site. How an event's metadata is checked, and what is done with
a file that ran ahead of the database under an older build, are parameters. -/
structure Site where
  codec : Codec
  tenantId : String
  requireDbMirrorWrites : Bool
  accountAdmission : Bool
  allowLegacySegmentResume : Bool
  AuditRowMirror : Type
  /-- `normalize_audit_event_metadata`: the text of a refusal, if any. -/
  normalizeAuditEventMetadata : Uuid → String → Option TraceCorpusStatus → Option String →
    AuditRowMirror → Option String
  LegacySegmentResume : Type
  planLegacySegmentResume : List TraceCommonsAuditEvent → List TraceAuditEventRecord →
    Except String (Option LegacySegmentResume)
  writeLegacySegmentResumeEvent : LegacySegmentResume → Act Uuid

namespace Site

variable (site : Site) (event : TraceCommonsAuditEvent)

/-! ## Appends -/

def ensureAuditEventTenant : Act Unit :=
  if event.tenantId = site.tenantId then pure () else Proc.raise .tenantMismatch

def latestAuditEvent : Act (Option TraceCommonsAuditEvent) := do
  let last ← readLastNonemptyLine
  match last with
  | none => Proc.raise (.io "failed to read audit log")
  | some none => pure none
  | some (some line) =>
    match site.codec.fromJson line with
    | none => Proc.raise .parse
    | some event => do
      site.ensureAuditEventTenant event
      pure (some event)

def stampAndChainAuditEvent : Act TraceCommonsAuditEvent := do
  site.ensureAuditEventTenant event
  let latest ← site.latestAuditEvent
  let now ← utcNow
  let createdAt := max now ((latest.map (·.createdAt)).getD 0)
  pure (site.codec.chainAuditEventAfter latest (event.stamped createdAt))

def writeChainedAuditEvent : Act Unit := do
  site.ensureAuditEventTenant event
  let latest ← site.latestAuditEvent
  let latestHash := (latest.bind (·.eventHash)).getD genesisHash
  if event.previousEventHash = some latestHash ∧ event.eventHash.isSome then do
    let written ← appendLine (site.codec.toJson event)
    match written with
    | true => pure ()
    | false => Proc.raise (.io "failed to append audit log")
  else Proc.raise (.notChained event.eventId)

def mirrorAuditEventRowToDb (row : site.AuditRowMirror) : Act Unit := do
  match site.normalizeAuditEventMetadata event.eventId event.kind event.status event.reason row with
  | some text => Proc.raise (.metadata text)
  | none => do
    let result ← appendTraceAuditEvent
      (site.codec.auditEventStorageWrite site.tenantId event)
    match result with
    | .ok () => pure ()
    | .error e => Proc.raise (.mirror e)

def enforceDbMirrorWriteResult (operation : String) (result : Except AuditError Unit) : Act Unit :=
  match result with
  | .ok () => pure ()
  | .error _ =>
    if site.requireDbMirrorWrites || site.accountAdmission then
      Proc.raise (.mirrorRequired operation)
    else pure ()

def verifyMirroredAuditEventAfterFileAppend : Act Unit :=
  if event.eventHash.isNone then pure ()
  else do
    let actual ← getTraceAuditEventById event.eventId
    match actual with
    | none => Proc.raise (.io "failed to re-read mirrored audit event")
    | some none => Proc.raise .drift
    | some (some row) =>
      if row.eventHash = event.eventHash ∧ row.previousEventHash = event.previousEventHash then
        pure ()
      else Proc.raise .drift

/-- With required mirror writes the row comes first, and its failure leaves the file untouched. -/
def appendAuditEventMirrored (row : site.AuditRowMirror) (label : String) :
    Act TraceCommonsAuditEvent := do
  let event ← site.stampAndChainAuditEvent event
  if site.requireDbMirrorWrites then do
    let mirrorResult ← (site.mirrorAuditEventRowToDb event row).attempt
    site.enforceDbMirrorWriteResult label mirrorResult
    site.writeChainedAuditEvent event
    pure event
  else do
    site.writeChainedAuditEvent event
    let mirrorResult ← (site.mirrorAuditEventRowToDb event row).attempt
    site.enforceDbMirrorWriteResult label mirrorResult
    verifyMirroredAuditEventAfterFileAppend event
    pure event

/-! ## Repairs -/

def legacySegmentResumeDisabled : String := "legacy_segment_resume_disabled"

structure TraceAuditChainRepairRequest where
  dryRun : Bool := true
  acceptLegacySegment : Bool := false
  deriving DecidableEq

inductive AuditChainRepairOutcome
  | restore (restorable : Nat) (restoredEventIds : List Uuid)
  | resumeLegacySegment (resumeEventId : Option Uuid)
  deriving DecidableEq

def readFileWith (read : List String → Option (List TraceCommonsAuditEvent)) :
    Act (List TraceCommonsAuditEvent) := do
  let lines ← readToString
  match lines with
  | none => Proc.raise (.io "failed to read audit log")
  | some lines =>
    match read lines with
    | none => Proc.raise .parse
    | some events => pure events

/-- The file ran ahead of the database. -/
def resumeLegacySegment (request : TraceAuditChainRepairRequest)
    (dbRows : List TraceAuditEventRecord) : Act AuditChainRepairOutcome := do
  let events ← readFileWith (site.codec.readAuditEventsInFileOrder site.tenantId)
  match site.planLegacySegmentResume events dbRows with
  | .error label => Proc.raise (.refused label)
  | .ok none => pure (.restore 0 [])
  | .ok (some resume) =>
    if request.dryRun then pure (.resumeLegacySegment none)
    else if !site.allowLegacySegmentResume then
      Proc.raise (.refused legacySegmentResumeDisabled)
    else if !request.acceptLegacySegment then
      Proc.raise (.refused "legacy_segment_not_accepted")
    else do
      let id ← site.writeLegacySegmentResumeEvent resume
      pure (.resumeLegacySegment (some id))

/-- `run_audit_chain_repair` up to where it lets go of the lock. What follows there is the append of
its own audit event, which takes the lock anew like every append. -/
def runAuditChainRepair (request : TraceAuditChainRepairRequest) : Act AuditChainRepairOutcome :=
  if !request.dryRun && request.acceptLegacySegment && !site.allowLegacySegmentResume then
    Proc.raise (.refused legacySegmentResumeDisabled)
  else do
    let fileEvents ← readFileWith (site.codec.readAllAuditEvents site.tenantId)
    let dbRows ← listTraceAuditEvents
    match dbRows with
    | none => Proc.raise (.io "failed to list DB audit rows for audit chain repair")
    | some dbRows =>
      match site.codec.planAuditChainRepair fileEvents dbRows with
      | .ok plan =>
        if request.dryRun then pure (.restore plan.length [])
        else do
          Proc.forEach site.writeChainedAuditEvent plan
          pure (.restore plan.length (plan.map (·.eventId)))
      | .error .fileAheadOfDb => site.resumeLegacySegment request dbRows
      | .error (.unrestorable label) => Proc.raise (.refused label)

/-! ## Requests -/

inductive Request
  | append (event : TraceCommonsAuditEvent) (row : site.AuditRowMirror) (label : String)
  | repair (request : TraceAuditChainRepairRequest)

inductive Answer
  | appended (event : TraceCommonsAuditEvent)
  | repaired (outcome : AuditChainRepairOutcome)
  deriving DecidableEq

def serve : site.Request → Act Answer
  | .append event row label => do
    let event ← site.appendAuditEventMirrored event row label
    pure (.appended event)
  | .repair request => do
    let outcome ← site.runAuditChainRepair request
    pure (.repaired outcome)

abbrev LockedProg : Type := Prog Op Reply (Except AuditError Answer × Unit)

def locked (request : site.Request) : LockedProg := site.serve request ()

abbrev LogConfig : Type := Config Op Reply Logs (Except AuditError Answer × Unit)

/-- A run of the site: requests one after the other, any call of which may meet a fault or be the
last before a crash, with rows from elsewhere in between. -/
def runLogs (c : LogConfig) (es : List (Event (logMachine false none) site.Request)) :
    Option LogConfig :=
  c.run (logMachine false none) site.locked es

end Site

end TraceCommons.Audit
