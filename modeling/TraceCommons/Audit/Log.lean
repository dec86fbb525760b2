import TraceCommons.Lib.HashChain

/-! # The audit log's chain

A tenant's audit events stand in a file, one line an event, and are mirrored as rows of the
database. Each event names the hash of the one before it and carries the hash of its own canonical
text. This module has the events, the rows, how an event is chained, what the audit-chain repair
plans from the two logs, and the verifier of the file. -/

namespace TraceCommons.Audit

open HashChain

/-! ## Events and rows -/

abbrev Uuid := Nat

/-- Nanoseconds since `DateTime::<Utc>::MIN_UTC`. -/
abbrev DateTime := Nat

inductive TokenRole
  | contributor | reviewer | admin | exportWorker | retentionWorker | vectorWorker
  | benchmarkWorker | utilityWorker | processEvalWorker | revocationWorker
  | competitionReadWorker | registerStatsWorker | accountTrustWorker
  deriving DecidableEq

inductive TraceCorpusStatus
  | accepted | quarantined | awaitingPiiBackstop | rejected | revoked | expired | purged
  deriving DecidableEq

structure TraceCommonsAuditEvent where
  eventId : Uuid
  tenantId : String
  submissionId : Uuid
  kind : String
  createdAt : DateTime
  status : Option TraceCorpusStatus := none
  actorRole : Option TokenRole := none
  actorPrincipalRef : Option String := none
  reason : Option String := none
  exportCount : Option Nat := none
  exportId : Option Uuid := none
  decisionInputsHash : Option String := none
  previousEventHash : Option String := none
  eventHash : Option String := none
  deriving DecidableEq

namespace TraceCommonsAuditEvent

/-- The event as it is hashed: it names the hash before it and has none of its own. -/
def unsealed (previousEventHash : String) (event : TraceCommonsAuditEvent) :
    TraceCommonsAuditEvent :=
  { event with previousEventHash := some previousEventHash, eventHash := none }

def stamped (createdAt : DateTime) (event : TraceCommonsAuditEvent) : TraceCommonsAuditEvent :=
  { event with createdAt := createdAt }

def withHash (eventHash : String) (event : TraceCommonsAuditEvent) : TraceCommonsAuditEvent :=
  { event with eventHash := some eventHash }

theorem withHash_unsealed {p h : String} {e : TraceCommonsAuditEvent}
    (hp : e.previousEventHash = some p) (hh : e.eventHash = some h) :
    (e.unsealed p).withHash h = e := by
  rw [withHash, unsealed, ← hp, ← hh]

end TraceCommonsAuditEvent

/-- The columns of a row that the chain is about. -/
structure TraceAuditEventRecord where
  tenantId : String
  auditEventId : Uuid
  previousEventHash : Option String
  eventHash : Option String
  canonicalEventJson : Option String
  deriving DecidableEq

def genesisHash : String := "sha256:genesis"

def eventHashDomain : String := "trace_commons_audit_event:v1"

/-- The hash and the serialization, both taken as ideal. Since an injective hash cannot have
finitely many values, the test for its format comes with it. -/
structure Codec where
  sha256Prefixed : String → String
  isCanonicalSha256PrefixedHash : String → Bool
  toJson : TraceCommonsAuditEvent → String
  fromJson : String → Option TraceCommonsAuditEvent
  sha256Prefixed_injective : ∀ a b, sha256Prefixed a = sha256Prefixed b → a = b
  canonical_sha256Prefixed : ∀ a, isCanonicalSha256PrefixedHash (sha256Prefixed a) = true
  not_canonical_genesis : isCanonicalSha256PrefixedHash genesisHash = false
  newline_notMem : ∀ h, isCanonicalSha256PrefixedHash h = true → '\n' ∉ h.toList
  fromJson_toJson : ∀ e, fromJson (toJson e) = some e

namespace Codec

variable (K : Codec)

/-! ## Hashes -/

def isAuditChainPreviousHash (value : String) : Bool :=
  value == genesisHash || K.isCanonicalSha256PrefixedHash value

def canonicalAuditEventJson (previousEventHash : String) (event : TraceCommonsAuditEvent) :
    String :=
  K.toJson (event.unsealed previousEventHash)

def computeAuditEventHashFromCanonical (previousEventHash canonicalEvent : String) : String :=
  K.sha256Prefixed
    (eventHashDomain ++ "\n" ++ previousEventHash ++ "\n" ++ canonicalEvent)

def computeAuditEventHash (previousEventHash : String) (event : TraceCommonsAuditEvent) : String :=
  K.computeAuditEventHashFromCanonical previousEventHash
    (K.canonicalAuditEventJson previousEventHash event)

/-- Sets the chain fields to follow `latest`; an empty log chains from genesis. -/
def chainAuditEventAfter (latest : Option TraceCommonsAuditEvent)
    (event : TraceCommonsAuditEvent) : TraceCommonsAuditEvent :=
  let previousEventHash := (latest.bind (·.eventHash)).getD genesisHash
  let event := event.unsealed previousEventHash
  event.withHash (K.computeAuditEventHash previousEventHash event)

def auditEventStorageWrite (tenantId : String) (event : TraceCommonsAuditEvent) :
    TraceAuditEventRecord where
  tenantId := tenantId
  auditEventId := event.eventId
  previousEventHash := event.previousEventHash
  eventHash := event.eventHash
  canonicalEventJson := event.previousEventHash.map (K.canonicalAuditEventJson · event)

/-! ## The repair's plan -/

inductive AuditChainRepairPlanRefusal
  | fileAheadOfDb
  | unrestorable (label : String)
  deriving DecidableEq

/-- The line one row stands for, verified against the row. -/
def planDbAheadRow (fileEventIds : List Uuid) (expectedPrevious : String)
    (row : TraceAuditEventRecord) : Except String (String × TraceCommonsAuditEvent) :=
  match row.eventHash with
  | none => .error "db_row_unhashed"
  | some eventHash =>
    match row.canonicalEventJson with
    | none => .error "db_row_missing_canonical_payload"
    | some payload =>
      if row.previousEventHash ≠ some expectedPrevious then .error "db_row_chain_mismatch"
      else if K.computeAuditEventHashFromCanonical expectedPrevious payload ≠ eventHash then
        .error "db_row_hash_mismatch"
      else match K.fromJson payload with
        | none => .error "db_row_payload_unreadable"
        | some event =>
          if event.eventId ≠ row.auditEventId ∨ event.tenantId ≠ row.tenantId
              ∨ event.previousEventHash ≠ some expectedPrevious ∨ event.eventHash.isSome then
            .error "db_row_payload_mismatch"
          else if K.computeAuditEventHash expectedPrevious event ≠ eventHash then
            .error "db_row_payload_not_canonical"
          else if event.eventId ∈ fileEventIds then .error "db_row_already_in_file"
          else .ok (eventHash, event.withHash eventHash)

/-- The loop of `plan_db_ahead_tail`. -/
def planDbAheadTail (fileEventIds : List Uuid) :
    String → List TraceAuditEventRecord → Except String (List TraceCommonsAuditEvent)
  | _, [] => .ok []
  | expectedPrevious, row :: tail => do
    let (eventHash, event) ← K.planDbAheadRow fileEventIds expectedPrevious row
    let plan ← planDbAheadTail fileEventIds eventHash tail
    pure (event :: plan)

def planAuditChainRepair (fileEvents : List TraceCommonsAuditEvent)
    (dbRows : List TraceAuditEventRecord) :
    Except AuditChainRepairPlanRefusal (List TraceCommonsAuditEvent) :=
  let fileHead := (fileEvents.getLast?.bind (·.eventHash)).getD genesisHash
  let hashed := dbRows.filter (·.eventHash.isSome)
  let start :=
    if fileHead = genesisHash then some 0
    else (hashed.findIdx? (·.eventHash == some fileHead)).map (· + 1)
  match start with
  | none => .error .fileAheadOfDb
  | some start =>
    (K.planDbAheadTail (fileEvents.map (·.eventId)) fileHead (hashed.drop start)).mapError
      .unrestorable

/-! ## Reading and verifying the file -/

/-- The events in line order; `none` when a line is no event of the tenant. -/
def readAuditEventsInFileOrder (tenantId : String) (lines : List String) :
    Option (List TraceCommonsAuditEvent) :=
  lines.mapM fun line => (K.fromJson line).filter (·.tenantId == tenantId)

/-- The readers sort by time, keeping the order of events with one time. -/
def readAllAuditEvents (tenantId : String) (lines : List String) :
    Option (List TraceCommonsAuditEvent) :=
  (K.readAuditEventsInFileOrder tenantId lines).map
    (·.insertionSort fun a b => a.createdAt ≤ b.createdAt)

structure TraceAuditChainReport where
  verified : Bool := false
  eventCount : Nat := 0
  legacyEventCount : Nat := 0
  mismatchCount : Nat := 0
  lastEventHash : Option String := none
  failures : List String := []
  deriving DecidableEq

/-- What one line's event fails, in the verifier's order. -/
def lineFailures (expectedPreviousHash : String) (lineNumber : Nat)
    (event : TraceCommonsAuditEvent) (eventHash : String) : List String :=
  let previousEventHash := event.previousEventHash.getD genesisHash
  let at_ (text : String) := "line " ++ toString lineNumber ++ ": " ++ text
  (if K.isCanonicalSha256PrefixedHash eventHash then [] else [at_ "event_hash has invalid format"])
  ++ (if K.isAuditChainPreviousHash previousEventHash then []
      else [at_ "previous_event_hash has invalid format"])
  ++ (if previousEventHash = expectedPreviousHash then []
      else [at_ "previous_event_hash mismatch"])
  ++ (if K.computeAuditEventHash previousEventHash event = eventHash then []
      else [at_ "event_hash mismatch"])

/-- The loop of `verify_file_audit_chain`, from line `lineNumber` on; `none` when a line does not
parse. -/
def verifyLines (tenantId : String) : String → Nat → TraceAuditChainReport → List String →
    Option TraceAuditChainReport
  | _, _, report, [] => some report
  | expectedPreviousHash, lineNumber, report, line :: lines =>
    match K.fromJson line with
    | none => none
    | some event =>
      let report := { report with
        eventCount := report.eventCount + 1
        failures := report.failures ++
          if event.tenantId = tenantId then []
          else ["line " ++ toString lineNumber ++ ": trace audit tenant mismatch"] }
      match event.eventHash with
      | none =>
        verifyLines tenantId genesisHash (lineNumber + 1)
          { report with legacyEventCount := report.legacyEventCount + 1 } lines
      | some eventHash =>
        verifyLines tenantId eventHash (lineNumber + 1)
          { report with
            failures := report.failures ++
              K.lineFailures expectedPreviousHash lineNumber event eventHash
            lastEventHash := some eventHash } lines

/-- A file that does not exist has the default report. -/
def verifyFileAuditChain (tenantId : String) (file : Option (List String)) :
    Option TraceAuditChainReport :=
  match file with
  | none => some {}
  | some lines => (K.verifyLines tenantId genesisHash 1 {} lines).map fun report =>
      { report with
        mismatchCount := report.failures.length
        verified := report.failures.length == 0 }

end Codec

end TraceCommons.Audit
