import TraceCommons.Daemon.Queue

/-! # What an upload pass does with the queue

`drain_approved` takes its candidates in one locked section and comes back under the lock for each
of them: to claim the entry, and, once the upload has ended, to record what came of it. -/

namespace TraceCommons.Daemon

/-! ## Retry times -/

/-- `hint_with_extra_secs` under the cap of a rate limit. -/
def hintWithExtraSecs (hintSecs : Nat) (random : BitVec 64) : Nat :=
  let hint := min hintSecs 900
  let extraMax := max 5 (min (hint / 5) 30)
  min (hint + random.toNat % (extraMax + 1)) 900

/-- `equal_jitter_secs`. -/
def equalJitterSecs (baseSecs : Nat) (random : BitVec 64) : Nat :=
  let half := baseSecs * 1000 / 2
  (half + random.toNat % (baseSecs * 1000 - half + 1)) / 1000

/-- `transient_upload_retry_delay`, and `transient_redaction_retry_delay` on its own count. -/
def transientRetryDelay (failures : Nat) : Nat := min (60 * 2 ^ min (failures - 1) 6) 3600

def transientUploadRetryWait (failures : Nat) (serverHint : Option Nat) (random : BitVec 64) :
    Nat :=
  let wait := equalJitterSecs (transientRetryDelay failures) random
  serverHint.elim wait fun hint => max wait (hintWithExtraSecs hint (random.rotateLeft 17))

def maxTransientRedactionFailures : Nat := 24
def maxTransientUploadFailures : Nat := 12

def transientUploadGiveUpHorizon : Nat :=
  ((List.range (maxTransientUploadFailures - 1)).map fun i => transientRetryDelay (i + 1)).sum

def transientUploadBudgetSpent (failures : Nat) (runStarted : Option DateTime) (now : DateTime) :
    Bool :=
  maxTransientUploadFailures ≤ failures &&
    runStarted.any (· + seconds transientUploadGiveUpHorizon ≤ now)

inductive TransientUpload
  | outage | lease | witness
  deriving DecidableEq

def transientUploadKind (label : String) : Option TransientUpload :=
  if label = reasonIngestUnreachable ∨ label = labelClaimMintFailed then some .outage
  else if label = admissionInProgress then some .lease
  else if witnessFailureIsTransient label then some .witness
  else none

def witnessCapacityRetryDelay (retryAfterSecs attempts : Nat) : Nat :=
  let base := max retryAfterSecs 1
  min (base * 2 ^ min (attempts - 1) 7) (max 3600 base)

def witnessCapacityJitter (entryId : Nat) (retryAfterSecs : Nat) : Nat :=
  entryId % (max retryAfterSecs 1 / 2 + 1)

/-- The daemon's setting and its build, and the id scheme: the id of a session's hash, and an id as
a number. Different hashes have different ids. -/
structure Setup where
  entryIdFor : String → Uuid
  asU128 : Uuid → Nat
  approvalHoldSecs : Nat
  version : String
  entryIdFor_injective : Function.Injective entryIdFor

/-! ## What came of an upload -/

inductive UploadDecision
  | uploaded (submissionId : Uuid)
  | alreadySubmitted (submissionId : Uuid)
  | superseded (newHash : String)
  | refused (reason : String)
  | approvalStale (reason : String)
  | heldForReview (reason pin : String)
  | heldForSecondLook (reason : String) (pin : Option String)
  | failed (reason : String)
  | witnessSaturated (retryAfterSecs : Nat)
  | rateLimited (retryAfterSecs : Nat)
  | paced (retryAfterSecs : Nat)

/-- What stands around a decision: the session as it was last listed, the settings, the clock when
the upload ended, the wait the server asked for and the random draw of the retry. -/
structure Answered where
  now : DateTime
  observedAt : DateTime
  sizeBytes : Nat := 0
  written : Option DateTime := none
  maxQueueEntries : Nat := 0
  unavailableRetryAfter : Option Nat := none
  random : BitVec 64 := 0

def reasonRedactionPanicked : String := "redaction-panicked"
def reasonWitnessAttestationUnavailable : String := "witness_attestation_unavailable"

def reofferedOnANewerBuild : List String :=
  [reasonRedactionPanicked, reasonWitnessAttestationUnavailable]

def QueueEntry.isRefusedFor (reason : String) (e : QueueEntry) : Bool :=
  e.state = .refused ∧ e.reasonLabel = some reason

/-- `note_refusal_version`. -/
def Queue.noteRefusalVersion (q : Queue) (id : Uuid) (version : String) : Queue :=
  (q.edit id (fun e => reofferedOnANewerBuild.any (e.isRefusedFor ·)) fun e =>
    { e with refusedOnVersion := some version }).getD q

structure AppliedDecision where
  rateLimited : Bool := false
  outage : Bool := false

def Queue.nextAttempt (q : Queue) (id : Uuid) : Nat :=
  (q.get id).elim 1 fun e => saturatingSucc e.attempts

/-- The `Failed` arm for a label whose failures are retried until their budget is spent. -/
def applyTransientUpload (q : Queue) (id : Uuid) (kind : TransientUpload) (reason : String)
    (a : Answered) : Queue :=
  let (q, failures, runStarted) := q.recordTransientUploadFailure id a.observedAt
  if transientUploadBudgetSpent failures runStarted a.observedAt then
    let q := q.recordAttempt id none
    if kind = .witness then q.revokeApproval id reason a.observedAt
    else q.setState id .failed (some reason)
  else
    let hint := if kind = .witness then none else a.unavailableRetryAfter
    let wait := transientUploadRetryWait failures hint a.random
    (q.recordAttempt id (some (a.observedAt + seconds wait))).setState id .approved (some reason)

/-- The `Failed` arm for the classifier's transient failure. -/
def applyTransientRedaction (q : Queue) (id : Uuid) (a : Answered) : Queue :=
  let (q, failures) := q.recordTransientRedactionFailure id
  if maxTransientRedactionFailures ≤ failures then
    (q.recordAttempt id none).revokeApproval id reasonTransientRedactionExhausted a.observedAt
  else
    let retryAt := a.observedAt + seconds (transientRetryDelay (q.nextAttempt id))
    (q.recordAttempt id (some retryAt)).setState id .approved (some reasonTransientRedaction)

def applyFailed (q : Queue) (id : Uuid) (reason : String) (a : Answered) :
    Queue × AppliedDecision :=
  if reason = reasonTransientRedaction then (applyTransientRedaction q id a, {})
  else
    match transientUploadKind reason with
    | some kind => (applyTransientUpload q id kind reason a, { outage := kind ≠ .lease })
    | none => ((q.recordAttempt id none).setState id .failed (some reason), {})

/-- `apply_upload_decision`. The entry is the one the pass claimed, named by its id. -/
def applyUploadDecision (D : Setup) (q : Queue) (id : Uuid) (a : Answered) :
    UploadDecision → Queue × AppliedDecision
  | .uploaded submission | .alreadySubmitted submission =>
    ((q.setState id .uploaded none).setSubmissionId id submission, {})
  | .superseded newHash =>
    match q.supersede D.entryIdFor id newHash a.sizeBytes a.written a.now with
    | none => (q, {})
    | some (q, fresh) => ((q.upsert fresh a.maxQueueEntries).toOption.getD q, {})
  | .refused reason =>
    ((q.setState id .refused (some reason)).noteRefusalVersion id D.version, {})
  | .approvalStale reason => (q.revokeApproval id reason a.observedAt, {})
  | .heldForReview reason pin => (q.holdWithPin id reason (some pin) a.observedAt, {})
  | .heldForSecondLook reason pin => (q.holdWithPin id reason pin a.now, {})
  | .failed reason => applyFailed q id reason a
  | .witnessSaturated retryAfterSecs =>
    let wait := witnessCapacityRetryDelay retryAfterSecs (q.nextAttempt id) +
      witnessCapacityJitter (D.asU128 id) retryAfterSecs
    ((q.recordAttempt id (some (a.observedAt + seconds wait))).setState id .approved
      (some reasonWitnessSaturated), {})
  | .rateLimited retryAfterSecs =>
    let wait := hintWithExtraSecs (max 1 (min retryAfterSecs 900)) a.random
    ((q.recordAttempt id (some (a.observedAt + seconds wait))).setState id .approved
      (some reasonRateLimited), { rateLimited := true })
  | .paced retryAfterSecs =>
    let wait := max 1 (min retryAfterSecs 900)
    ((q.deferWithoutAttempt id (a.observedAt + seconds wait)).setState id .approved
      (some reasonRateLimited), { rateLimited := true })

/-! ## The candidates of a pass -/

/-- The entries a pass snapshots: ready, and past their post-approval hold. -/
def candidates (q : Queue) (now : DateTime) (holdSecs : Nat) : List QueueEntry :=
  q.entries.filter fun e => e.readyForUpload now && !e.holdActive now holdSecs

inductive ProjectMode
  | notifyOnly | autoUpload | ignore
  deriving DecidableEq

/-- The folder rules and the contribution override, as one section reads them. -/
structure Policy where
  holdsEverySend : Bool
  resolve : String → ProjectMode
  folderMode : String → ProjectMode
  waitsForAPersonAtSend : String → String → Bool

inductive SendVerdict
  | send | ignored | returned | held
  deriving DecidableEq

/-- What the rules say at send time about an approval in the snapshot. -/
def Policy.atSend (p : Policy) (e : QueueEntry) : SendVerdict :=
  if !e.approvedUnattended then (if p.holdsEverySend then .held else .send)
  else
    match p.resolve e.projectKey with
    | .autoUpload => if p.waitsForAPersonAtSend e.projectKey e.path then .returned else .send
    | .ignore => if p.folderMode e.projectKey ≠ .ignore then .returned else .ignored
    | .notifyOnly => .returned

/-- The second locked section: approvals nobody made, whose folder no longer sends unattended. -/
def retractUnattended (q : Queue) (now : DateTime) (ignored returned : List Uuid) : Queue :=
  let q := ignored.foldl (fun q id =>
    if q.isUnattendedApproval id then q.setState id .refused (some reasonProjectIgnored) else q) q
  returned.foldl (fun q id => if q.isUnattendedApproval id then q.returnToWaiting id now else q) q

def QueueEntry.age (e : QueueEntry) : Option DateTime :=
  e.startedAt.or (e.lastModifiedAt.or e.observedModifiedAt)

/-- The order of `send_order`: a person's approvals first, in queue order, then the standing ones,
oldest first and those of unknown age last. -/
def sendsBefore (l r : QueueEntry) : Bool :=
  if l.approvedUnattended ≠ r.approvedUnattended then r.approvedUnattended
  else if !l.approvedUnattended then true
  else
    match l.age, r.age with
    | some a, some b => a < b || (a = b && l.entryId ≤ r.entryId)
    | some _, none => true
    | none, some _ => false
    | none, none => l.entryId ≤ r.entryId

def sendOrder (approved : List QueueEntry) : List QueueEntry :=
  approved.insertionSort fun l r => sendsBefore l r = true

/-! ## Claiming an entry -/

/-- What of the enrollment's configuration the pass reads. -/
structure SendConfig where
  consentScopes : List String
  witness : Bool

/-- What the pass finds around the queue when an entry's turn comes. -/
structure SendGate where
  witnessInFlight : Bool := false
  holdsEverySend : Bool := false
  uploadsHeld : Bool := false

inductive Taken
  | skip
  | stop
  | revoked (q : Queue)
  | claimed (q : Queue) (current : QueueEntry)

/-- The locked section that claims an entry. The hold is not looked at again: it was checked on
the snapshot. -/
def takeNext (now observedAt : DateTime) (cfg : SendConfig) (g : SendGate) (q : Queue)
    (id : Uuid) : Taken :=
  if g.witnessInFlight || g.holdsEverySend then .skip
  else if g.uploadsHeld then .stop
  else
    match q.get id with
    | none => .skip
    | some current =>
      if !current.readyForUpload now then .skip
      else if current.approvedScopes ≠ some cfg.consentScopes then
        .revoked (q.revokeApproval id reasonScopesChanged observedAt)
      else if cfg.witness && current.previewedEnvelopeDigest.isNone then .skip
      else
        match q.claimForUpload id now with
        | none => .skip
        | some q => .claimed q current

/-- What a turn of the loop can come to. -/
theorem takeNext_cases (now observedAt : DateTime) (cfg : SendConfig) (g : SendGate) (q : Queue)
    (id : Uuid) :
    takeNext now observedAt cfg g q id = .skip ∨ takeNext now observedAt cfg g q id = .stop ∨
    ∃ current, q.get id = some current ∧ current.state = .approved ∧
      (takeNext now observedAt cfg g q id =
          .revoked (q.revokeApproval id reasonScopesChanged observedAt) ∨
        takeNext now observedAt cfg g q id =
          .claimed (q.update id fun e => { e with state := .uploading }) current) := by
  unfold takeNext
  split
  · exact .inl rfl
  split
  · exact .inr (.inl rfl)
  split
  · exact .inl rfl
  rename_i current hget
  by_cases hready : current.readyForUpload now = true
  · have happroved : current.state = .approved := by
      rw [QueueEntry.readyForUpload, Bool.and_eq_true] at hready
      exact of_decide_eq_true hready.1
    have hclaim : q.claimForUpload id now =
        some (q.update id fun e => { e with state := .uploading }) :=
      Queue.edit_eq_some.2 ⟨current, hget, hready, rfl⟩
    rw [if_neg (by simp [hready]), hclaim]
    split
    · exact .inr (.inr ⟨current, hget, happroved, .inl rfl⟩)
    split
    · exact .inl rfl
    · exact .inr (.inr ⟨current, hget, happroved, .inr rfl⟩)
  · rw [if_pos (by simpa using hready)]
    exact .inl rfl

end TraceCommons.Daemon
