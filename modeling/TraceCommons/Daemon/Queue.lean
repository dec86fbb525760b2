import TraceCommons.Lib.Shelf

/-! # The contributor's queue

The entries of the daemon's queue and the operations on them, as far as the watcher, a person's
requests and the upload pass use them. An entry is addressed by its id, at the first place the
queue holds it; a conversation is addressed by its path. -/

namespace TraceCommons.Daemon

/-- An id, by its text. -/
abbrev Uuid := String

/-- An instant, in nanoseconds. -/
abbrev DateTime := Nat

def seconds (n : Nat) : DateTime := n * 1000000000

/-- `saturating_add(1)` on a `u32`. -/
def saturatingSucc (n : Nat) : Nat := min (n + 1) 4294967295

inductive QueueState
  | pending | approved | uploading | uploaded | refused | failed | expired | superseded
  deriving DecidableEq

structure QueueEntry where
  entryId : Uuid
  sessionHash : String
  projectKey : String
  path : String
  sizeBytes : Nat
  discoveredAt : DateTime
  reviewStartedAt : Option DateTime := none
  state : QueueState
  reasonLabel : Option String := none
  refusedOnVersion : Option String := none
  attempts : Nat := 0
  retryAfter : Option DateTime := none
  transientRedactionFailures : Nat := 0
  transientUploadFailures : Nat := 0
  transientUploadRunStartedAt : Option DateTime := none
  submissionId : Option Uuid := none
  approvedScopes : Option (List String) := none
  approvedVerdict : Option String := none
  approvedCorrection : Option String := none
  approvedInputs : Option String := none
  previewedEnvelopeDigest : Option String := none
  approvedAt : Option DateTime := none
  approvedUnattended : Bool := false
  personIncluded : Bool := false
  startedAt : Option DateTime := none
  observedModifiedAt : Option DateTime := none
  lastModifiedAt : Option DateTime := none
  keptFromReason : Option String := none
  deriving DecidableEq

/-! ## Labels -/

def reasonScopesChanged : String := "consent-scopes-changed-after-approval"
def reasonChanged : String := "session-changed-after-offer"
def reasonDismissed : String := "dismissed-by-contributor"
def reasonKept : String := "kept-on-this-mac"
def reasonReturnedFromKeep : String := "returned-from-keep"
def reasonTooLarge : String := "envelope-too-large"
def reasonNoUserMessages : String := "no-user-messages"
def reasonProjectIgnored : String := "project-ignored"
def reasonTransientRedaction : String := "privacy-filter-transient"
def reasonTransientRedactionExhausted : String := "privacy-filter-transient-exhausted"
def reasonWitnessSaturated : String := "witness-saturated"
def reasonRateLimited : String := "rate-limited"
def reasonIngestUnreachable : String := "ingest-unreachable"
def labelClaimMintFailed : String := "claim-mint-failed"
def admissionInProgress : String := "admission_in_progress"
def reasonScrubCheckManual : String := "scrub-check-manual"
def witnessPin : String := "witness-sha256:"

def reasonsNeedingAPerson : List String :=
  ["token-distribution-review-required", "witness-review-required", "witness-risk-review-required",
    reasonTransientRedactionExhausted, "second-look-review-required", "witness_timeout",
    "witness_unreachable", "witness_attestation_unavailable", "witness_collateral_unavailable",
    "witness-not-trusted", "witness-measurement-not-accepted"]

/-- `witness_failure_is_transient`. -/
def witnessFailureIsTransient (label : String) : Bool :=
  label ∈ ["witness_timeout", "witness_unreachable", "witness_attestation_unavailable",
    "witness_collateral_unavailable"]

/-! ## One entry -/

namespace QueueEntry

variable (e : QueueEntry)

/-- `Pending` or `Approved`. -/
def live : Bool := e.state = .pending ∨ e.state = .approved

def isDismissed : Bool :=
  e.state = .refused ∧ e.reasonLabel = some reasonDismissed

def isKept : Bool := e.state = .refused ∧ e.reasonLabel = some reasonKept

def heldForReview : Bool :=
  e.state = .pending ∧ e.reasonLabel.any (· ∈ reasonsNeedingAPerson)

def returnedFromKeep : Bool :=
  e.state = .pending ∧ e.reasonLabel = some reasonReturnedFromKeep

def waitingOnARetry : Bool :=
  e.reasonLabel.any fun label =>
    label ∈ [reasonTransientRedaction, reasonWitnessSaturated, reasonRateLimited,
      reasonIngestUnreachable, labelClaimMintFailed] ||
    witnessFailureIsTransient label || label = admissionInProgress

def readyForUpload (now : DateTime) : Bool :=
  e.state = .approved && (!e.waitingOnARetry || e.retryAfter.any (· ≤ now))

def holdsWitnessCertificate : Bool :=
  e.previewedEnvelopeDigest.any fun pin => witnessPin.toList.isPrefixOf pin.toList

/-- The instant the post-approval hold ends, if one is running at all. -/
def holdUntil (holdSecs : Nat) : Option DateTime :=
  if holdSecs = 0 then none else e.approvedAt.map (· + seconds holdSecs)

def holdActive (now : DateTime) (holdSecs : Nat) : Bool :=
  (e.holdUntil holdSecs).any (now < ·)

/-- The terms of an approval and the pin that came with it. -/
def withoutTerms : QueueEntry :=
  { e with
    retryAfter := none, approvedScopes := none, approvedVerdict := none,
    approvedCorrection := none, approvedInputs := none, approvedAt := none,
    previewedEnvelopeDigest := none }

/-- `reoffered_from`: a fresh offer that keeps only provenance. -/
def reoffered : QueueEntry :=
  { e.withoutTerms with
    state := .pending, reasonLabel := none, attempts := 0, transientRedactionFailures := 0,
    transientUploadFailures := 0, transientUploadRunStartedAt := none, submissionId := none,
    reviewStartedAt := none, approvedUnattended := false, observedModifiedAt := none }

def isUnattended : Bool := e.state = .approved ∧ e.approvedUnattended

/-- After `keep`. An unattended approval is revoked with it, and leaves no label to restore. -/
def kept : QueueEntry :=
  { e.withoutTerms with
    keptFromReason := if e.isUnattended then none else e.reasonLabel
    state := .refused
    reasonLabel := some reasonKept
    approvedUnattended := false }

/-- After `undo_keep`: a hold that needs a person is put back as it was. -/
def returned (now : DateTime) (e : QueueEntry) : QueueEntry :=
  { e.withoutTerms with
    keptFromReason := none
    state := .pending
    reasonLabel := some
      ((e.keptFromReason.filter (· ∈ reasonsNeedingAPerson)).getD reasonReturnedFromKeep)
    discoveredAt := now
    approvedUnattended := false }

/-- After `set_state`. -/
def inState (state : QueueState) (reason : Option String) (e : QueueEntry) : QueueEntry :=
  { e with
    retryAfter :=
      if e.reasonLabel = some reasonTransientRedaction ∧ state ≠ .approved ∧ state ≠ .uploading
      then none else e.retryAfter
    state := state
    reasonLabel := reason }

/-- After `revoke_approval_at`. -/
def revoked (reason : String) (now : DateTime) (e : QueueEntry) : QueueEntry :=
  { e.withoutTerms with
    reviewStartedAt :=
      if reason ∈ reasonsNeedingAPerson ∨ reason = reasonScrubCheckManual
      then some (e.reviewStartedAt.getD now) else e.reviewStartedAt
    state := .pending
    reasonLabel := some reason
    approvedUnattended := false }

/-- After `cancel`. -/
def cancelled : QueueEntry :=
  { e.withoutTerms with state := .pending, reasonLabel := none }

end QueueEntry

/-- The terms an approval is given under. -/
structure Terms where
  scopes : List String
  inputs : Option String
  verdict : Option String := none
  correction : Option String := none
  approvedAt : Option DateTime := none

/-- After `approve`: the latest approver wins, with a whole retry budget. -/
def QueueEntry.approvedUnder (t : Terms) (e : QueueEntry) : QueueEntry :=
  { e with
    state := .approved, reasonLabel := none, retryAfter := none
    transientRedactionFailures := 0, transientUploadFailures := 0
    transientUploadRunStartedAt := none, approvedUnattended := false
    approvedScopes := some t.scopes, approvedInputs := t.inputs, approvedVerdict := t.verdict
    approvedCorrection := t.correction, approvedAt := t.approvedAt }

def QueueEntry.markUnattended (e : QueueEntry) : QueueEntry := { e with approvedUnattended := true }

/-- What no change of an entry touches. -/
def QueueEntry.key (e : QueueEntry) : Uuid × String × String := (e.entryId, e.sessionHash, e.path)

/-- `counts_against_the_cap`. -/
def countsAgainstTheCap (e : QueueEntry) : Bool := e.live && !e.personIncluded

/-! ## The queue -/

structure Queue where
  entries : List QueueEntry
  deriving DecidableEq

namespace Queue

variable (q : Queue) (id : Uuid) (path : String)

def get : Option QueueEntry := q.entries.find? (·.entryId = id)

def update (f : QueueEntry → QueueEntry) : Queue := ⟨Shelf.update (·.entryId = id) f q.entries⟩

/-- A change of one entry that is refused unless the entry is there and passes the check. -/
def edit (allowed : QueueEntry → Bool) (f : QueueEntry → QueueEntry) : Option Queue :=
  if (q.get id).any allowed then some (q.update id f) else none

def atPath : List QueueEntry := q.entries.filter (·.path = path)

def dismissedAtPath : Bool := (q.atPath path).any (·.isDismissed)

def keptAtPath : Bool := (q.atPath path).any (·.isKept)

def returnedFromKeepAtPath : Bool := (q.atPath path).any (·.returnedFromKeep)

def capacityUsed : Nat := (q.entries.filter countsAgainstTheCap).length

/-- `set_state`: unconditional, whatever state the entry is in. -/
def setState (state : QueueState) (reason : Option String) : Queue :=
  q.update id (·.inState state reason)

def keep : Except String Queue :=
  match q.get id with
  | none => .error "unknown-entry-id"
  | some e =>
    if e.state ≠ .pending ∧ !e.isUnattended then .error "not-pending"
    else .ok (q.update id (·.kept))

def undoKeep (now : DateTime) (maxEntries : Nat) : Except String Queue :=
  match q.get id with
  | none => .error "unknown-entry-id"
  | some e =>
    if !e.isKept then .error "not-kept"
    else if maxEntries ≤ q.capacityUsed then .error "queue-full"
    else .ok (q.update id (·.returned now))

def upsert (entry : QueueEntry) (maxEntries : Nat) : Except String Queue :=
  if q.entries.any (·.sessionHash = entry.sessionHash) then .ok q
  else if maxEntries ≤ q.capacityUsed then .error "queue-full"
  else .ok ⟨q.entries ++ [entry]⟩

def isUnattendedApproval : Bool := q.entries.any fun e => e.entryId = id && e.isUnattended

/-- `revoke_approval_at`. -/
def revokeApproval (reason : String) (now : DateTime) : Queue := q.update id (·.revoked reason now)

/-- `return_to_waiting`. -/
def returnToWaiting (now : DateTime) : Queue :=
  (q.revokeApproval id "" now).update id fun e => { e with reasonLabel := none, discoveredAt := now }

def approve (t : Terms) : Option Queue := q.edit id (·.state = .pending) (·.approvedUnder t)

/-- `approve_unattended`: a standing opt-in carries no verdict and starts no hold. -/
def approveUnattended (scopes : List String) (inputs : Option String) : Option Queue :=
  if q.entries.any fun e => e.entryId = id && (e.heldForReview || e.returnedFromKeep) then none
  else (q.approve id { scopes, inputs }).map (·.update id (·.markUnattended))

def markPersonIncluded : Queue := q.update id fun e => { e with personIncluded := true }

/-- `record_previewed_envelope`. -/
def recordPreviewedEnvelope (digest : String) : Option Queue :=
  q.edit id (·.state = .pending) fun e => { e with previewedEnvelopeDigest := some digest }

def claimForUpload (now : DateTime) : Option Queue :=
  q.edit id (·.readyForUpload now) fun e => { e with state := .uploading }

def releaseInFlight : Queue :=
  ⟨q.entries.map fun e => if e.state = .uploading then { e with state := .approved } else e⟩

/-- `hold_with_witness_pin`, and `hold_with_scrub_pin_at` where nothing may be pinned. -/
def holdWithPin (reason : String) (pin : Option String) (now : DateTime) : Queue :=
  let held := q.revokeApproval id reason now
  match pin with
  | none => held
  | some digest => (held.recordPreviewedEnvelope id digest).getD held

def setSubmissionId (id submission : Uuid) : Queue :=
  q.update id fun e => { e with submissionId := some submission }

def deferWithoutAttempt (retryAfter : DateTime) : Queue :=
  q.update id fun e => { e with retryAfter := some retryAfter }

def recordTransientRedactionFailure : Queue × Nat :=
  let q' := q.update id fun e =>
    { e with transientRedactionFailures := saturatingSucc e.transientRedactionFailures }
  (q', (q'.get id).elim 0 (·.transientRedactionFailures))

def recordTransientUploadFailure (now : DateTime) : Queue × Nat × Option DateTime :=
  let q' := q.update id fun e =>
    { e with
      transientUploadFailures := saturatingSucc e.transientUploadFailures
      transientUploadRunStartedAt := some (e.transientUploadRunStartedAt.getD now) }
  (q', (q'.get id).elim 0 (·.transientUploadFailures),
    (q'.get id).bind (·.transientUploadRunStartedAt))

def recordAttempt (retryAfter : Option DateTime) : Queue :=
  q.update id fun e => { e with attempts := saturatingSucc e.attempts, retryAfter }

/-- `supersede`: the old entry is marked, and the offer that replaces it returned. -/
def supersede (entryIdFor : String → Uuid) (q : Queue) (id : Uuid) (newHash : String)
    (newSize : Nat) (newModifiedAt : Option DateTime) (now : DateTime) :
    Option (Queue × QueueEntry) :=
  (q.get id).map fun old =>
    (q.setState id .superseded (some reasonChanged),
      { old.reoffered with
        entryId := entryIdFor newHash, sessionHash := newHash, sizeBytes := newSize
        discoveredAt := now, lastModifiedAt := newModifiedAt })

def unchangedOfferAtPath (sizeBytes : Nat) (modifiedAt : DateTime) : Option QueueEntry :=
  let same (e : QueueEntry) : Bool :=
    e.sizeBytes = sizeBytes ∧ e.observedModifiedAt = some modifiedAt
  let here := q.atPath path
  if here.any fun e => e.live && !same e then none
  else (here.find? fun e => same e && e.live).or (here.find? same)

def loadCanLand (maxEntries : Nat) : Bool :=
  q.capacityUsed < maxEntries || (q.atPath path).any (·.live)

/-- The live offers at the path of `entry` that describe other content. -/
def stale (entry : QueueEntry) : List Uuid :=
  (q.entries.filter fun e =>
    e.path = entry.path && e.sessionHash ≠ entry.sessionHash && e.live).map (·.entryId)

def retire (ids : List Uuid) : Queue :=
  ids.foldl (fun q id => q.setState id .superseded (some reasonChanged)) q

/-- `replace_live_at_path`, with whether the entry was added. No bound stands for `usize::MAX`. -/
def replaceLiveAtPath (entry : QueueEntry) (maxEntries : Option Nat) :
    Except String (Queue × Bool) :=
  let stale := q.stale entry
  let tracked := q.entries.any (·.sessionHash = entry.sessionHash)
  let survivors := (q.entries.filter fun e =>
    countsAgainstTheCap e && !stale.contains e.entryId).length
  if !tracked && maxEntries.any (· ≤ survivors) then .error "queue-full"
  else if tracked then .ok (q.retire stale, false)
  else .ok (⟨(q.retire stale).entries ++ [entry]⟩, true)

def cancel : Except String Queue :=
  match q.get id with
  | none => .error "unknown-entry-id"
  | some e =>
    if e.state ≠ .approved then .error "not-approved"
    else .ok (q.update id (·.cancelled))

/-! ## Lookups after a change -/

variable {q id}

theorem get_eq_some {e : QueueEntry} (h : q.get id = some e) : e ∈ q.entries ∧ e.entryId = id :=
  ⟨List.mem_of_find?_eq_some h, by simpa using List.find?_some h⟩

variable {f : QueueEntry → QueueEntry}

theorem get_update (hf : ∀ e, (f e).entryId = e.entryId) :
    (q.update id f).get id = (q.get id).map f :=
  Shelf.find?_update fun e => by rw [hf e]

theorem update_update {g : QueueEntry → QueueEntry} (hf : ∀ e, (f e).entryId = e.entryId) :
    (q.update id f).update id g = q.update id fun e => g (f e) :=
  congrArg _ (Shelf.update_update fun e => by rw [hf e])

variable {q' : Queue}

theorem edit_eq_some {allowed : QueueEntry → Bool} :
    q.edit id allowed f = some q' ↔
      ∃ e, q.get id = some e ∧ allowed e = true ∧ q.update id f = q' := by
  unfold edit
  cases q.get id with
  | none => simp
  | some e => simp

theorem cancel_eq_ok :
    q.cancel id = .ok q' ↔
      ∃ e, q.get id = some e ∧ e.state = .approved ∧ q.update id (·.cancelled) = q' := by
  unfold cancel
  cases q.get id with
  | none => simp
  | some e => by_cases h : e.state = .approved <;> simp [h]

theorem keep_eq_ok :
    q.keep id = .ok q' ↔ ∃ e, q.get id = some e ∧
      (e.state = .pending ∨ e.isUnattended = true) ∧ q.update id (·.kept) = q' := by
  unfold keep
  cases q.get id with
  | none => simp
  | some e => by_cases h : e.state = .pending <;> by_cases hu : e.isUnattended <;> simp [h, hu]

theorem undoKeep_eq_ok {now : DateTime} {maxEntries : Nat}
    (h : q.undoKeep id now maxEntries = .ok q') :
    ∃ e, q.get id = some e ∧ e.isKept = true ∧ q.update id (·.returned now) = q' := by
  unfold undoKeep at h
  cases hget : q.get id with
  | none => simp [hget] at h
  | some e =>
    simp only [hget] at h
    split at h
    · cases h
    rename_i hkept
    split at h
    · cases h
    · exact ⟨e, rfl, by simpa using hkept, Except.ok.inj h⟩

theorem approveUnattended_eq_some {scopes : List String} {inputs : Option String}
    (h : q.approveUnattended id scopes inputs = some q') :
    q.edit id (·.state = .pending)
      (fun e => (e.approvedUnder { scopes, inputs }).markUnattended) = some q' := by
  unfold approveUnattended at h
  split at h
  · cases h
  obtain ⟨q1, happrove, rfl⟩ := Option.map_eq_some_iff.1 h
  obtain ⟨e, hget, hpending, rfl⟩ := edit_eq_some.1 happrove
  refine edit_eq_some.2 ⟨e, hget, hpending, Eq.symm ?_⟩
  exact update_update (f := QueueEntry.approvedUnder _) fun _ => rfl

/-- Either the hash is tracked and only the stale offers go, or the entry is added behind them. -/
theorem replaceLiveAtPath_eq_ok {entry : QueueEntry} {maxEntries : Option Nat} {inserted : Bool}
    (h : q.replaceLiveAtPath entry maxEntries = .ok (q', inserted)) :
    (inserted = false ∧ q' = q.retire (q.stale entry)) ∨
    (inserted = true ∧ (∀ e ∈ q.entries, e.sessionHash ≠ entry.sessionHash) ∧
      q' = ⟨(q.retire (q.stale entry)).entries ++ [entry]⟩) := by
  unfold replaceLiveAtPath at h
  dsimp only at h
  split at h
  · cases h
  split at h
  · cases h
    exact .inl ⟨rfl, rfl⟩
  rename_i htracked
  cases h
  refine .inr ⟨rfl, fun e he heq => htracked ?_, rfl⟩
  exact List.any_eq_true.2 ⟨e, he, decide_eq_true heq⟩

theorem dismissedAtPath_of_mem {e : QueueEntry} (he : e ∈ q.entries) (hd : e.isDismissed = true) :
    q.dismissedAtPath e.path = true :=
  List.any_eq_true.2 ⟨e, List.mem_filter.2 ⟨he, decide_eq_true rfl⟩, hd⟩

theorem keptAtPath_of_mem {e : QueueEntry} (he : e ∈ q.entries) (hk : e.isKept = true) :
    q.keptAtPath e.path = true :=
  List.any_eq_true.2 ⟨e, List.mem_filter.2 ⟨he, decide_eq_true rfl⟩, hk⟩

end Queue

end TraceCommons.Daemon
