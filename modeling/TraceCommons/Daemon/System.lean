import TraceCommons.Daemon.Pass

/-! # The daemon around its queue

A person's requests, one watcher visit and one upload pass share the queue. Each locked section is
one event; between two sections of a visit or of a pass anything else may happen. Visits run one
at a time under the pass lock, and passes one at a time in the periodic loop. -/

namespace TraceCommons.Daemon

/-! ## A person's approval -/

structure ApproveRequest where
  ids : List Uuid
  scopes : List String
  inputs : Option String := none
  verdict : Option String := none
  correction : Option String := none
  personIncluded : Bool := false
  /-- What the preview builds, run before the lock, left out. -/
  skipped : List (Uuid × String) := []
  tooLarge : List Uuid := []
  witnessPending : List Uuid := []
  reviewValid : Uuid → Bool := fun _ => true
  policy : Policy
  saved : Bool := true

structure ApprovedBatch where
  queue : Queue
  approvedIds : List Uuid := []
  skipped : List (Uuid × String) := []

def ApprovedBatch.skip (b : ApprovedBatch) (id : Uuid) (label : String) : ApprovedBatch :=
  { b with skipped := b.skipped ++ [(id, label)] }

def ApproveRequest.terms (r : ApproveRequest) (approvedAt : DateTime) : Terms :=
  { r with approvedAt := some approvedAt }

def refuseTooLarge (q : Queue) (id : Uuid) : Queue :=
  if (q.get id).any (·.state = .pending) then q.setState id .refused (some reasonTooLarge) else q

def approveOne (r : ApproveRequest) (approvedAt : DateTime) (b : ApprovedBatch) (id : Uuid) :
    ApprovedBatch :=
  if r.skipped.any (·.1 = id) then b
  else
    match b.queue.get id with
    | none => b.skip id "not-pinned"
    | some e =>
      if e.previewedEnvelopeDigest.isNone && !r.witnessPending.contains id then
        b.skip id (if e.state = .pending then "not-pinned" else "not-pending")
      else if e.holdsWitnessCertificate && !r.reviewValid id then b.skip id "witness-review-stale"
      else if r.policy.holdsEverySend then b.skip id "contribution-override-never"
      else if r.policy.resolve e.projectKey = .ignore then b.skip id "project-mode-never"
      else
        match b.queue.approve id (r.terms approvedAt) with
        | none => b.skip id "not-pending"
        | some q =>
          { b with
            queue := if r.personIncluded then q.markPersonIncluded id else q
            approvedIds := b.approvedIds ++ [id] }

/-- The locked section of `approve_as_a_person`. Approvals that could not be saved are cancelled
again. -/
def approveAsAPerson (q : Queue) (now : DateTime) (r : ApproveRequest) : ApprovedBatch :=
  let b := r.ids.foldl (approveOne r now)
    { queue := r.tooLarge.foldl refuseTooLarge q, skipped := r.skipped }
  if r.saved then b
  else { b with queue := b.approvedIds.foldl (fun q id => (q.cancel id).toOption.getD q) b.queue }

/-! ## A watcher visit -/

structure PassContext where
  now : DateTime
  maxQueueEntries : Nat
  consentChosen : Bool
  consentScopes : List String
  approvalInputs : Option String
  scrubCheckManual : Bool
  gateBlocks : Bool

structure Observation where
  path : String
  sizeBytes : Nat
  modifiedAt : DateTime

structure Transcript where
  sessionHash : String
  userTurns : Nat
  startedAt : Option DateTime

inductive VisitStage
  /-- The queue holds an offer of this very observation. -/
  | offered (entryId : Uuid) (projectKey : String) (state : QueueState) (held : Bool)
  | fresh (canLand : Bool)
  | loading (projectKey : String) (mode : ProjectMode)
  | landing (projectKey : String) (t : Transcript) (armed returnedFromKeep : Bool)

structure Visit where
  ctx : PassContext
  obs : Observation
  fromTrajectory : Bool
  stage : VisitStage

def armedSettleElapsed (modifiedAt now : DateTime) : Bool := modifiedAt + seconds 86400 ≤ now

def unattendedLaneHasRoom (q : Queue) (maxQueueEntries : Nat) : Bool :=
  (q.entries.filter (·.isUnattended)).length < maxQueueEntries

def Visit.wouldArm (v : Visit) (mode : ProjectMode) (returnedFromKeep waits : Bool) : Bool :=
  mode = .autoUpload && v.ctx.consentChosen && !v.ctx.scrubCheckManual && !v.fromTrajectory &&
    !returnedFromKeep && armedSettleElapsed v.obs.modifiedAt v.ctx.now && !waits

/-- The first locked section of `visit_session`. -/
def visitCheck (q : Queue) (ctx : PassContext) (obs : Observation) (fromTrajectory : Bool) :
    Option Visit :=
  if q.dismissedAtPath obs.path || q.keptAtPath obs.path then none
  else some ⟨ctx, obs, fromTrajectory,
    match q.unchangedOfferAtPath obs.path obs.sizeBytes obs.modifiedAt with
    | some e => .offered e.entryId e.projectKey e.state (e.heldForReview || e.returnedFromKeep)
    | none => .fresh (q.loadCanLand obs.path ctx.maxQueueEntries)⟩

/-- The standing opt-in applied again to an unchanged offer. -/
def Visit.reapply (v : Visit) (q : Queue) (mode : ProjectMode) (waits : Bool) : Queue :=
  match v.stage with
  | .offered id _ state held =>
    if mode = .autoUpload && armedSettleElapsed v.obs.modifiedAt v.ctx.now &&
        v.ctx.consentChosen && !v.ctx.scrubCheckManual && !v.fromTrajectory &&
        state = .pending && !held && !waits && !v.ctx.gateBlocks then
      (q.approveUnattended id v.ctx.consentScopes v.ctx.approvalInputs).getD q
    else q
  | _ => q

/-- Whether an offer the queue does not hold goes on to the load: a full queue lets through only
what would be approved unattended, while that lane has room. -/
def Visit.place (v : Visit) (q : Queue) (projectKey : String) (mode : ProjectMode)
    (waits : Bool) : Option Visit :=
  match v.stage with
  | .fresh canLand =>
    let exempt := unattendedLaneHasRoom q v.ctx.maxQueueEntries &&
      v.wouldArm mode (q.returnedFromKeepAtPath v.obs.path) waits && !v.ctx.gateBlocks
    if mode = .ignore || (!canLand && !exempt) then none
    else some { v with stage := .loading projectKey mode }
  | _ => none

/-- `new_entry`, with the skip of a session nobody wrote in. -/
def newEntry (entryIdFor : String → Uuid) (v : Visit) (t : Transcript) (projectKey : String)
    (armed returnedFromKeep : Bool) : QueueEntry :=
  { entryId := entryIdFor t.sessionHash
    sessionHash := t.sessionHash
    projectKey
    path := v.obs.path
    sizeBytes := v.obs.sizeBytes
    discoveredAt := v.ctx.now
    state := if t.userTurns = 0 then .refused else if armed then .approved else .pending
    reasonLabel :=
      if t.userTurns = 0 then some reasonNoUserMessages
      else if returnedFromKeep then some reasonReturnedFromKeep else none
    approvedScopes := if armed then some v.ctx.consentScopes else none
    approvedInputs := if armed then v.ctx.approvalInputs else none
    approvedUnattended := armed
    startedAt := t.startedAt
    observedModifiedAt := some v.obs.modifiedAt
    lastModifiedAt := some v.obs.modifiedAt }

/-- After the load: what the entry to be added is made of, as far as the queue has a say. -/
def Visit.load (v : Visit) (q : Queue) (t : Transcript) (waits : Bool) : Option Visit :=
  match v.stage with
  | .loading projectKey mode =>
    let returned := q.returnedFromKeepAtPath v.obs.path
    let armed := v.wouldArm mode returned waits && t.userTurns ≠ 0 && !v.ctx.gateBlocks
    some { v with stage := .landing projectKey t armed returned }
  | _ => none

/-- The last locked section. Whether the path was dismissed or kept meanwhile is not asked. -/
def Visit.land (entryIdFor : String → Uuid) (v : Visit) (q : Queue) : Queue :=
  match v.stage with
  | .landing projectKey t armed returned =>
    let entry := newEntry entryIdFor v t projectKey armed returned
    let cap := if t.userTurns = 0 || (armed && unattendedLaneHasRoom q v.ctx.maxQueueEntries)
      then none else some v.ctx.maxQueueEntries
    match q.replaceLiveAtPath entry cap with
    | .error _ => q
    | .ok (q, inserted) =>
      if !inserted && armed then
        (q.approveUnattended entry.entryId v.ctx.consentScopes v.ctx.approvalInputs).getD q
      else q
  | _ => q

/-! ## The pass and the whole state -/

inductive PassStage
  | snapshot (candidates : List QueueEntry)
  | checked (approved : List QueueEntry)
  | sending (cfg : SendConfig) (todo : List QueueEntry) (claimed : Nat)
  | inFlight (cfg : SendConfig) (entry : QueueEntry) (todo : List QueueEntry) (claimed : Nat)
  | closing

structure Pass where
  now : DateTime
  stage : PassStage

/-- A claim as it was made: what was claimed, under which approval, and when. -/
structure Claim where
  entryId : Uuid
  path : String
  approvedAt : Option DateTime
  time : DateTime
  deriving DecidableEq

structure State where
  clock : DateTime
  queue : Queue
  visit : Option Visit := none
  pass : Option Pass := none
  claims : List Claim := []

def maxUploadsPerPass : Nat := 20

/-- Where the loop goes on after an entry, unless the pass ends there. -/
def continueAt (cfg : SendConfig) (todo : List QueueEntry) (claimed : Nat) (stop : Bool) :
    PassStage :=
  if stop then .closing else .sending cfg todo claimed

inductive Event
  | tick (d : Nat)
  | pin (id : Uuid) (digest : String)
  | approve (r : ApproveRequest)
  | cancel (id : Uuid)
  | cancelProject (projectKey : String)
  | dismiss (id : Uuid)
  | keep (id : Uuid)
  | undoKeep (id : Uuid) (projectIgnored : Bool) (maxEntries : Nat)
  | visitCheck (ctx : PassContext) (obs : Observation) (fromTrajectory : Bool)
  | visitReapply (mode : ProjectMode) (waits : Bool)
  | visitPlace (projectKey : String) (mode : ProjectMode) (waits : Bool)
  | visitLoad (t : Option Transcript) (waits : Bool)
  | visitLand
  /-- `now` was read a while before the snapshot. -/
  | passStart (lag : Nat)
  | passCheck (policy : Policy)
  | passConfig (cfg : Option SendConfig)
  | passNext (gate : SendGate)
  | passVanished
  | passStopped (timedOut : Bool)
  | passFailed
  | passDecided (d : UploadDecision) (a : Answered)
  | passEnd

/-- `cancel` of a whole project: the approved entries there, under one lock. -/
def cancelProject (q : Queue) (projectKey : String) : Queue :=
  ((q.entries.filter fun e => e.projectKey = projectKey && e.state = .approved).map
    (·.entryId)).foldl (fun q id => (q.cancel id).toOption.getD q) q

def undoKeep (q : Queue) (id : Uuid) (projectIgnored : Bool) (now : DateTime) (maxEntries : Nat) :
    Except String Queue :=
  if (q.get id).any (·.isKept) && projectIgnored then .error "project-ignored"
  else q.undoKeep id now maxEntries

def stepVisit (D : Setup) (s : State) (v : Visit) : Event → State
  | .visitReapply mode waits => { s with queue := v.reapply s.queue mode waits, visit := none }
  | .visitPlace projectKey mode waits => { s with visit := v.place s.queue projectKey mode waits }
  | .visitLoad t waits => { s with visit := t.bind (v.load s.queue · waits) }
  | .visitLand => { s with queue := v.land D.entryIdFor s.queue, visit := none }
  | _ => s

def State.moved (s : State) (now : DateTime) (queue : Queue) (stage : PassStage) : State :=
  { s with queue, pass := some ⟨now, stage⟩ }

/-- The second section of a pass, with the order its candidates are sent in. -/
def stepCheck (s : State) (now : DateTime) (candidates : List QueueEntry) (policy : Policy) :
    State :=
  let ids (v : SendVerdict) := (candidates.filter (policy.atSend · = v)).map (·.entryId)
  s.moved now (retractUnattended s.queue now (ids .ignored) (ids .returned))
    (.checked (sendOrder (candidates.filter (policy.atSend · = .send))))

/-- One turn of the loop up to the claim. -/
def stepNext (s : State) (now : DateTime) (cfg : SendConfig) (todo : List QueueEntry)
    (claimed : Nat) (gate : SendGate) : State :=
  match todo with
  | [] => s.moved now s.queue .closing
  | entry :: todo =>
    if maxUploadsPerPass ≤ claimed then s.moved now s.queue .closing
    else
      match takeNext now s.clock cfg gate s.queue entry.entryId with
      | .skip => s.moved now s.queue (.sending cfg todo claimed)
      | .stop => s.moved now s.queue .closing
      | .revoked queue => s.moved now queue (.sending cfg todo claimed)
      | .claimed queue current =>
        { s.moved now queue (.inFlight cfg entry todo (claimed + 1)) with
          claims := s.claims ++ [⟨entry.entryId, current.path, current.approvedAt, s.clock⟩] }

/-- The section that records how the upload of the claimed entry ended. -/
def stepUploaded (D : Setup) (s : State) (now : DateTime) (cfg : SendConfig)
    (entry : QueueEntry) (todo : List QueueEntry) (claimed : Nat) : Event → State
  | .passVanished =>
    s.moved now (s.queue.setState entry.entryId .failed (some "session-file-vanished"))
      (.sending cfg todo claimed)
  | .passStopped timedOut =>
    s.moved now
      (if timedOut then s.queue.deferWithoutAttempt entry.entryId (s.clock + seconds 600)
        else s.queue) .closing
  | .passFailed => s.moved now s.queue .closing
  | .passDecided d a =>
    let (queue, applied) := applyUploadDecision D s.queue entry.entryId a d
    s.moved now queue (continueAt cfg todo claimed (applied.rateLimited || applied.outage))
  | _ => s

def stepPass (D : Setup) (s : State) (p : Pass) (ev : Event) : State :=
  match p.stage, ev with
  | .snapshot candidates, .passCheck policy => stepCheck s p.now candidates policy
  | .checked approved, .passConfig cfg =>
    match cfg with
    | none => { s with pass := none }
    | some cfg =>
      if approved.isEmpty then { s with pass := none }
      else s.moved p.now s.queue (.sending cfg approved 0)
  | .sending cfg todo claimed, .passNext gate => stepNext s p.now cfg todo claimed gate
  | .inFlight cfg entry todo claimed, ev => stepUploaded D s p.now cfg entry todo claimed ev
  | .closing, .passEnd => { s with queue := s.queue.releaseInFlight, pass := none }
  | _, _ => s

/-- One event. A request that is refused and an event nobody is there for change nothing. -/
def step (D : Setup) (s : State) : Event → State
  | .tick d => { s with clock := s.clock + d }
  | .pin id digest => { s with queue := (s.queue.recordPreviewedEnvelope id digest).getD s.queue }
  | .approve r => { s with queue := (approveAsAPerson s.queue s.clock r).queue }
  | .cancel id => { s with queue := (s.queue.cancel id).toOption.getD s.queue }
  | .cancelProject key => { s with queue := cancelProject s.queue key }
  | .dismiss id => { s with queue := s.queue.setState id .refused (some reasonDismissed) }
  | .keep id => { s with queue := (s.queue.keep id).toOption.getD s.queue }
  | .undoKeep id ignored maxEntries =>
    { s with queue := (undoKeep s.queue id ignored s.clock maxEntries).toOption.getD s.queue }
  | .visitCheck ctx obs fromTrajectory =>
    if s.visit.isNone then { s with visit := visitCheck s.queue ctx obs fromTrajectory } else s
  | .passStart lag =>
    if s.pass.isNone then
      let now := s.clock - lag
      { s with pass := some ⟨now, .snapshot (candidates s.queue now D.approvalHoldSecs)⟩ }
    else s
  | .visitReapply mode waits => s.visit.elim s (stepVisit D s · (.visitReapply mode waits))
  | .visitPlace key mode waits => s.visit.elim s (stepVisit D s · (.visitPlace key mode waits))
  | .visitLoad t waits => s.visit.elim s (stepVisit D s · (.visitLoad t waits))
  | .visitLand => s.visit.elim s (stepVisit D s · .visitLand)
  | ev => s.pass.elim s (stepPass D s · ev)

def run (D : Setup) (s : State) (evs : List Event) : State := evs.foldl (step D) s

end TraceCommons.Daemon
