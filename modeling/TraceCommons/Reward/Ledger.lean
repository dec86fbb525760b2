import TraceCommons.Gate.Amount
import TraceCommons.Lib.Fold

/-! # The mission reward ledger

The reward functions of the database for one tenant: programs and published offers, reservations
by operators and by participants, claims, reviews, cancellations, invalidations and the merge of
two accounts. Each runs alone, under the tenant's reward lock; one that raises leaves the tables
as they were. The clock is read several times in a call. -/

namespace TraceCommons.Reward

/-- A text `sha256:` with 64 hexadecimal digits. Any other text is an absent argument. -/
abbrev Hash := BitVec 256

inductive RewardError
  | unauthorized | requestInvalid | payloadConflict | programClosed | notFound | workDuplicate
  | capacityExhausted | participantCap | stateConflict | reservationExpired | evidenceInvalidated
  | evidenceDuplicate | selfReview | offerChanged | offerSuspended | participantUnprovisioned
  | mergeParticipantCap | mergeWorkDuplicate | uniqueViolation
  deriving DecidableEq

/-- `trace_reward_operators.operator_role`. -/
inductive OperatorRole
  | issuer | reviewer
  deriving DecidableEq

structure Operator where
  actorHash : Hash
  role : OperatorRole
  deriving DecidableEq

inductive ActivityKind
  | missionCompletion | insightContribution
  deriving DecidableEq

/-- The terms of a program, once they have the expected keys and types. -/
structure Terms where
  activityKind : ActivityKind
  definitionHash : Hash
  rubricHash : Hash
  evaluatorPolicyHash : Hash
  requiredEvidenceHash : Hash
  rightsHash : Hash
  challengePolicyHash : Hash
  sponsorHash : Hash
  awardUnits : Nat
  capacityUnits : Nat
  participantCapUnits : Nat
  closesAt : Time
  reservationTtlSeconds : Nat
  deriving DecidableEq

/-- The ranges of `trace_reward_terms_valid`. -/
def termsValid (t : Terms) : Bool :=
  1 ≤ t.awardUnits && 1 ≤ t.capacityUnits && 1 ≤ t.participantCapUnits &&
    t.awardUnits < 2 ^ 63 && t.capacityUnits < 2 ^ 63 && t.participantCapUnits < 2 ^ 63 &&
    t.awardUnits ≤ t.participantCapUnits && t.participantCapUnits ≤ t.capacityUnits &&
    1 ≤ t.reservationTtlSeconds && t.reservationTtlSeconds ≤ 604800

structure Manifest where
  definition : String
  rubric : String
  requiredEvidence : String
  rights : String
  challengePolicy : String
  evaluatorPolicy : String
  reservationTerms : String
  deriving DecidableEq

def Manifest.texts (m : Manifest) : List String :=
  [m.definition, m.rubric, m.requiredEvidence, m.rights, m.challengePolicy, m.evaluatorPolicy,
    m.reservationTerms]

/-- The texts of `trace_reward_manifest_valid`: not blank, and at most 4096 bytes. -/
def manifestValid (m : Manifest) : Bool :=
  m.texts.all fun t => !(t.toList.all (· = ' ')) && t.utf8ByteSize ≤ 4096

inductive IdentityMode
  | operatorAsserted | accountBound
  deriving DecidableEq

/-- A row of `trace_reward_programs`. -/
structure Program where
  programId : Uuid
  terms : Terms
  termsHash : Hash
  creatorHash : Hash
  identityMode : IdentityMode
  deriving DecidableEq

/-- A row of `trace_reward_offers` with its `trace_reward_offer_controls`. -/
structure Offer where
  programId : Uuid
  manifest : Manifest
  offerVersionHash : Hash
  workNamespaceHash : Hash
  publisherHash : Hash
  suspended : Bool
  deriving DecidableEq

inductive ReservationState
  | reserved | submitted | awarded | rejected | cancelled | invalidated
  deriving DecidableEq

/-- The four columns of a claim, which are set together. -/
structure Claim where
  evidenceHash : Hash
  evaluationHash : Hash
  submitterHash : Hash
  submittedAt : Time
  deriving DecidableEq

/-- A row of `trace_reward_reservations`. -/
structure Reservation where
  reservationId : Uuid
  programId : Uuid
  participantHash : Hash
  workHash : Hash
  consentHash : Hash
  creatorHash : Hash
  awardUnits : Nat
  state : ReservationState
  expiresAt : Time
  claim : Option Claim
  terminalAt : Option Time
  createdAt : Time
  deriving DecidableEq

/-- The accepted reasons of a review, then those of a rejection. -/
inductive Reason
  | completionVerified | qualifiedNegative | qualifiedInconclusive
  | evidenceIncomplete | rubricNotMet | conflictUnresolved | consentWithdrawn
  deriving DecidableEq

def Reason.accepting : Reason → Bool
  | .completionVerified | .qualifiedNegative | .qualifiedInconclusive => true
  | _ => false

/-- What a row of `trace_reward_decisions` is about. -/
inductive DecisionKind
  | review (reservation : Uuid) (accepted : Bool) (reason : Reason)
  | cancel (reservation : Uuid)
  | invalidation (evidence : Hash)
  deriving DecidableEq

structure Decision where
  decisionId : Uuid
  kind : DecisionKind
  actorHash : Hash
  deriving DecidableEq

/-- A row of `trace_reward_awards`. Its id is that of the decision. -/
structure Award where
  awardId : Uuid
  reservationId : Uuid
  programId : Uuid
  participantHash : Hash
  reviewerHash : Hash
  awardUnits : Nat
  termsHash : Hash
  deriving DecidableEq

structure Invalidation where
  decisionId : Uuid
  evidenceHash : Hash
  invalidatorHash : Hash
  deriving DecidableEq

/-- A row of `trace_reward_principal_accounts`. -/
structure Binding where
  accountId : Uuid
  rewardPrincipalId : Uuid
  participantHash : Hash
  deriving DecidableEq

structure ParticipantReservation where
  reservationId : Uuid
  participantHash : Hash
  offerVersionHash : Hash
  workNamespaceHash : Hash
  deriving DecidableEq

structure Ledger where
  programs : List Program
  offers : List Offer
  reservations : List Reservation
  decisions : List Decision
  awards : List Award
  invalidations : List Invalidation
  principals : List Uuid
  bindings : List Binding
  participantReservations : List ParticipantReservation
  clock : Time
  deriving DecidableEq

structure Digests where
  text : String → Hash
  terms : Terms → Hash
  offerVersion : Hash → Manifest → Hash
  principal : Uuid → Hash
  work : Hash → Hash → Hash
  acknowledgement : Hash → Hash → Uuid → Hash

/-- The clock during one call, after it has the lock. The capacity sums read it once a row. -/
structure Reading where
  now : Time
  used : Uuid → Time
  aliasesUsed : Uuid → Time
  stamp : Time
  done : Time
  now_le_used : ∀ id, now ≤ used id
  used_le_done : ∀ id, used id ≤ done
  now_le_aliasesUsed : ∀ id, now ≤ aliasesUsed id
  aliasesUsed_le_done : ∀ id, aliasesUsed id ≤ done
  now_le_done : now ≤ done

/-- `make_interval(secs => n)`, in microseconds. -/
def seconds (n : Nat) : Time := n * 1000000

/-- `trace_reward_authorize`. No operator stands for a session without one. -/
def authorize (operator : Option Operator) (required : Option OperatorRole) :
    Except RewardError Hash := do
  let o ← found operator .unauthorized
  refuse (!required.all (· = o.role)) .unauthorized
  pure o.actorHash

/-! ## What the functions return -/

inductive ShownState
  | stored (s : ReservationState)
  | expired
  | awardedInvalidated
  deriving DecidableEq

structure ReservationView where
  reservationId : Uuid
  programId : Uuid
  participantHash : Hash
  workHash : Hash
  state : ShownState
  expiresAt : Time
  awardUnits : Nat
  deriving DecidableEq

def Reservation.shownState (r : Reservation) (now : Time) : ShownState :=
  if r.state = .reserved && r.expiresAt ≤ now then .expired else .stored r.state

def Reservation.view (r : Reservation) (state : ShownState) : ReservationView :=
  ⟨r.reservationId, r.programId, r.participantHash, r.workHash, state, r.expiresAt, r.awardUnits⟩

/-- The states of `trace_reward_reservations_live_work_idx`. -/
def Reservation.holdsWork (r : Reservation) : Bool :=
  r.state = .reserved || r.state = .submitted || r.state = .awarded

structure ClaimView where
  reservationId : Uuid
  programId : Uuid
  state : ReservationState
  submittedAt : Option Time
  awardUnits : Nat
  deriving DecidableEq

def Reservation.claimView (r : Reservation) : ClaimView :=
  ⟨r.reservationId, r.programId, r.state, r.claim.map (·.submittedAt), r.awardUnits⟩

structure ReviewView where
  decisionId : Uuid
  reservationId : Uuid
  accepted : Bool
  reason : Reason
  state : Option ReservationState
  awardUnits : Option Nat
  deriving DecidableEq

/-- `trace_reward_participant_reservation_projection`, without the list of decisions. -/
structure ParticipantView where
  reservationId : Uuid
  programId : Uuid
  offerVersionHash : Hash
  state : ShownState
  invalidated : Bool
  pinnedUnits : Nat
  awardedUnits : Nat
  expiresAt : Time
  createdAt : Time
  submittedAt : Option Time
  terminalAt : Option Time
  deriving DecidableEq

namespace Ledger

variable (D : Digests) (s : Ledger)

/-! ## Lookups -/

def findProgram (id : Uuid) : Option Program := s.programs.find? fun p => p.programId = id

def findOffer (id : Uuid) : Option Offer := s.offers.find? fun o => o.programId = id

def findReservation (id : Uuid) : Option Reservation :=
  s.reservations.find? fun r => r.reservationId = id

def findDecision (id : Uuid) : Option Decision := s.decisions.find? fun d => d.decisionId = id

def findAward (reservation : Uuid) : Option Award :=
  s.awards.find? fun a => a.reservationId = reservation

def isInvalidated (evidence : Hash) : Bool :=
  s.invalidations.any fun i => i.evidenceHash = evidence

def findBinding (account : Uuid) : Option Binding :=
  s.bindings.find? fun b => b.accountId = account

def aliases (principal : Uuid) : List Hash :=
  (s.bindings.filter fun b => b.rewardPrincipalId = principal).map (·.participantHash)

def counted (τ : Uuid → Time) (r : Reservation) : Bool :=
  (s.findAward r.reservationId).isSome || r.state = .submitted ||
    (r.state = .reserved && τ r.reservationId < r.expiresAt)

/-- `trace_reward_capacity_used_for_aliases`. No aliases select every participant. -/
def capacityUsedForAliases (τ : Uuid → Time) (program : Uuid) (aliases : Option (List Hash)) :
    Nat :=
  (s.reservations.map fun r => if r.programId = program &&
    aliases.all (·.contains r.participantHash) && s.counted τ r then r.awardUnits else 0).sum

/-- `trace_reward_capacity_used`. -/
def capacityUsed (τ : Uuid → Time) (program : Uuid) (participant : Option Hash) : Nat :=
  s.capacityUsedForAliases τ program (participant.map fun h => [h])

/-- How many reservations the aliases have in a work namespace. -/
def namespaceCount (aliases : List Hash) (workNamespace : Hash) : Nat :=
  s.participantReservations.countP fun x =>
    aliases.contains x.participantHash && x.workNamespaceHash = workNamespace

def workTaken (work : Hash) : Bool := s.reservations.any fun r => r.workHash = work && r.holdsWork

/-- The trigger `trace_reward_account_bound_insert_only`, then the live-work index. -/
def insertReservation (participantGuard : Bool) (r : Reservation) : Except RewardError Ledger := do
  refuse ((s.programs.any fun p => p.programId = r.programId && p.identityMode = .accountBound) &&
    !participantGuard) .unauthorized
  refuse (s.workTaken r.workHash) .uniqueViolation
  pure { s with reservations := s.reservations ++ [r] }

def updateReservation (id : Uuid) (f : Reservation → Reservation) : Ledger :=
  { s with reservations := s.reservations.map fun r => if r.reservationId = id then f r else r }

/-! ## Programs and offers -/

variable (c : Reading) (operator : Option Operator)

def programCreate (program : Option Uuid) (terms : Option Terms) :
    Except RewardError (Program × Ledger) := do
  let actor ← authorize operator (some .issuer)
  let program ← found program .requestInvalid
  let terms ← found (terms.filter termsValid) .requestInvalid
  match s.findProgram program with
  | some prior =>
    refuse (prior.terms ≠ terms) .payloadConflict
    pure (prior, s)
  | none =>
    refuse (terms.closesAt ≤ c.now) .programClosed
    let p : Program := ⟨program, terms, D.terms terms, actor, .operatorAsserted⟩
    pure (p, { s with programs := s.programs ++ [p] })

/-- The terms name the texts of the manifest. -/
def manifestMatches (t : Terms) (m : Manifest) : Bool :=
  t.definitionHash = D.text m.definition && t.rubricHash = D.text m.rubric &&
    t.requiredEvidenceHash = D.text m.requiredEvidence && t.rightsHash = D.text m.rights &&
    t.challengePolicyHash = D.text m.challengePolicy &&
    t.evaluatorPolicyHash = D.text m.evaluatorPolicy

/-- `publishedElsewhere`: another tenant has an offer for the program id. -/
def offerPublish (program : Option Uuid) (terms : Option Terms) (manifest : Option Manifest)
    (publishedElsewhere : Bool) : Except RewardError (Offer × Ledger) := do
  let actor ← authorize operator (some .issuer)
  let program ← found program .requestInvalid
  let terms ← found (terms.filter termsValid) .requestInvalid
  let manifest ← found (manifest.filter manifestValid) .requestInvalid
  refuse (!manifestMatches D terms manifest) .payloadConflict
  match s.findOffer program with
  | some offer =>
    refuse ((s.findProgram program).map (·.terms) ≠ some terms || offer.manifest ≠ manifest)
      .payloadConflict
    pure (offer, s)
  | none =>
    refuse (s.findProgram program).isSome .payloadConflict
    refuse (terms.closesAt ≤ c.now) .programClosed
    refuse publishedElsewhere .payloadConflict
    let p : Program := ⟨program, terms, D.terms terms, actor, .accountBound⟩
    let offer : Offer := ⟨program, manifest, D.offerVersion (D.terms terms) manifest,
      D.text manifest.definition, actor, false⟩
    pure (offer, { s with programs := s.programs ++ [p], offers := s.offers ++ [offer] })

def offerSuspend (program : Option Uuid) (suspended : Option Bool) : Except RewardError Ledger := do
  let _ ← authorize operator (some .issuer)
  let program ← found program .requestInvalid
  let suspended ← found suspended .requestInvalid
  let _ ← found (s.findOffer program) .notFound
  pure { s with offers := s.offers.map fun o =>
    if o.programId = program then { o with suspended := suspended } else o }

/-! ## Reservations by operators -/

def reserve (program reservation : Option Uuid) (participant work consent : Option Hash) :
    Except RewardError (ReservationView × Ledger) := do
  let actor ← authorize operator (some .issuer)
  let program ← found program .requestInvalid
  let reservation ← found reservation .requestInvalid
  let participant ← found participant .requestInvalid
  let work ← found work .requestInvalid
  let consent ← found consent .requestInvalid
  match s.findReservation reservation with
  | some prior =>
    refuse (prior.programId ≠ program || prior.participantHash ≠ participant ||
      prior.workHash ≠ work || prior.consentHash ≠ consent || prior.creatorHash ≠ actor)
      .payloadConflict
    pure (prior.view (prior.shownState c.now), s)
  | none =>
    refuse (s.workTaken work) .workDuplicate
    let p ← found (s.findProgram program) .notFound
    refuse (p.terms.closesAt ≤ c.now) .programClosed
    refuse (p.terms.capacityUnits < s.capacityUsed c.used program none + p.terms.awardUnits)
      .capacityExhausted
    refuse (p.terms.participantCapUnits <
      s.capacityUsed c.aliasesUsed program (some participant) + p.terms.awardUnits) .participantCap
    let r : Reservation := ⟨reservation, program, participant, work, consent, actor,
      p.terms.awardUnits, .reserved,
      min (c.now + seconds p.terms.reservationTtlSeconds) p.terms.closesAt, none, none, c.now⟩
    let s ← s.insertReservation false r
    pure (r.view (.stored .reserved), s)

def claimSubmit (reservation : Option Uuid) (evidence evaluation : Option Hash) :
    Except RewardError (ClaimView × Ledger) := do
  let actor ← authorize operator (some .issuer)
  let reservation ← found reservation .requestInvalid
  let evidence ← found evidence .requestInvalid
  let evaluation ← found evaluation .requestInvalid
  let r ← found (s.findReservation reservation) .notFound
  match r.claim with
  | some claim =>
    refuse (claim.evidenceHash ≠ evidence || claim.evaluationHash ≠ evaluation ||
      claim.submitterHash ≠ actor) .payloadConflict
    pure (r.claimView, s)
  | none =>
    refuse (r.state ≠ .reserved) .stateConflict
    refuse (r.expiresAt ≤ c.now) .reservationExpired
    refuse (s.isInvalidated evidence) .evidenceInvalidated
    refuse (s.reservations.any fun x => x.claim.any (·.evidenceHash = evidence)) .evidenceDuplicate
    let submit (r : Reservation) : Reservation :=
      { r with state := .submitted, claim := some ⟨evidence, evaluation, actor, c.now⟩ }
    pure ((submit r).claimView, s.updateReservation reservation submit)

/-- `UNIQUE (tenant_id, reservation_id)` of `trace_reward_awards`. -/
def insertAward (a : Award) : Except RewardError Ledger := do
  refuse (s.findAward a.reservationId).isSome .uniqueViolation
  pure { s with awards := s.awards ++ [a] }

def review (reservation decision : Option Uuid) (accept : Option Bool) (reason : Option Reason) :
    Except RewardError (ReviewView × Ledger) := do
  let actor ← authorize operator (some .reviewer)
  let reservation ← found reservation .requestInvalid
  let decision ← found decision .requestInvalid
  let accept ← found accept .requestInvalid
  let reason ← found (reason.filter fun x => x.accepting = accept) .requestInvalid
  match s.findDecision decision with
  | some prior =>
    refuse (prior.kind ≠ .review reservation accept reason || prior.actorHash ≠ actor)
      .payloadConflict
    pure (⟨decision, reservation, accept, reason, (s.findReservation reservation).map (·.state),
      if accept then (s.awards.find? fun a => a.awardId = decision).map (·.awardUnits)
      else some 0⟩, s)
  | none =>
    let r ← found (s.findReservation reservation) .notFound
    let p ← found (s.findProgram r.programId) .notFound
    refuse (actor = p.creatorHash || actor = p.terms.sponsorHash || actor = r.participantHash ||
      actor = r.creatorHash || r.claim.any (·.submitterHash = actor)) .selfReview
    refuse (r.state ≠ .submitted) .stateConflict
    refuse (r.claim.any fun claim => s.isInvalidated claim.evidenceHash) .evidenceInvalidated
    let d : Decision := ⟨decision, .review reservation accept reason, actor⟩
    let s := { s with decisions := s.decisions ++ [d] }
    if accept then
      let s ← s.insertAward ⟨decision, reservation, p.programId, r.participantHash, actor,
        r.awardUnits, p.termsHash⟩
      pure (⟨decision, reservation, accept, reason, some .awarded, some r.awardUnits⟩,
        s.updateReservation reservation fun r =>
          { r with state := .awarded, terminalAt := some c.stamp })
    else
      pure (⟨decision, reservation, accept, reason, some .rejected, some 0⟩,
        s.updateReservation reservation fun r =>
          { r with state := .rejected, terminalAt := some c.stamp })

def cancel (reservation decision : Option Uuid) : Except RewardError Ledger := do
  let actor ← authorize operator (some .issuer)
  let reservation ← found reservation .requestInvalid
  let decision ← found decision .requestInvalid
  match s.findDecision decision with
  | some prior =>
    refuse (prior.kind ≠ .cancel reservation || prior.actorHash ≠ actor) .payloadConflict
    pure s
  | none =>
    let r ← found (s.findReservation reservation) .notFound
    refuse (r.state ≠ .reserved) .stateConflict
    let d : Decision := ⟨decision, .cancel reservation, actor⟩
    let s := { s with decisions := s.decisions ++ [d] }
    pure (s.updateReservation reservation fun r =>
      { r with state := .cancelled, terminalAt := some c.stamp })

/-- The reservation whose claim is on the evidence, once it is invalidated. -/
def affected (evidence : Hash) : Option Uuid :=
  (s.reservations.find? fun r =>
    r.claim.any (·.evidenceHash = evidence) && r.state = .invalidated).map (·.reservationId)

def invalidate (evidence : Option Hash) (decision : Option Uuid) :
    Except RewardError (Option Uuid × Ledger) := do
  let actor ← authorize operator none
  let decision ← found decision .requestInvalid
  let evidence ← found evidence .requestInvalid
  match s.findDecision decision with
  | some prior =>
    refuse (prior.kind ≠ .invalidation evidence || prior.actorHash ≠ actor) .payloadConflict
    pure (s.affected evidence, s)
  | none =>
    refuse (s.isInvalidated evidence) .stateConflict
    let s' := { s with
      decisions := s.decisions ++ [⟨decision, .invalidation evidence, actor⟩]
      invalidations := s.invalidations ++ [⟨decision, evidence, actor⟩]
      reservations := s.reservations.map fun r =>
        if r.claim.any (·.evidenceHash = evidence) && r.state = .submitted then
          { r with state := .invalidated, terminalAt := some c.stamp }
        else r }
    pure ((s.reservations.find? fun r =>
      r.claim.any (·.evidenceHash = evidence) && r.state = .submitted).map (·.reservationId), s')

/-! ## Participants -/

/-- `trace_reward_participant_identity` where the account has no binding: a new principal of its
own, with its participant hash. -/
def createIdentity (account newPrincipal : Uuid) : Except RewardError (Binding × Ledger) := do
  let b : Binding := ⟨account, newPrincipal, D.principal newPrincipal⟩
  refuse (s.principals.contains newPrincipal) .uniqueViolation
  refuse (s.bindings.any fun x => x.accountId = account ||
    x.participantHash = b.participantHash) .uniqueViolation
  pure (b, { s with principals := s.principals ++ [newPrincipal], bindings := s.bindings ++ [b] })

def participantIdentity (account newPrincipal : Uuid) : Except RewardError (Binding × Ledger) :=
  match s.findBinding account with
  | some b => pure (b, s)
  | none => s.createIdentity D account newPrincipal

def participantView (now : Time) (reservation : Uuid) : Option ParticipantView := do
  let r ← s.findReservation reservation
  let x ← s.participantReservations.find? fun x => x.reservationId = reservation
  let award := s.findAward reservation
  let invalidated := r.claim.any fun claim => s.isInvalidated claim.evidenceHash
  pure ⟨r.reservationId, r.programId, x.offerVersionHash,
    if invalidated && award.isSome then .awardedInvalidated else r.shownState now, invalidated,
    r.awardUnits, (award.map (·.awardUnits)).getD 0, r.expiresAt, r.createdAt,
    r.claim.map (·.submittedAt), r.terminalAt⟩

/-- A participant's session: what the login check says, whether the account is open, and the
principal a new identity would get. -/
structure Participant where
  login : Except RewardError Unit
  accountOpen : Bool
  account : Option Uuid
  newPrincipal : Uuid

/-- `trace_reward_participant_authorize`, after the login check. -/
def participantAuthorize (u : Participant) : Except RewardError Uuid := do
  u.login
  let account ← found u.account .unauthorized
  refuse (!u.accountOpen) .unauthorized
  pure account

/-- A replay: the reservation is shown to the principal that made it. -/
def participantReplay (c : Reading) (account program : Uuid) (offerVersion : Option Hash)
    (prior : Reservation) : Except RewardError (Option ParticipantView × Ledger) := do
  let identity ← found (s.findBinding account) .notFound
  refuse (!(s.aliases identity.rewardPrincipalId).contains prior.participantHash) .notFound
  let x ← found (s.participantReservations.find? fun x =>
    x.reservationId = prior.reservationId && x.participantHash = prior.participantHash) .notFound
  refuse (prior.programId ≠ program || some x.offerVersionHash ≠ offerVersion) .payloadConflict
  pure (s.participantView c.stamp prior.reservationId, s)

def participantReserve (c : Reading) (u : Participant) (program reservation : Option Uuid)
    (offerVersion : Option Hash) : Except RewardError (Option ParticipantView × Ledger) := do
  let account ← participantAuthorize u
  let program ← found program .requestInvalid
  let reservation ← found reservation .requestInvalid
  match s.findReservation reservation with
  | some prior => s.participantReplay c account program offerVersion prior
  | none =>
    let version ← found offerVersion .requestInvalid
    let (identity, s) ← s.participantIdentity D account u.newPrincipal
    let aliases := s.aliases identity.rewardPrincipalId
    let p ← found ((s.findProgram program).filter fun p => p.identityMode = .accountBound) .notFound
    let offer ← found (s.findOffer program) .stateConflict
    refuse (offer.offerVersionHash ≠ version) .offerChanged
    refuse offer.suspended .offerSuspended
    refuse (p.terms.closesAt ≤ c.now) .programClosed
    refuse (0 < s.namespaceCount aliases offer.workNamespaceHash) .workDuplicate
    refuse (p.terms.capacityUnits < s.capacityUsed c.used program none + p.terms.awardUnits)
      .capacityExhausted
    refuse (p.terms.participantCapUnits <
      s.capacityUsedForAliases c.aliasesUsed program (some aliases) + p.terms.awardUnits)
      .participantCap
    let hash := identity.participantHash
    let s ← s.insertReservation true ⟨reservation, program, hash,
      D.work hash offer.workNamespaceHash, D.acknowledgement hash version reservation, hash,
      p.terms.awardUnits, .reserved,
      min (c.now + seconds p.terms.reservationTtlSeconds) p.terms.closesAt, none, none, c.now⟩
    let x : ParticipantReservation := ⟨reservation, hash, version, offer.workNamespaceHash⟩
    let s := { s with participantReservations := s.participantReservations ++ [x] }
    pure (s.participantView c.stamp reservation, s)

/-! ## Merging two accounts -/

/-- `consumed`: the proposal for these two open accounts is consumed in this transaction. -/
structure Merge where
  surviving : Option Uuid
  absorbed : Option Uuid
  proposal : Option Uuid
  login : Except RewardError Unit
  survivingOpen : Bool
  absorbedOpen : Bool
  consumed : Bool

/-- The principals' bindings join in the surviving one's. -/
def joinBindings (surviving absorbed : Uuid) : Option Binding → Option Binding → List Binding
  | none, some _ => s.bindings.map fun b =>
      if b.accountId = absorbed then { b with accountId := surviving } else b
  | some x, some y => s.bindings.map fun b =>
      if b.rewardPrincipalId = y.rewardPrincipalId then
        { b with rewardPrincipalId := x.rewardPrincipalId }
      else b
  | _, none => s.bindings

def accountsMerge (c : Reading) (m : Merge) : Except RewardError Ledger := do
  let surviving ← found m.surviving .unauthorized
  let absorbed ← found m.absorbed .unauthorized
  refuse (surviving = absorbed || m.proposal.isNone) .unauthorized
  let x := s.findBinding surviving
  let y := s.findBinding absorbed
  if x.isNone && y.isNone then pure s
  else
    m.login
    refuse (!m.survivingOpen || !m.absorbedOpen || !m.consumed) .unauthorized
    let aliases := (s.bindings.filter fun b =>
      x.any (·.rewardPrincipalId = b.rewardPrincipalId) ||
        y.any (·.rewardPrincipalId = b.rewardPrincipalId)).map (·.participantHash)
    refuse (s.programs.any fun p =>
      (s.reservations.any fun r => r.programId = p.programId &&
        aliases.contains r.participantHash) &&
      p.terms.participantCapUnits < s.capacityUsedForAliases c.used p.programId (some aliases))
      .mergeParticipantCap
    refuse (s.participantReservations.any fun r => aliases.contains r.participantHash &&
      1 < s.namespaceCount aliases r.workNamespaceHash) .mergeWorkDuplicate
    pure { s with bindings := s.joinBindings surviving absorbed x y }

/-! ## Histories -/

end Ledger

inductive Call
  | programCreate (operator : Option Operator) (program : Option Uuid) (terms : Option Terms)
  | offerPublish (operator : Option Operator) (program : Option Uuid) (terms : Option Terms)
      (manifest : Option Manifest) (publishedElsewhere : Bool)
  | offerSuspend (operator : Option Operator) (program : Option Uuid) (suspended : Option Bool)
  | reserve (operator : Option Operator) (program reservation : Option Uuid)
      (participant work consent : Option Hash)
  | claimSubmit (operator : Option Operator) (reservation : Option Uuid)
      (evidence evaluation : Option Hash)
  | review (operator : Option Operator) (reservation decision : Option Uuid)
      (accept : Option Bool) (reason : Option Reason)
  | cancel (operator : Option Operator) (reservation decision : Option Uuid)
  | invalidate (operator : Option Operator) (evidence : Option Hash) (decision : Option Uuid)
  | participantReserve (u : Ledger.Participant) (program reservation : Option Uuid)
      (offerVersion : Option Hash)
  | accountsMerge (m : Ledger.Merge)

namespace Ledger

variable (D : Digests)

def apply (s : Ledger) (c : Reading) : Call → Except RewardError Ledger
  | .programCreate o p t => (s.programCreate D c o p t).map Prod.snd
  | .offerPublish o p t m e => (s.offerPublish D c o p t m e).map Prod.snd
  | .offerSuspend o p x => s.offerSuspend o p x
  | .reserve o p r h w k => (s.reserve c o p r h w k).map Prod.snd
  | .claimSubmit o r e v => (s.claimSubmit c o r e v).map Prod.snd
  | .review o r d a x => (s.review c o r d a x).map Prod.snd
  | .cancel o r d => s.cancel c o r d
  | .invalidate o e d => (s.invalidate c o e d).map Prod.snd
  | .participantReserve u p r v => (s.participantReserve D c u p r v).map Prod.snd
  | .accountsMerge m => s.accountsMerge c m

/-- The clock does not go back; a call that raises changes nothing else. -/
def step (s : Ledger) (e : Reading × Call) : Option Ledger :=
  if s.clock ≤ e.1.now then
    match s.apply D e.1 e.2 with
    | .ok s' => some { s' with clock := e.1.done }
    | .error _ => some { s with clock := e.1.done }
  else none

def run (s : Ledger) (es : List (Reading × Call)) : Option Ledger := es.foldlM (step D) s

def start (clock : Time) : Ledger := ⟨[], [], [], [], [], [], [], [], [], clock⟩

end Ledger

end TraceCommons.Reward
