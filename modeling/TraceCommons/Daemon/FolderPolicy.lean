import TraceCommons.Daemon.Pass
import TraceCommons.Lib.OrdMap

/-! # The contributor's folder rules

The policy file: a mode for each folder, the Flow 1 grant, the contribution override over all
folders, and the records of what was on disk when something was armed from now. The operations are
those that change who may send without asking. -/

namespace TraceCommons.Daemon

/-! ## Modes -/

def unknownProjectKey : String := "unknown-project"

/-- The key the override's arming record goes by. It is no path, so no project has it. -/
def overrideArmingKey : String := "contribution-override"

namespace ProjectMode

def moreRestrictive : ProjectMode → ProjectMode → ProjectMode
  | ignore, _ | _, ignore => ignore
  | notifyOnly, _ | _, notifyOnly => notifyOnly
  | autoUpload, autoUpload => autoUpload

/-- The first asks no more than the second. -/
def AsLaxAs (a b : ProjectMode) : Prop := a.moreRestrictive b = b

instance (a b : ProjectMode) : Decidable (a.AsLaxAs b) := inferInstanceAs (Decidable (_ = _))

end ProjectMode

/-! ## Terms -/

structure GrantTerms where
  ingestUrl : String
  issuerUrl : String
  audience : String
  allowedHosts : Option String
  tenantId : String
  instanceId : String
  userSubject : String
  deviceKeyId : String
  consentScopes : Finset String
  piiFilter : Option String
  envFilterBackend : String
  classifierBaseUrl : Option String
  classifierModel : Option String
  classifierPresent : Bool
  receiptEndpoint : Option String
  witnessUrl : Option String
  witnessSigningAddress : Option String
  witnessMeasurements : Finset String
  attestedBodies : Bool
  deriving DecidableEq

namespace GrantTerms

def voidDestination : String := "destination-changed"
def voidIdentity : String := "identity-changed"
def voidScopesWidened : String := "scopes-widened"
def voidFilter : String := "privacy-filter-changed"
def voidReceiptEndpoint : String := "receipt-endpoint-changed"
def voidWitness : String := "witness-changed"
def voidMeasurementAdmitted : String := "witness-measurement-admitted"
def voidAttestedBodies : String := "attested-bodies-on"

def reason (applies : Bool) (label : String) : List String := if applies then [label] else []

def wideningFrom (t granted : GrantTerms) : List String :=
  reason (t.ingestUrl ≠ granted.ingestUrl || t.issuerUrl ≠ granted.issuerUrl ||
    t.audience ≠ granted.audience || t.allowedHosts ≠ granted.allowedHosts) voidDestination ++
  reason (t.tenantId ≠ granted.tenantId || t.instanceId ≠ granted.instanceId ||
    t.userSubject ≠ granted.userSubject || t.deviceKeyId ≠ granted.deviceKeyId) voidIdentity ++
  reason (!decide (t.consentScopes ⊆ granted.consentScopes)) voidScopesWidened ++
  reason (t.piiFilter ≠ granted.piiFilter || t.envFilterBackend ≠ granted.envFilterBackend ||
    t.classifierPresent ≠ granted.classifierPresent ||
    t.classifierBaseUrl ≠ granted.classifierBaseUrl ||
    t.classifierModel ≠ granted.classifierModel) voidFilter ++
  reason (t.receiptEndpoint.isSome && t.receiptEndpoint ≠ granted.receiptEndpoint)
    voidReceiptEndpoint ++
  (if t.witnessUrl ≠ granted.witnessUrl ||
      t.witnessSigningAddress ≠ granted.witnessSigningAddress then [voidWitness]
    else reason (!decide (t.witnessMeasurements ⊆ granted.witnessMeasurements))
      voidMeasurementAdmitted) ++
  reason (t.attestedBodies && !granted.attestedBodies) voidAttestedBodies

theorem wideningFrom_self (t : GrantTerms) : t.wideningFrom t = [] := by
  simp [wideningFrom, reason]

end GrantTerms

/-! ## The policy file -/

inductive ArmingClaim
  | modelScrubbed | patternsOnly
  deriving DecidableEq

structure AutomaticRedactionTally where
  certifiedFullPipeline : Nat := 0
  notCertified : Nat := 0
  deriving DecidableEq

structure ProjectEntry where
  mode : ProjectMode
  addedAt : DateTime
  label : String
  displayPath : Option String
  armedUnder : Option GrantTerms := none
  automaticRedaction : AutomaticRedactionTally := {}
  setUnderGrant : Option Nat := none
  deriving DecidableEq

structure GrantVoidNotice where
  id : Nat
  voidedAt : DateTime
  projectKey : Option String
  reasons : List String
  contributionOverride : Bool
  deriving DecidableEq

structure ArmingRewordNotice where
  id : Nat
  projectKey : String
  deriving DecidableEq

structure ArmedFromNow where
  armedAt : DateTime
  recordedSources : OrdMap String Nat := {}

structure ContributionOverride where
  mode : ProjectMode
  since : DateTime
  arming : Option ArmedFromNow := none
  grantedUnder : Option GrantTerms := none
  claim : Option ArmingClaim := none

structure AutomaticGrant where
  grantedAt : DateTime
  grantedUnder : GrantTerms
  includeExisting : Bool := false
  recordedSources : Finset String := ∅
  projectsOnDisk : Finset String := ∅
  generation : Nat

structure ProjectPolicy where
  schemaVersion : String := "trace_commons.daemon_projects.v3"
  projects : OrdMap String ProjectEntry := {}
  contributed : OrdMap String Nat := {}
  armingDeclinedAt : OrdMap String DateTime := {}
  automaticGrant : Option AutomaticGrant := none
  sessionsOnDiskAtGrant : Finset String := ∅
  armedByGrant : Finset String := ∅
  grantVoids : List GrantVoidNotice := []
  nextGrantVoidId : Nat := 0
  armingClaims : OrdMap String ArmingClaim := {}
  armingRewordings : List ArmingRewordNotice := []
  armedFromNow : OrdMap String ArmedFromNow := {}
  /-- Each path with the number of the first record that saw it. -/
  sessionsOnDiskAtArming : OrdMap String Nat := {}
  nextArmingRecord : Nat := 0
  contributionOverride : Option ContributionOverride := none
  grantGeneration : Nat := 0

/-- What the machine says about a key: how the disk spells it, and its display name. -/
structure Host where
  displayPathForKey : String → Option String
  projectLabelFor : String → String

/-- `saturating_add(1)` on a `u64`. -/
def saturatingSucc64 (n : Nat) : Nat := min (n + 1) (2 ^ 64 - 1)

namespace ProjectPolicy

/-! ## Reading -/

variable (p : ProjectPolicy) (key path source : String)

def folderMode : ProjectMode :=
  let stored := ((p.projects.get? key).map (·.mode)).getD .notifyOnly
  if key = unknownProjectKey ∧ stored = .autoUpload then .notifyOnly else stored

def resolveOver (own : ProjectMode) (key : String) : ProjectMode :=
  match p.contributionOverride with
  | none => own
  | some o =>
    match o.mode with
    | .autoUpload =>
      if own = .ignore then .ignore
      else if key = unknownProjectKey then .notifyOnly
      else .autoUpload
    | mode => own.moreRestrictive mode

def resolve : ProjectMode := p.resolveOver (p.folderMode key) key

/-- The record that holds the backlog of a folder: its own, or that of an `AutoUpload` override
when the folder is not armed itself. -/
def armingFor : Option ArmedFromNow :=
  match p.armedFromNow.get? key with
  | some own => some own
  | none =>
    match p.contributionOverride with
    | none => none
    | some o =>
      if o.mode ≠ .autoUpload ∨ p.folderMode key = .autoUpload then none else o.arming

def overrideArming : Option ArmedFromNow :=
  p.contributionOverride.bind (·.arming)

def armingRecord : Option ArmedFromNow :=
  if key = overrideArmingKey then p.overrideArming
  else p.armedFromNow.get? key

def includesExistingAutomatically : Bool :=
  p.automaticGrant.any (·.includeExisting)

def grantGenerationInForce : Option Nat :=
  p.automaticGrant.map (·.generation)

def asksDespiteGrant : Bool :=
  (p.automaticGrant.filter (·.includeExisting)).any fun grant =>
    (p.projects.get? key).any fun entry =>
      entry.mode = .notifyOnly ∧ entry.setUnderGrant = some grant.generation

def holdsBackUnattended : Bool :=
  key ∈ p.armedByGrant && path ∈ p.sessionsOnDiskAtGrant && !p.includesExistingAutomatically

def onDiskAt (recorded : Nat) : Bool := (p.sessionsOnDiskAtArming.get? path).any (· ≤ recorded)

def holdsBackFromArming : Bool :=
  match p.armingFor key with
  | none => false
  | some arming =>
    match arming.recordedSources.get? source with
    | none => true
    | some recorded => p.onDiskAt path recorded

def holdsBackFromArmingAtSend : Bool :=
  match p.armingFor key with
  | none => false
  | some arming =>
    arming.recordedSources.entries.isEmpty ||
      arming.recordedSources.entries.any fun e => p.onDiskAt path e.2

def waitsForAPerson : Bool :=
  p.holdsBackUnattended key path || p.holdsBackFromArming key path source

def waitsForAPersonAtSend : Bool :=
  p.holdsBackUnattended key path || p.holdsBackFromArmingAtSend key path

/-! ## The record of the disk -/

/-- Every record number that an arming in force took. -/
def recordNumbers : List Nat :=
  (p.armedFromNow.entries.map (·.2) ++ p.overrideArming.toList).flatMap fun a =>
    a.recordedSources.entries.map (·.2)

def pruneArmingRecord : ProjectPolicy :=
  match p.recordNumbers.max? with
  | some latest =>
    { p with sessionsOnDiskAtArming := p.sessionsOnDiskAtArming.filter fun _ first => first ≤ latest }
  | none =>
    if p.armedFromNow.entries.isEmpty ∧ p.overrideArming.isNone then
      { p with sessionsOnDiskAtArming := {} }
    else p

def updateArming (f : ArmedFromNow → ArmedFromNow) : ProjectPolicy :=
  if key = overrideArmingKey then
    { p with
      contributionOverride :=
        p.contributionOverride.map fun o => { o with arming := o.arming.map f } }
  else
    { p with armedFromNow := p.armedFromNow.mapValues fun k a => if k = key then f a else a }

def needsArmingRecord (armings : List (String × DateTime)) (source : String) : Bool :=
  armings.any fun (key, at_) =>
    (p.armingRecord key).any fun a => a.armedAt = at_ ∧ (a.recordedSources.get? source).isNone

/-- `entry(source).or_insert(seq)`, if the arming is the one that was read. -/
def recordArming (seq : Nat) (at_ : DateTime) (a : ArmedFromNow) : ArmedFromNow :=
  if a.armedAt = at_ then
    { a with recordedSources := a.recordedSources.upsert source (·.getD seq) }
  else a

/-- A path keeps the first record that saw it. -/
def recordSessions (seq : Nat) (sessions : List String) : ProjectPolicy :=
  { p with
    nextArmingRecord := saturatingSucc64 seq
    sessionsOnDiskAtArming :=
      sessions.foldl (fun m path => m.upsert path (·.getD seq)) p.sessionsOnDiskAtArming }

def recordSourceForArmings (armings : List (String × DateTime))
    (source : String) (sessions : List String) : ProjectPolicy :=
  if p.needsArmingRecord armings source then
    armings.foldl
      (fun q arming => q.updateArming arming.1 (recordArming source p.nextArmingRecord arming.2))
      (p.recordSessions p.nextArmingRecord sessions)
  else p

def holdForArming : ProjectPolicy :=
  match (p.armingFor key).bind (·.recordedSources.get? source) with
  | none => p
  | some seq =>
    { p with
      sessionsOnDiskAtArming :=
        p.sessionsOnDiskAtArming.upsert path fun first => (first.map (min · seq)).getD seq }

def armFromNow (now : DateTime) : ProjectPolicy :=
  { p with armedFromNow := p.armedFromNow.insert key { armedAt := now } }

/-! ## Modes and overrides -/

def checkMode (key : String) (mode : ProjectMode) : Except String Unit :=
  if key = unknownProjectKey ∧ mode = .autoUpload then
    .error ("unknown-project sessions cannot be set to auto_upload: " ++
      "their working directory could not be resolved, so no " ++
      "per-project opt-in can apply to them")
  else .ok ()

/-- A fresh entry. Under a grant it is never dated before it. -/
def newEntry (host : Host) (p : ProjectPolicy) (key : String) (mode : ProjectMode)
    (now : DateTime) : ProjectEntry where
  mode := mode
  addedAt := p.automaticGrant.elim now fun grant => max now (grant.grantedAt + 1000)
  label := host.projectLabelFor ((host.displayPathForKey key).getD key)
  displayPath := host.displayPathForKey key
  setUnderGrant := p.grantGenerationInForce

def setMode (host : Host) (p : ProjectPolicy) (key : String) (mode : ProjectMode)
    (now : DateTime) : Except String ProjectPolicy := do
  checkMode key mode
  return { p with
    armedByGrant := p.armedByGrant.erase key
    armedFromNow := p.armedFromNow.erase key
    grantVoids := p.grantVoids.filter fun n => n.projectKey ≠ some key
    armingClaims := p.armingClaims.erase key
    armingRewordings := p.armingRewordings.filter fun n => n.projectKey ≠ key
    projects := p.projects.insert key (newEntry host p key mode now) }

/-- Without an override, and without a notice about what its arming means. -/
def dropOverride : ProjectPolicy :=
  { p with
    contributionOverride := none
    armingRewordings := p.armingRewordings.filter fun n => n.projectKey ≠ overrideArmingKey }

def setContributionOverride (mode : ProjectMode) (now : DateTime)
    (grant : Option (GrantTerms × ArmingClaim)) : Except String ProjectPolicy :=
  if mode = .autoUpload ∧ grant.isNone then .error "arming-terms-unavailable"
  else if p.contributionOverride.any (·.mode = mode) then .ok p
  else
    let grant := if mode = .autoUpload then grant else none
    .ok (pruneArmingRecord { p with
      contributionOverride := some {
        mode := mode
        since := now
        arming := if mode = .autoUpload then some { armedAt := now } else none
        grantedUnder := grant.map (·.1)
        claim := grant.map (·.2) }
      grantVoids := p.grantVoids.filter fun n => !n.contributionOverride
      armingRewordings := p.armingRewordings.filter fun n => n.projectKey ≠ overrideArmingKey })

def clearContributionOverride : ProjectPolicy :=
  if p.contributionOverride.isSome then p.dropOverride.pruneArmingRecord else p

/-! ## Grants and their terms -/

def grantAutomatic (now : DateTime) (terms : GrantTerms) : ProjectPolicy :=
  let generation := saturatingSucc64 p.grantGeneration
  { p with
    grantVoids := p.grantVoids.filter fun n => n.projectKey.isSome || n.contributionOverride
    grantGeneration := generation
    automaticGrant := some { grantedAt := now, grantedUnder := terms, generation } }

def withdrawAutomaticGrant : ProjectPolicy := { p with automaticGrant := none }

/-- `push_void`: one notice for one grant, the newest. -/
def pushVoid (key : Option String) (override : Bool) (reasons : List String)
    (now : DateTime) : ProjectPolicy :=
  { p with
    nextGrantVoidId := saturatingSucc64 p.nextGrantVoidId
    grantVoids :=
      (p.grantVoids.filter fun n => n.projectKey ≠ key || n.contributionOverride ≠ override) ++
        [{ id := p.nextGrantVoidId, voidedAt := now, projectKey := key, reasons,
           contributionOverride := override }] }

variable (current : GrantTerms)

/-- Why a sweep takes the arming from a folder, if it does. -/
def voidReasons (entry : ProjectEntry) : List String :=
  if entry.mode = .autoUpload then entry.armedUnder.elim [] current.wideningFrom else []

/-- What a sweep makes of a folder: terms that are not there yet are recorded as they are now. -/
def sweepEntry (entry : ProjectEntry) : ProjectEntry :=
  if entry.mode ≠ .autoUpload then entry
  else
    match entry.armedUnder with
    | none => { entry with armedUnder := some current }
    | some granted =>
      if current.wideningFrom granted = [] then entry
      else { entry with mode := .notifyOnly, armedUnder := none, automaticRedaction := {} }

/-- Why a sweep takes the grant, if there is one. -/
def grantVoidReasons : List String :=
  p.automaticGrant.elim [] fun grant => current.wideningFrom grant.grantedUnder

def overrideTermsUnrecorded : String := "terms-unrecorded"

/-- Why a sweep takes the override, if it is an `AutoUpload` one. -/
def overrideVoidReasons : List String :=
  p.contributionOverride.elim [] fun o =>
    if o.mode = .autoUpload then
      o.grantedUnder.elim [overrideTermsUnrecorded] current.wideningFrom
    else []

/-- The folders a sweep takes the arming from, in the order of their keys. -/
def voidedKeys : List (String × List String) :=
  (p.projects.entries.map fun e => (e.1, voidReasons current e.2)).filter fun e => e.2 ≠ []

structure GrantSweep where
  /-- The display name and the reasons. -/
  voided : List (String × List String)
  automaticGrantVoided : Option (List String)
  baselined : Nat
  contributionOverrideVoided : Option (List String)

/-- The notice of one folder, and what was claimed when it was armed dropped. -/
def voidProject (now : DateTime) (p : ProjectPolicy) (e : String × List String) : ProjectPolicy :=
  pushVoid { p with
    armingClaims := p.armingClaims.erase e.1
    armingRewordings := p.armingRewordings.filter fun n => n.projectKey ≠ e.1 }
    (some e.1) false e.2 now

/-- The folders and the grant after a sweep. -/
def swept : ProjectPolicy :=
  { p with
    projects := p.projects.mapValues fun _ => sweepEntry current
    automaticGrant := if p.grantVoidReasons current = [] then p.automaticGrant else none }

def voidGrants : ProjectPolicy :=
  if p.overrideVoidReasons current = [] then p.swept current
  else (p.swept current).dropOverride.pruneArmingRecord

def pushVoidIf (override : Bool) (reasons : List String) (now : DateTime) : ProjectPolicy :=
  if reasons = [] then p else p.pushVoid none override reasons now

def sweepGrants (now : DateTime) : ProjectPolicy × GrantSweep :=
  let grantReasons := p.grantVoidReasons current
  let overrideReasons := p.overrideVoidReasons current
  (((p.voidedKeys current).foldl (voidProject now) (p.voidGrants current)).pushVoidIf false
      grantReasons now |>.pushVoidIf true overrideReasons now,
    { voided := (p.projects.entries.map fun e => (e.2.label, voidReasons current e.2)).filter
        fun e => e.2 ≠ []
      automaticGrantVoided := if grantReasons = [] then none else some grantReasons
      baselined := (p.projects.entries.filter fun e =>
        e.2.mode = .autoUpload && e.2.armedUnder.isNone).length
      contributionOverrideVoided := if overrideReasons = [] then none else some overrideReasons })

end ProjectPolicy

end TraceCommons.Daemon
