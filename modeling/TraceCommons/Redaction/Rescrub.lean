import TraceCommons.Redaction.Envelope

/-! # The two re-scrub passes

`rescrub_trace_envelope_with` runs the deterministic redactor over everything a contributor may have
written into an envelope; `rescrub_envelope_prose_pii_with` submits the events to a classifier
behind an adapter. Both scan the rewritten envelope, and record a risk.

The adapter is an oracle: `adapter n text` is its answer to the `n`th call. What was submitted and
what came back is kept in a list, in the order of the calls. -/

namespace TraceCommons.Redaction

inductive ToolPayloadContext where
  | tool (name : Option String)
  | nonTool

/-- The deterministic redactor. What it reports of a text is a function of the text; the text it
leaves may depend on the placeholders `σ` handed out so far. -/
structure Redactor (σ : Type) where
  state : σ
  findings : String → RedactionReport
  rewrite : String → σ → String × σ
  redactJsonValue : ToolPayloadContext → Json → σ → (Json × RedactionReport) × σ
  detectCorrectionCredentials : String → RedactionReport

/-! ## The deterministic pass -/

section Trace

variable {σ : Type} (redactor : Redactor σ)

abbrev Scrub (σ : Type) : Type → Type := StateM (RedactionReport × σ)

def redactStringInPlace (value : String) : Scrub σ String := fun (report, state) =>
  let (redacted, state) := redactor.rewrite value state
  (redacted, (report.merge (redactor.findings value), state))

def redactStringsInPlace (values : List String) : Scrub σ (List String) :=
  values.mapM (redactStringInPlace redactor)

def redactOptionInPlace (value : Option String) : Scrub σ (Option String) :=
  value.mapM (redactStringInPlace redactor)

def redactJsonInPlace (context : ToolPayloadContext) (value : Json) : Scrub σ Json :=
  fun (report, state) =>
    let ((redacted, child), state) := redactor.redactJsonValue context value state
    (redacted, (report.merge child, state))

def redactFailureMode : TraceFailureMode → Scrub σ TraceFailureMode
  | .named mode => return .named mode
  | .other detail => return .other (← redactStringInPlace redactor detail)

/-- The first of the key and `key~dup1`, `key~dup2`, … that is vacant. -/
def vacantKey (map : OrdMap String String) (key : String) : String :=
  let candidates := key :: (List.range map.entries.length).map fun n =>
    key ++ "~dup" ++ toString (n + 1)
  (candidates.find? fun k => (map.get? k).isNone).getD key

def insertWithoutCollision (map : OrdMap String String) (key value : String) :
    OrdMap String String :=
  map.insert (vacantKey map key) value

/-- Keys and values are both rewritten; keys that become alike are kept apart. -/
def redactMap (map : OrdMap String String) : Scrub σ (OrdMap String String) :=
  map.entries.foldlM (fun redacted (key, value) => do
    let key ← redactStringInPlace redactor key
    let value ← redactStringInPlace redactor value
    return insertWithoutCollision redacted key value) {}

def redactEvent (event : TraceContributionEvent) : Scrub σ TraceContributionEvent := do
  let content ← redactOptionInPlace redactor event.redactedContent
  let payload ←
    if event.structuredPayload.isNull then pure event.structuredPayload
    else redactJsonInPlace redactor (.tool event.toolName) event.structuredPayload
  return { event with redactedContent := content, structuredPayload := payload }

def redactToolName (event : TraceContributionEvent) : Scrub σ TraceContributionEvent :=
  return { event with toolName := ← redactOptionInPlace redactor event.toolName }

def redactOutcome (outcome : OutcomeMetadata) : Scrub σ OutcomeMetadata := do
  let errorTaxonomy ← redactStringsInPlace redactor outcome.errorTaxonomy
  let failureModes ← outcome.failureModes.mapM (redactFailureMode redactor)
  return { outcome with errorTaxonomy, failureModes }

def redactReplay (replay : ReplayMetadata) : Scrub σ ReplayMetadata := do
  let requiredTools ← redactStringsInPlace redactor replay.requiredTools
  let replayNotes ← redactStringsInPlace redactor replay.replayNotes
  let toolManifestHashes ← redactMap redactor replay.toolManifestHashes
  let expectedAssertions ← replay.expectedAssertions.mapM (redactJsonInPlace redactor .nonTool)
  return { requiredTools, replayNotes, toolManifestHashes, expectedAssertions }

def redactHindsight (hindsight : HindsightRelabelingCandidate) :
    Scrub σ HindsightRelabelingCandidate := do
  let originalGoalSummary ← redactOptionInPlace redactor hindsight.originalGoalSummary
  let achievedSubgoals ← redactStringsInPlace redactor hindsight.achievedSubgoals
  let failureType ← hindsight.failureType.mapM (redactFailureMode redactor)
  return { originalGoalSummary, achievedSubgoals, failureType }

def redactEnvelopeSideChannels (e : TraceContributionEnvelope) :
    Scrub σ TraceContributionEnvelope := do
  let featureFlags ← redactMap redactor e.featureFlags
  let modelName ← redactOptionInPlace redactor e.modelName
  let conversationId ← redactOptionInPlace redactor e.conversationId
  let valueExplanation ← redactStringsInPlace redactor e.valueExplanation
  let events ← e.events.mapM (redactToolName redactor)
  let outcome ← redactOutcome redactor e.outcome
  let replay ← redactReplay redactor e.replay
  let coverageTags ← e.coverageTags.mapM (redactStringsInPlace redactor)
  let toolCategories ← redactStringsInPlace redactor e.traceCard.toolCategories
  let limitations ← redactStringsInPlace redactor e.valueCard.limitations
  let userVisibleExplanation ← redactStringsInPlace redactor e.valueCard.userVisibleExplanation
  let hindsight ← e.hindsight.mapM (redactHindsight redactor)
  let evaluatorName ← e.evaluatorName.mapM (redactOptionInPlace redactor)
  return { e with
    featureFlags, modelName, conversationId, valueExplanation, events, outcome, replay,
    coverageTags, hindsight, evaluatorName
    traceCard := { e.traceCard with toolCategories }
    valueCard := { limitations, userVisibleExplanation } }

/-- A correction is looked at, and left as it was written. -/
def detectCorrection (correction : Option String) : Scrub σ Unit :=
  match correction with
  | none => pure ()
  | some text => modify fun (report, state) =>
    (report.merge (redactor.detectCorrectionCredentials text), state)

def scrubEnvelope (e : TraceContributionEnvelope) : Scrub σ TraceContributionEnvelope := do
  let events ← e.events.mapM (redactEvent redactor)
  detectCorrection redactor e.outcome.humanCorrection
  redactEnvelopeSideChannels redactor { e with events }

end Trace

/-! ## What both passes record -/

def contains (text piece : String) : Bool := decide (piece.toList <:+: text.toList)

def stampPipeline (suffix version : String) : String :=
  if contains version suffix then version else version ++ "+" ++ suffix

def serverRescrubPipelineSuffix : String := "server-rescrub-v2"

def nearAiPiiBackstopPipelineSuffix : String := "near-ai-pii-backstop-v1"

def serverRescrubWarning : String :=
  "Server-side trace re-scrub was applied before corpus storage."

def privacyWarnings : ResidualPiiRisk → List String
  | .low => []
  | .medium => ["Message text, tool payloads, or successfully-redacted PII/secrets were present; "
      ++ "server-side re-scrub is still required and the trace stays reviewable."]
  | .high => ["Secret-like content survived scrub, an object key was unredactable, or residual "
      ++ "scanning could not complete; keep this trace quarantined until reviewed."]

def mergePrivacyWarnings (existing new : List String) : List String :=
  new.foldl RedactionReport.pushNew existing

namespace PrivacyMetadata

def addFindings (p : PrivacyMetadata) (report : RedactionReport) : PrivacyMetadata :=
  { p with
    redactionCounts := report.counts.entries.foldl
      (fun counts e => RedactionReport.addCount counts e.1 e.2) p.redactionCounts
    piiLabelsPresent := report.piiLabelsPresent.foldl RedactionReport.pushNew p.piiLabelsPresent }

end PrivacyMetadata

/-- The end of a pass: the risk, the mark of the pass and the warnings are recorded, and the payloads
are put in canonical form before they are hashed. -/
def record (enc : Encoding) (suffix : String) (notes : List String) (risk : ResidualPiiRisk)
    (e : TraceContributionEnvelope) : TraceContributionEnvelope :=
  let version := stampPipeline suffix e.privacy.redactionPipelineVersion
  let events := e.events.map fun event =>
    { event with structuredPayload := enc.canonicalize event.structuredPayload }
  { e with
    events := events
    privacy := { e.privacy with
      residualPiiRisk := risk
      redactionPipelineVersion := version
      warnings := mergePrivacyWarnings
        (mergePrivacyWarnings e.privacy.warnings (privacyWarnings risk)) notes
      redactionHash := enc.redactionHash events e.privacy.redactionCounts }
    traceCard := { e.traceCard with redactionPipelineVersion := version } }

section Trace

variable {σ : Type} (redactor : Redactor σ) (enc : Encoding)

/-- The envelope the scan of the deterministic pass reads, and what the redactor reported. -/
def scrubbed (e : TraceContributionEnvelope) : TraceContributionEnvelope × RedactionReport :=
  let (e, report, _) := scrubEnvelope redactor (reconcileConsentDeclarations e) ({}, redactor.state)
  (e, report)

def rescrubTraceEnvelopeWith (e : TraceContributionEnvelope) :
    TraceContributionEnvelope × List ResidualRiskCondition :=
  let (e, report) := scrubbed redactor e
  let residual := residualEnvelopeScanByEvent redactor.findings enc e
  let (risk, basis) := resolve e.consent e.privacy.residualPiiRisk report residual.isOk false residual
  (record enc serverRescrubPipelineSuffix [serverRescrubWarning] risk
    { e with privacy := e.privacy.addFindings report }, basis)

end Trace

/-! ## The classifier pass -/

structure SafePrivacyFilterRedaction where
  redactedText : String
  summary : SafePrivacyFilterSummary
  report : RedactionReport

inductive TraceContributionError where
  | redactionFailed (reason : String)
  | transientRedactionFailed (reason : String)
  deriving DecidableEq

abbrev PrivacyFilterAdapter : Type :=
  Nat → String → Except TraceContributionError (Option SafePrivacyFilterRedaction)

inductive PiiClassifyPolicy where
  | allEvents
  | proseOnly
  deriving DecidableEq

def PiiClassifyPolicy.asLabel : PiiClassifyPolicy → String
  | .allEvents => "all-events"
  | .proseOnly => "prose-only"

def policyExaminesEvent : PiiClassifyPolicy → TraceContributionEventType → Bool
  | .allEvents, _ => true
  | .proseOnly, .userMessage | .proseOnly, .assistantMessage | .proseOnly, .reasoning
  | .proseOnly, .feedback => true
  | .proseOnly, .toolCall | .proseOnly, .toolResult | .proseOnly, .routingDecision
  | .proseOnly, .httpExchange => false

def mergePrivacyFilterSummary (target : Option SafePrivacyFilterSummary)
    (next : SafePrivacyFilterSummary) : SafePrivacyFilterSummary :=
  let target := target.getD { schemaVersion := next.schemaVersion }
  let merged := { target with
    schemaVersion := max target.schemaVersion next.schemaVersion
    spanCount := min (target.spanCount + next.spanCount) (2 ^ 32 - 1)
    decodedMismatch := target.decodedMismatch || next.decodedMismatch
    byLabel := next.byLabel.entries.foldl
      (fun counts e => RedactionReport.addCount counts e.1 e.2) target.byLabel }
  -- the three fields of one classify pass move together
  if next.classifyPolicy.isSome then
    { merged with
      classifyPolicy := next.classifyPolicy
      eventsExamined := next.eventsExamined
      eventsSkippedByPolicy := next.eventsSkippedByPolicy }
  else merged

def structuredPayloadMaxAggregateBytes : Nat := 400000

def structuredPayloadMaxFieldBytes : Nat := 32000

def structuredPayloadMaxNodes : Nat := 4000

def structuredPayloadMaxDepth : Nat := 24

structure StructuredPayloadBudget where
  aggregateBytes : Nat := 0
  nodes : Nat := 0

/-- The budget after one more text, if it allows the text. -/
def StructuredPayloadBudget.charge (budget : StructuredPayloadBudget) (text : String) :
    Option StructuredPayloadBudget :=
  if budget.nodes + 1 > structuredPayloadMaxNodes then none
  else if text.utf8ByteSize > structuredPayloadMaxFieldBytes then none
  else if budget.aggregateBytes + text.utf8ByteSize > structuredPayloadMaxAggregateBytes then none
  else some ⟨budget.aggregateBytes + text.utf8ByteSize, budget.nodes + 1⟩

inductive Part where
  | content
  | value
  | key
  deriving DecidableEq

structure Call where
  part : Part
  text : String
  answer : Option SafePrivacyFilterRedaction

/-- The adapter's own answer carries a finding. -/
def Call.found (call : Call) : Bool := call.answer.any fun r => r.report.hasFinding

/-- What the loops of the pass hand on. -/
structure Progress (σ : Type) where
  sweepState : σ
  calls : List Call := []
  report : RedactionReport := {}
  summary : Option SafePrivacyFilterSummary := none
  examinedEvents : Nat := 0
  skippedEvents : Nat := 0
  budget : StructuredPayloadBudget := {}

section Prose

variable {σ : Type} (sweeper : Redactor σ) (adapter : PrivacyFilterAdapter)
  (policy : PiiClassifyPolicy)

def ask (part : Part) (text : String) (p : Progress σ) :
    Except TraceContributionError (Option SafePrivacyFilterRedaction × Progress σ) := do
  let answer ← adapter p.calls.length text
  return (answer, { p with calls := p.calls ++ [⟨part, text, answer⟩] })

/-- The deterministic sweep runs over what the classifier left. -/
def takeContent (p : Progress σ) : Option SafePrivacyFilterRedaction → Option String × Progress σ
  | none => (none, p)
  | some redaction =>
    let (deterministic, sweepState) := sweeper.rewrite redaction.redactedText p.sweepState
    (some deterministic, { p with
      summary := some (mergePrivacyFilterSummary p.summary redaction.summary)
      report := (p.report.merge redaction.report).merge (sweeper.findings redaction.redactedText)
      sweepState })

def classifyContent (event : TraceContributionEvent) (p : Progress σ) :
    Except TraceContributionError (Option String × Progress σ) :=
  if policyExaminesEvent policy event.eventType then
    match event.redactedContent with
    | none => .ok (none, p)
    | some content => do
      let (answer, p) ← ask adapter .content content { p with examinedEvents := p.examinedEvents + 1 }
      return takeContent sweeper p answer
  else .ok (none, { p with skippedEvents := p.skippedEvents + 1 })

def classifyContents : List TraceContributionEvent → Progress σ →
    Except TraceContributionError (List (Option String) × Progress σ)
  | [], p => .ok ([], p)
  | event :: events, p => do
    let (update, p) ← classifyContent sweeper adapter policy event p
    let (updates, p) ← classifyContents events p
    return (update :: updates, p)

/-- A string of a payload: whether it was submitted, and what it became. -/
def classifyString (text : String) (p : Progress σ) :
    Except TraceContributionError (Bool × String × Progress σ) :=
  match p.budget.charge text with
  | none => .ok (false, text, p)
  | some budget => do
    let (answer, p) ← ask adapter .value text { p with budget }
    match answer with
    | none => return (true, text, p)
    | some redaction =>
      return (true, redaction.redactedText, { p with report := p.report.merge redaction.report })

/-- A key is not rewritten: a finding in it is only noted. -/
def classifyKey (key : String) (p : Progress σ) :
    Except TraceContributionError (Bool × Progress σ) :=
  match p.budget.charge key with
  | none => .ok (false, p)
  | some budget => do
    let (answer, p) ← ask adapter .key key { p with budget }
    if answer.any fun r => r.report.hasFinding then
      return (true, { p with report := { p.report with keyFindingDetected := true } })
    else return (true, p)

mutual

def classifyStructuredPayloadNode : Json → Nat → Progress σ →
    Except TraceContributionError (Bool × Json × Progress σ)
  | .string text, depth, p =>
    if depth > structuredPayloadMaxDepth then .ok (false, .string text, p)
    else do
      let (covered, text, p) ← classifyString adapter text p
      return (covered, .string text, p)
  | .array items, depth, p =>
    if depth > structuredPayloadMaxDepth then .ok (false, .array items, p)
    else do
      let (covered, items, p) ← classifyItems items (depth + 1) p
      return (covered, .array items, p)
  | .object entries, depth, p =>
    if depth > structuredPayloadMaxDepth then .ok (false, .object entries, p)
    else do
      let (covered, entries, p) ← classifyEntries entries (depth + 1) p
      return (covered, .object entries, p)
  | value, depth, p => .ok (depth ≤ structuredPayloadMaxDepth, value, p)

def classifyItems : List Json → Nat → Progress σ →
    Except TraceContributionError (Bool × List Json × Progress σ)
  | [], _, p => .ok (true, [], p)
  | item :: items, depth, p => do
    let (covered, item, p) ← classifyStructuredPayloadNode item depth p
    if covered then
      let (covered, items, p) ← classifyItems items depth p
      return (covered, item :: items, p)
    else return (false, item :: items, p)

def classifyEntries : List (String × Json) → Nat → Progress σ →
    Except TraceContributionError (Bool × List (String × Json) × Progress σ)
  | [], _, p => .ok (true, [], p)
  | (key, item) :: entries, depth, p => do
    let (covered, p) ← classifyKey adapter key p
    if covered then
      let (covered, item, p) ← classifyStructuredPayloadNode item depth p
      if covered then
        let (covered, entries, p) ← classifyEntries entries depth p
        return (covered, (key, item) :: entries, p)
      else return (false, (key, item) :: entries, p)
    else return (false, (key, item) :: entries, p)

end

/-- One budget for the payloads of all events; the loop ends at the first payload that was not
covered, whose part that was classified is kept. -/
def classifyPayloads : List TraceContributionEvent → Progress σ →
    Except TraceContributionError (Bool × List (Option Json) × Progress σ)
  | [], p => .ok (true, [], p)
  | event :: events, p =>
    if policyExaminesEvent policy event.eventType && !event.structuredPayload.isNull then do
      let (covered, payload, p) ← classifyStructuredPayloadNode adapter event.structuredPayload 0 p
      if covered then
        let (covered, updates, p) ← classifyPayloads events p
        return (covered, some payload :: updates, p)
      else return (false, some payload :: events.map fun _ => none, p)
    else do
      let (covered, updates, p) ← classifyPayloads events p
      return (covered, none :: updates, p)

/-- What the loops leave when no call failed. -/
structure Pass (σ : Type) where
  contents : List (Option String)
  payloads : List (Option Json)
  structuredComplete : Bool
  progress : Progress σ

def classifyEvents (events : List TraceContributionEvent) :
    Except TraceContributionError (Pass σ) := do
  let (contents, p) ← classifyContents sweeper adapter policy events { sweepState := sweeper.state }
  let (structuredComplete, payloads, progress) ← classifyPayloads adapter policy events p
  return { contents, payloads, structuredComplete, progress }

end Prose

def hasText (values : List String) : Bool := values.any fun v => !isBlank v

/-- Prose the classifier is never shown. -/
def uncoveredProsePresent (e : TraceContributionEnvelope) : Bool :=
  e.outcome.humanCorrection.any (fun v => !isBlank v) || hasText e.replay.replayNotes
    || e.hindsight.any fun h =>
      h.originalGoalSummary.any (fun v => !isBlank v) || hasText h.achievedSubgoals

def TraceContributionEvent.update (event : TraceContributionEvent)
    (update : Option String × Option Json) : TraceContributionEvent :=
  { event with
    redactedContent := update.1.or event.redactedContent
    structuredPayload := update.2.getD event.structuredPayload }

namespace Pass

variable {σ : Type}

/-- What the pass says of itself: the classifier's counts under the policy it ran with. -/
def summary (pass : Pass σ) (policy : PiiClassifyPolicy) : SafePrivacyFilterSummary :=
  { pass.progress.summary.getD { schemaVersion := 1 } with
    classifyPolicy := some policy.asLabel
    eventsExamined := pass.progress.examinedEvents
    eventsSkippedByPolicy := pass.progress.skippedEvents }

/-- The envelope the scan of the classifier pass reads. -/
def rewritten (pass : Pass σ) (policy : PiiClassifyPolicy) (e : TraceContributionEnvelope) :
    TraceContributionEnvelope :=
  { e with
    events := e.events.zipWith TraceContributionEvent.update (pass.contents.zip pass.payloads)
    privacy := { e.privacy.addFindings pass.progress.report with
      privacyFilterSummary :=
        some (mergePrivacyFilterSummary e.privacy.privacyFilterSummary (pass.summary policy)) } }

def aggregateEmpty (pass : Pass σ) : Bool :=
  !pass.progress.report.hasFinding && !pass.progress.report.keyFindingDetected

end Pass

section Prose

variable {σ : Type} (bare : Redactor σ) (enc : Encoding) (adapter : PrivacyFilterAdapter)
  (policy : PiiClassifyPolicy)

def finishPass (pass : Pass σ) (e : TraceContributionEnvelope) :
    TraceContributionEnvelope × List ResidualRiskCondition :=
  let e := pass.rewritten policy e
  let residual := residualEnvelopeScan bare.findings enc e
  let (risk, basis) := resolve e.consent e.privacy.residualPiiRisk pass.progress.report
    (pass.structuredComplete && !uncoveredProsePresent e) (!pass.aggregateEmpty) residual
  (record enc nearAiPiiBackstopPipelineSuffix [] risk e, basis)

/-- When a call fails, the only trace of the pass is in the consent declarations. -/
def rescrubEnvelopeProsePiiWith (e : TraceContributionEnvelope) :
    TraceContributionEnvelope × Except TraceContributionError (List ResidualRiskCondition) :=
  let e := reconcileConsentDeclarations e
  match classifyEvents bare adapter policy e.events with
  | .error err => (e, .error err)
  | .ok pass =>
    let (e, basis) := finishPass bare enc policy pass e
    (e, .ok basis)

end Prose

end TraceCommons.Redaction
