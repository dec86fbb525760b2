import TraceCommons.Redaction.ResidualScan

/-! # Envelopes and the risk recorded on them

The parts of a contribution envelope the two re-scrub passes read or write, the consent
declarations they correct, the scan of the serialized envelope, and how the findings of a pass and
of its scan are turned into the residual risk. -/

namespace TraceCommons.Redaction

inductive ResidualPiiRisk where
  | low
  | medium
  | high
  deriving DecidableEq

namespace ResidualPiiRisk

def rank : ResidualPiiRisk → Nat
  | low => 0
  | medium => 1
  | high => 2

theorem rank_injective : Function.Injective rank := by
  intro a b h
  cases a <;> cases b <;> first | rfl | cases h

instance : LinearOrder ResidualPiiRisk := LinearOrder.lift' rank rank_injective

theorem le_high (r : ResidualPiiRisk) : r ≤ high := by
  cases r <;> decide

end ResidualPiiRisk

inductive TraceContributionEventType where
  | userMessage
  | assistantMessage
  | reasoning
  | toolCall
  | toolResult
  | routingDecision
  | httpExchange
  | feedback
  deriving DecidableEq

/-- The modes other than `Other` carry no text. -/
inductive TraceFailureMode where
  | named (mode : Nat)
  | other (detail : String)
  deriving DecidableEq

structure TraceContributionEvent where
  eventType : TraceContributionEventType
  redactedContent : Option String := none
  structuredPayload : Json := .null
  toolName : Option String := none
  /-- The fields no pass reads or writes. -/
  rest : List (String × Json) := []

structure ConsentMetadata where
  messageTextIncluded : Bool := false
  toolPayloadsIncluded : Bool := false
  correctionIncluded : Bool := false

structure SafePrivacyFilterSummary where
  schemaVersion : Nat
  outputMode : String := "redacted_text_only"
  spanCount : Nat := 0
  byLabel : OrdMap String Nat := {}
  decodedMismatch : Bool := false
  classifyPolicy : Option String := none
  eventsExamined : Nat := 0
  eventsSkippedByPolicy : Nat := 0

structure PrivacyMetadata where
  residualPiiRisk : ResidualPiiRisk
  redactionCounts : OrdMap String Nat := {}
  piiLabelsPresent : List String := []
  warnings : List String := []
  redactionPipelineVersion : String := ""
  privacyFilterSummary : Option SafePrivacyFilterSummary := none
  redactionHash : String := ""

structure OutcomeMetadata where
  humanCorrection : Option String := none
  errorTaxonomy : List String := []
  failureModes : List TraceFailureMode := []

structure ReplayMetadata where
  requiredTools : List String := []
  replayNotes : List String := []
  toolManifestHashes : OrdMap String String := {}
  expectedAssertions : List Json := []

structure HindsightRelabelingCandidate where
  originalGoalSummary : Option String := none
  achievedSubgoals : List String := []
  failureType : Option TraceFailureMode := none

structure TraceCard where
  redactionPipelineVersion : String := ""
  toolCategories : List String := []

structure ValueCard where
  limitations : List String := []
  userVisibleExplanation : List String := []

structure TraceContributionEnvelope where
  consent : ConsentMetadata := {}
  privacy : PrivacyMetadata
  events : List TraceContributionEvent := []
  outcome : OutcomeMetadata := {}
  replay : ReplayMetadata := {}
  hindsight : Option HindsightRelabelingCandidate := none
  featureFlags : OrdMap String String := {}
  modelName : Option String := none
  conversationId : Option String := none
  valueExplanation : List String := []
  coverageTags : Option (List String) := none
  traceCard : TraceCard := {}
  valueCard : ValueCard := {}
  /-- Absent, or an evaluation that may name its evaluator. -/
  evaluatorName : Option (Option String) := none
  /-- The fields no pass reads or writes. -/
  rest : List (String × Json) := []

/-! ## Consent declarations -/

/-- The white space a string is trimmed of. -/
def isWhitespace (c : Char) : Bool :=
  (9 ≤ c.toNat && c.toNat ≤ 13) || (0x2000 ≤ c.toNat && c.toNat ≤ 0x200a)
    || c.toNat ∈ [0x20, 0x85, 0xa0, 0x1680, 0x2028, 0x2029, 0x202f, 0x205f, 0x3000]

def isBlank (text : String) : Bool := text.toList.all isWhitespace

def trim (text : String) : String :=
  String.ofList (((text.toList.dropWhile isWhitespace).reverse.dropWhile isWhitespace).reverse)

def emitterLiteralPayloadKeys : List String :=
  ["has_arguments", "has_result", "has_error", "state", "arguments", "rationale"]

def keyCarriesReadableContent (key : String) : Bool :=
  !isBlank key && trim key ∉ emitterLiteralPayloadKeys

mutual

def payloadCarriesReadableContent : Json → Bool
  | .null => false
  | .bool _ => false
  | .number _ => true
  | .string text => !isBlank text
  | .array items => itemsCarryReadableContent items
  | .object entries => entriesCarryReadableContent entries

def itemsCarryReadableContent : List Json → Bool
  | [] => false
  | item :: items => payloadCarriesReadableContent item || itemsCarryReadableContent items

def entriesCarryReadableContent : List (String × Json) → Bool
  | [] => false
  | (key, item) :: entries =>
    keyCarriesReadableContent key || payloadCarriesReadableContent item
      || entriesCarryReadableContent entries

end

def carriesMessageText : TraceContributionEventType → Bool
  | .userMessage | .assistantMessage | .reasoning | .routingDecision | .feedback => true
  | .toolCall | .toolResult | .httpExchange => false

namespace TraceContributionEvent

def hasContent (event : TraceContributionEvent) : Bool :=
  event.redactedContent.any fun content => !content.isEmpty

end TraceContributionEvent

structure EnvelopeContentPresence where
  messageText : Bool
  toolPayloads : Bool
  correction : Bool
  routingMetadata : Bool

def deriveEnvelopeContentPresence (e : TraceContributionEnvelope) : EnvelopeContentPresence where
  messageText := e.events.any fun event => event.hasContent && carriesMessageText event.eventType
  toolPayloads := e.events.any fun event =>
    event.hasContent && !carriesMessageText event.eventType
      || payloadCarriesReadableContent event.structuredPayload
        && event.eventType ≠ .routingDecision
  correction := e.outcome.humanCorrection.any fun text => !text.isEmpty
  routingMetadata := e.events.any fun event =>
    payloadCarriesReadableContent event.structuredPayload && event.eventType = .routingDecision

def consentCorrectedWarning : String :=
  "Server corrected under-reported consent declarations to match envelope payload."

/-- Flags are only ever corrected upward. -/
def reconcileConsentDeclarations (e : TraceContributionEnvelope) : TraceContributionEnvelope :=
  let presence := deriveEnvelopeContentPresence e
  let corrected := presence.messageText && !e.consent.messageTextIncluded
    || presence.toolPayloads && !e.consent.toolPayloadsIncluded
    || presence.correction && !e.consent.correctionIncluded
  { e with
    consent := {
      messageTextIncluded := e.consent.messageTextIncluded || presence.messageText
      toolPayloadsIncluded := e.consent.toolPayloadsIncluded || presence.toolPayloads
      correctionIncluded := e.consent.correctionIncluded || presence.correction }
    privacy := { e.privacy with
      warnings :=
        if corrected then RedactionReport.pushNew e.privacy.warnings consentCorrectedWarning
        else e.privacy.warnings } }

/-! ## Risk -/

def maxResidualRisk : ResidualPiiRisk → ResidualPiiRisk → ResidualPiiRisk
  | .high, _ => .high
  | _, .high => .high
  | .medium, _ => .medium
  | _, .medium => .medium
  | .low, .low => .low

theorem maxResidualRisk_eq (a b : ResidualPiiRisk) : maxResidualRisk a b = max a b := by
  cases a <;> cases b <;> rfl

def nonSeverityRedactionLabels : List String :=
  ["local_path", "ip_address", "private_hostname", "os_username"]

def labelBearsSeverity (label : String) : Bool := label ∉ nonSeverityRedactionLabels

/-- Something that bears severity was found, and taken out. -/
def RedactionReport.bearsSeverity (report : RedactionReport) : Bool :=
  report.blockedSecretDetected || report.counts.entries.any (fun e => labelBearsSeverity e.1)
    || report.piiLabelsPresent.any labelBearsSeverity

def ConsentMetadata.declaresContent (consent : ConsentMetadata) : Bool :=
  consent.messageTextIncluded || consent.toolPayloadsIncluded || consent.correctionIncluded

def residualRisk (consent : ConsentMetadata) (report : RedactionReport) : ResidualPiiRisk :=
  if report.keyFindingDetected then .high
  else if report.coverageIncomplete then .high
  else if report.bearsSeverity then .medium
  else if consent.declaresContent then .medium
  else .low

structure PostScrubAssessment where
  completeCoverage : Bool
  usefulClassifierResult : Bool
  findings : RedactionReport
  residualFindings : RedactionReport

namespace PostScrubAssessment

def residualClean (a : PostScrubAssessment) : Bool := a.residualFindings.isClean

def canDowngrade (a : PostScrubAssessment) : Bool :=
  a.completeCoverage && a.usefulClassifierResult && a.residualClean

def forcesHigh (a : PostScrubAssessment) : Bool :=
  a.findings.keyFindingDetected || a.findings.coverageIncomplete
    || a.residualFindings.blockedSecretDetected || a.residualFindings.keyFindingDetected
    || a.residualFindings.coverageIncomplete

end PostScrubAssessment

def resolvePostScrubRisk (prior derived : ResidualPiiRisk) (a : PostScrubAssessment) :
    ResidualPiiRisk :=
  if a.forcesHigh then .high
  else if a.canDowngrade then derived
  else maxResidualRisk prior derived

theorem resolvePostScrubRisk_le {prior derived : ResidualPiiRisk} {a : PostScrubAssessment}
    (h : a.canDowngrade = false) : prior ≤ resolvePostScrubRisk prior derived a := by
  rw [resolvePostScrubRisk]
  split
  · exact prior.le_high
  · rw [h, maxResidualRisk_eq]
    exact le_max_left _ _

inductive ResidualRiskCondition where
  | keyFinding
  | coverageIncomplete
  | residualSurvivor
  | residualScanUnavailable
  | foundAndRemoved
  | consentContentFlag
  deriving DecidableEq

namespace ResidualRiskCondition

def forcesHigh : ResidualRiskCondition → Bool
  | keyFinding | coverageIncomplete | residualSurvivor | residualScanUnavailable => true
  | foundAndRemoved | consentContentFlag => false

end ResidualRiskCondition

def residualRiskBasis (consent : ConsentMetadata) (report : RedactionReport)
    (residual : Option RedactionReport) : List ResidualRiskCondition :=
  (if report.keyFindingDetected || residual.any (·.keyFindingDetected) then [.keyFinding] else [])
  ++ (if report.coverageIncomplete || residual.any (·.coverageIncomplete) then
        [.coverageIncomplete] else [])
  ++ (if residual.any (·.blockedSecretDetected) then [.residualSurvivor] else [])
  ++ (if report.bearsSeverity then [.foundAndRemoved] else [])
  ++ (if consent.declaresContent then [.consentContentFlag] else [])

def residualRiskBasisForFailedScan (consent : ConsentMetadata) (report : RedactionReport) :
    List ResidualRiskCondition :=
  residualRiskBasis consent report none ++ [.residualScanUnavailable]

/-- What a pass records: the risk and the conditions it rests on. `residual` is the outcome of its
scan. -/
def resolve (consent : ConsentMetadata) (prior : ResidualPiiRisk) (report : RedactionReport)
    (complete useful : Bool) (residual : Except ResidualScanError RedactionReport) :
    ResidualPiiRisk × List ResidualRiskCondition :=
  match residual with
  | .ok findings =>
    (resolvePostScrubRisk prior (residualRisk consent report) {
        completeCoverage := complete
        usefulClassifierResult := useful
        findings := report
        residualFindings := findings },
      residualRiskBasis consent report (some findings))
  | .error _ => (.high, residualRiskBasisForFailedScan consent report)

section Resolve

variable {consent : ConsentMetadata} {prior : ResidualPiiRisk} {report : RedactionReport}
  {complete useful : Bool} {residual : Except ResidualScanError RedactionReport}

theorem le_resolve : prior ≤ (resolve consent prior report complete false residual).1 := by
  cases residual with
  | error err => exact prior.le_high
  | ok r =>
    refine resolvePostScrubRisk_le ?_
    rw [PostScrubAssessment.canDowngrade, Bool.and_false, Bool.false_and]

theorem resolve_of_error {err : ResidualScanError} (h : residual = .error err) :
    (resolve consent prior report complete useful residual).1 = .high := by
  rw [h, resolve]

theorem resolve_of_forced {r : RedactionReport} (h : residual = .ok r)
    (hforced : report.keyFindingDetected ∨ r.blockedSecretDetected) :
    (resolve consent prior report complete useful residual).1 = .high := by
  rw [h]
  refine if_pos ?_
  rw [PostScrubAssessment.forcesHigh]
  rcases hforced with hkey | hblocked
  · simp [hkey]
  · simp [hblocked]

theorem residualRisk_lt (h : residualRisk consent report < prior) :
    report.keyFindingDetected = false ∧ report.coverageIncomplete = false := by
  have hlow : residualRisk consent report ≠ .high := (h.trans_le prior.le_high).ne
  rw [residualRisk] at hlow
  split at hlow
  · exact absurd rfl hlow
  next hkey =>
    split at hlow
    · exact absurd rfl hlow
    next hcoverage =>
      exact ⟨Bool.eq_false_of_not_eq_true hkey, Bool.eq_false_of_not_eq_true hcoverage⟩

/-- The risk falls exactly where a downgrade was allowed and the report speaks for a lower one. -/
theorem resolve_lt_iff : (resolve consent prior report complete useful residual).1 < prior ↔
    complete ∧ useful ∧ residualRisk consent report < prior ∧
      ∃ r, residual = .ok r ∧ r.isClean := by
  cases residual with
  | error err =>
    exact ⟨fun h => absurd h prior.le_high.not_gt, fun ⟨_, _, _, _, hr, _⟩ => nomatch hr⟩
  | ok r =>
    rw [resolve]
    constructor
    · intro h
      have hdown : (complete && useful && r.isClean) = true := by
        by_contra hdown
        refine absurd h (not_lt_of_ge ?_)
        exact resolvePostScrubRisk_le (Bool.eq_false_of_not_eq_true hdown)
      rw [resolvePostScrubRisk] at h
      split at h
      · exact absurd h prior.le_high.not_gt
      · rw [PostScrubAssessment.canDowngrade, PostScrubAssessment.residualClean, if_pos hdown] at h
        rw [Bool.and_eq_true, Bool.and_eq_true] at hdown
        exact ⟨hdown.1.1, hdown.1.2, h, r, rfl, hdown.2⟩
    · rintro ⟨hcomplete, huseful, hlt, _, hr, hclean⟩
      cases hr
      obtain ⟨hkey, hcoverage⟩ := residualRisk_lt hlt
      simp only [RedactionReport.isClean, Bool.and_eq_true, Bool.not_eq_true'] at hclean
      simpa [resolvePostScrubRisk, PostScrubAssessment.forcesHigh, hkey, hcoverage, hclean,
        PostScrubAssessment.canDowngrade, PostScrubAssessment.residualClean,
        RedactionReport.isClean, hcomplete, huseful] using hlt

def basisRisk (basis : List ResidualRiskCondition) : ResidualPiiRisk :=
  if basis.any (·.forcesHigh) then .high else if basis = [] then .low else .medium

theorem basisRisk_eq (consent : ConsentMetadata) (a : PostScrubAssessment) :
    basisRisk (residualRiskBasis consent a.findings (some a.residualFindings)) =
      if a.forcesHigh then .high else residualRisk consent a.findings := by
  simp only [basisRisk, residualRiskBasis, PostScrubAssessment.forcesHigh, residualRisk]
  grind [ResidualRiskCondition.forcesHigh]

/-- A pass records the risk its basis speaks for, or keeps a higher one. -/
theorem resolve_explained : ∃ risk basis,
    resolve consent prior report complete useful residual = (risk, basis) ∧
      (risk = basisRisk basis ∨ risk = max prior (basisRisk basis)) := by
  refine ⟨_, _, rfl, ?_⟩
  cases residual with
  | error err =>
    simp [basisRisk, residualRiskBasisForFailedScan, ResidualRiskCondition.forcesHigh]
  | ok r =>
    have hbasis := basisRisk_eq consent ⟨complete, useful, report, r⟩
    simp only [hbasis, resolvePostScrubRisk]
    split
    · exact .inl rfl
    split
    · exact .inl rfl
    · exact .inr (maxResidualRisk_eq _ _)

end Resolve

/-! ## Scanning an envelope -/

/-- How envelopes are written out. The shell is the envelope without its events. -/
structure Encoding where
  shell : TraceContributionEnvelope → Except ResidualScanError (List (String × Json))
  event : TraceContributionEvent → Except ResidualScanError Json
  canonicalize : Json → Json
  redactionHash : List TraceContributionEvent → OrdMap String Nat → String

namespace Encoding

def shellOf (enc : Encoding) (e : TraceContributionEnvelope) :
    Except ResidualScanError (List (String × Json)) :=
  enc.shell { e with events := [] }

def placeEvents (events : List Json) (entry : String × Json) : String × Json :=
  if entry.1 = "events" then (entry.1, .array events) else entry

def entries (enc : Encoding) (e : TraceContributionEnvelope) :
    Except ResidualScanError (List (String × Json)) := do
  let shell ← enc.shellOf e
  let events ← e.events.mapM enc.event
  return shell.map (placeEvents events)

end Encoding

section Scan

variable (findings : String → RedactionReport) (enc : Encoding)

def residualEnvelopeScan (e : TraceContributionEnvelope) :
    Except ResidualScanError RedactionReport := do
  let entries ← enc.entries e
  let s ← scanJsonLeaves findings (.object entries) 0 "envelope" {}
  return s.report

def scanEvents : List TraceContributionEvent → Scan → Except ResidualScanError Scan
  | [], s => .ok s
  | event :: events, s => do
    let value ← enc.event event
    let s ← scanJsonLeaves findings value 2 "envelope.events[]" s
    scanEvents events s

def scanShell (events : List TraceContributionEvent) :
    List (String × Json) → Scan → Except ResidualScanError Scan
  | [], s => .ok s
  | (key, item) :: entries, s => do
    let childPath := "envelope" ++ "." ++ schemaShapedKey key
    let s ← scanText findings key (childPath ++ "#key") s
    let s ← if key = "events" then scanEvents findings enc events s
      else scanJsonLeaves findings item 1 childPath s
    scanShell events entries s

/-- The same scan, with one event written out at a time. -/
def residualEnvelopeScanByEvent (e : TraceContributionEnvelope) :
    Except ResidualScanError RedactionReport := do
  let shell ← enc.shellOf e
  let s ← scanShell findings enc e.events shell {}
  return s.report

variable {findings enc} {e : TraceContributionEnvelope} {events : List TraceContributionEvent}
  {values : List Json}

theorem scanEvents_eq (h : events.mapM enc.event = .ok values) (s : Scan) :
    scanEvents findings enc events s = scanItems findings values 2 "envelope.events[]" s := by
  induction events generalizing values s with
  | nil => cases h; rfl
  | cons event events ih =>
    rw [List.mapM_cons, bind_eq_ok] at h
    obtain ⟨_, hvalue, h⟩ := h
    rw [bind_eq_ok] at h
    obtain ⟨_, hrest, h⟩ := h
    cases h
    rw [scanEvents, hvalue]
    exact congrArg _ (funext fun s => ih hrest s)

theorem scanJsonLeaves_events (s : Scan) :
    scanJsonLeaves findings (.array values) 1 ("envelope" ++ "." ++ schemaShapedKey "events") s
      = scanItems findings values 2 "envelope.events[]" s := by
  have hpath : "envelope" ++ "." ++ schemaShapedKey "events" ++ "[]" = "envelope.events[]" := by
    decide +kernel
  rw [scanJsonLeaves, hpath, withinDepth, if_neg (by decide)]

theorem scanShell_eq (h : events.mapM enc.event = .ok values) (shell : List (String × Json))
    (s : Scan) : scanShell findings enc events shell s
      = scanEntries findings (shell.map (Encoding.placeEvents values)) 1 "envelope" s := by
  induction shell generalizing s with
  | nil => rfl
  | cons entry shell ih =>
    obtain ⟨_, _⟩ := entry
    rw [List.map_cons, scanShell, Encoding.placeEvents]
    split
    next hkey =>
      subst hkey
      refine congrArg _ (funext fun s1 => ?_)
      simp only [scanEvents_eq h]
      exact congrArg _ (funext ih)
    next hkey =>
      refine congrArg _ (funext fun s1 => ?_)
      exact congrArg _ (funext ih)

/-- Where every event can be written out, the two scans are one. -/
theorem residualEnvelopeScanByEvent_eq (h : e.events.mapM enc.event = .ok values) :
    residualEnvelopeScanByEvent findings enc e = residualEnvelopeScan findings enc e := by
  rw [residualEnvelopeScanByEvent, residualEnvelopeScan, Encoding.entries]
  cases enc.shellOf e with
  | error err => rfl
  | ok shell =>
    have hroot : ∀ entries : List (String × Json), scanJsonLeaves findings (.object entries) 0
        "envelope" {} = scanEntries findings entries 1 "envelope" {} := by
      intro _
      rw [scanJsonLeaves, withinDepth, if_neg (by decide)]
    rw [h]
    simp only [bind, Except.bind, pure, Except.pure]
    rw [hroot, scanShell_eq h]

/-- A scan that returns has read every text of the envelope. -/
theorem residualEnvelopeScan_spec {r : RedactionReport}
    (h : residualEnvelopeScan findings enc e = .ok r) :
    ∃ entries, enc.entries e = .ok entries
      ∧ r.isClean = ((Json.entryTexts entries).all fun t => (findings t).isClean)
      ∧ r.blockedSecretDetected
        = (Json.entryTexts entries).any fun t => (findings t).blockedSecretDetected := by
  rw [residualEnvelopeScan, bind_eq_ok] at h
  obtain ⟨entries, hentries, h⟩ := h
  rw [bind_eq_ok] at h
  obtain ⟨s, hs, h⟩ := h
  cases h
  have hscan := scanned_scanJsonLeaves hs
  exact ⟨entries, hentries, hscan.clean, hscan.blocked⟩

theorem events_of_entries {entries : List (String × Json)} (h : enc.entries e = .ok entries) :
    ∃ values, e.events.mapM enc.event = .ok values := by
  rw [Encoding.entries, bind_eq_ok] at h
  obtain ⟨_, -, h⟩ := h
  rw [bind_eq_ok] at h
  obtain ⟨values, hvalues, -⟩ := h
  exact ⟨values, hvalues⟩

end Scan

end TraceCommons.Redaction
