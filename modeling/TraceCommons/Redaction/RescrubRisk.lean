import TraceCommons.Redaction.Rescrub

/-! # What a re-scrub may do to the recorded risk

The deterministic pass never lowers it. The classifier pass lowers it only when every text of every
event it was to examine went to the adapter, and something was found. What one call adds to the
progress of the pass is said once (`Advances`), and carried through the loops and the walk over a
payload. -/

namespace TraceCommons.Redaction

open List

variable {σ : Type} {sweeper : Redactor σ} {adapter : PrivacyFilterAdapter}
  {policy : PiiClassifyPolicy}

/-- The sweep found something in what the adapter left of a content. -/
def Call.swept (sweeper : Redactor σ) (call : Call) : Bool :=
  call.part = .content && call.answer.any fun r => (sweeper.findings r.redactedText).hasFinding

/-! ## Calls -/

/-- A mark of the report stays from `p` to `p'`, and each of the calls `new` with `cause` makes
it. -/
def Marks (mark : RedactionReport → Bool) (cause : Call → Prop) (p p' : Progress σ)
    (new : List Call) : Prop :=
  (mark p.report ∨ ∃ c ∈ new, cause c) → mark p'.report

namespace Marks

variable {mark : RedactionReport → Bool} {cause : Call → Prop} {p p' p'' : Progress σ}
  {new new' : List Call}

theorem of_same (hreport : p'.report = p.report) : Marks mark cause p p' [] := by
  rintro (h | ⟨c, hc, -⟩)
  · exact hreport ▸ h
  · cases hc

theorem trans (h : Marks mark cause p p' new) (h' : Marks mark cause p' p'' new') :
    Marks mark cause p p'' (new ++ new') := by
  rintro (hmark | ⟨c, hc, hcause⟩)
  · exact h' (.inl (h (.inl hmark)))
  · rcases mem_append.1 hc with hc | hc
    · exact h' (.inl (h (.inr ⟨c, hc, hcause⟩)))
    · exact h' (.inr ⟨c, hc, hcause⟩)

theorem single {c : Call} (hkept : mark p.report → mark p'.report)
    (hcause : cause c → mark p'.report) : Marks mark cause p p' [c] := by
  rintro (h | ⟨c', hc, h⟩)
  · exact hkept h
  · exact hcause (mem_singleton.1 hc ▸ h)

end Marks

/-- From `p` to `p'` the calls `new` were made, and nothing else was reported. -/
structure Advances (sweeper : Redactor σ) (adapter : PrivacyFilterAdapter) (p p' : Progress σ)
    (new : List Call) : Prop where
  calls : p'.calls = p.calls ++ new
  answered : ∀ i c, new[i]? = some c → adapter (p.calls.length + i) c.text = .ok c.answer
  evidence : p'.report.hasFinding → p.report.hasFinding ∨ ∃ c ∈ new, c.found ∨ c.swept sweeper
  swept : Marks (·.hasFinding) (·.swept sweeper) p p' new
  flagged : Marks (·.keyFindingDetected) (fun c => c.part = .key ∧ c.found) p p' new

namespace Advances

variable {p p' p'' : Progress σ} {new new' : List Call}

theorem of_same (hcalls : p'.calls = p.calls) (hreport : p'.report = p.report) :
    Advances sweeper adapter p p' [] where
  calls := by rw [hcalls, append_nil]
  answered := fun i c h => nomatch h
  evidence := fun h => .inl (hreport ▸ h)
  swept := .of_same hreport
  flagged := .of_same hreport

theorem trans (h : Advances sweeper adapter p p' new) (h' : Advances sweeper adapter p' p'' new') :
    Advances sweeper adapter p p'' (new ++ new') where
  calls := by rw [h'.calls, h.calls, append_assoc]
  answered := by
    intro i c hc
    rw [getElem?_append] at hc
    split at hc
    · exact h.answered i c hc
    have hanswer := h'.answered _ c hc
    rwa [h.calls, length_append, show p.calls.length + new.length + (i - new.length)
      = p.calls.length + i by omega] at hanswer
  evidence := by
    intro hfound
    rcases h'.evidence hfound with hfound | ⟨c, hc, hfound⟩
    · refine (h.evidence hfound).imp_right fun ⟨c, hc, hfound⟩ => ?_
      exact ⟨c, mem_append_left _ hc, hfound⟩
    · exact .inr ⟨c, mem_append_right _ hc, hfound⟩
  swept := h.swept.trans h'.swept
  flagged := h.flagged.trans h'.flagged

theorem single {c : Call} (hanswer : adapter p.calls.length c.text = .ok c.answer)
    (hcalls : p'.calls = p.calls ++ [c])
    (hevidence : p'.report.hasFinding → p.report.hasFinding ∨ c.found ∨ c.swept sweeper)
    (hswept : Marks (·.hasFinding) (·.swept sweeper) p p' [c])
    (hflagged : Marks (·.keyFindingDetected) (fun c => c.part = .key ∧ c.found) p p' [c]) :
    Advances sweeper adapter p p' [c] where
  calls := hcalls
  answered := by
    intro i c' hc
    obtain ⟨rfl, rfl⟩ : i = 0 ∧ c = c' := by
      cases i with
      | zero => exact ⟨rfl, Option.some.inj hc⟩
      | succ i => cases hc
    exact hanswer
  evidence := fun h => (hevidence h).imp_right fun h => ⟨c, mem_singleton_self c, h⟩
  swept := hswept
  flagged := hflagged

theorem unanswered {part : Part} {text : String} (hanswer : adapter p.calls.length text = .ok none)
    (hcalls : p'.calls = p.calls ++ [⟨part, text, none⟩]) (hreport : p'.report = p.report) :
    Advances sweeper adapter p p' [⟨part, text, none⟩] := by
  refine single hanswer hcalls (fun h => .inl (hreport ▸ h)) (.single ?_ ?_) (.single ?_ ?_)
  · exact fun h => hreport ▸ h
  · simp [Call.swept]
  · exact fun h => hreport ▸ h
  · simp [Call.found]

end Advances

/-- What the adapter left of a string or key is not swept. -/
theorem Call.not_swept {c : Call} (hpart : c.part ≠ .content) : ¬ c.swept sweeper := by
  simp [Call.swept, hpart]

theorem yields_ask {β : Type} {part : Part} {text : String} {p : Progress σ} {Q : β → Prop}
    {f : Option SafePrivacyFilterRedaction × Progress σ → Except TraceContributionError β}
    (h : ∀ answer, adapter p.calls.length text = .ok answer →
      Yields (f (answer, { p with calls := p.calls ++ [⟨part, text, answer⟩] })) Q) :
    Yields (ask adapter part text p >>= f) Q := by
  refine .bind fun answered hask => ?_
  rw [ask, bind_eq_ok] at hask
  obtain ⟨answer, hanswer, hask⟩ := hask
  cases hask
  exact h _ hanswer

/-! ## Texts -/

/-- A part of the pass that was to submit `texts`, and did if `covered`. -/
def Classified (sweeper : Redactor σ) (adapter : PrivacyFilterAdapter) (texts : List String)
    (covered : Bool) (p p' : Progress σ) : Prop :=
  ∃ new, Advances sweeper adapter p p' new ∧ (covered → new.map (·.text) = texts)

namespace Classified

variable {p p' p'' : Progress σ} {ts ts' : List String} {covered : Bool}

theorem nil (covered : Bool) (hcalls : p'.calls = p.calls) (hreport : p'.report = p.report) :
    Classified sweeper adapter [] covered p p' :=
  ⟨[], .of_same hcalls hreport, fun _ => rfl⟩

theorem untouched : Classified sweeper adapter ts false p p :=
  ⟨[], .of_same rfl rfl, nofun⟩

theorem append {c : Bool} (h : Classified sweeper adapter ts c p p') (hc : c)
    (h' : Classified sweeper adapter ts' covered p' p'') :
    Classified sweeper adapter (ts ++ ts') covered p p'' := by
  obtain ⟨new, hnew, htexts⟩ := h
  obtain ⟨new', hnew', htexts'⟩ := h'
  refine ⟨new ++ new', hnew.trans hnew', fun hcovered => ?_⟩
  rw [map_append, htexts hc, htexts' hcovered]

/-- Where the walk stopped, nothing is said of what was still to come. -/
theorem stop (h : Classified sweeper adapter ts covered p p') :
    Classified sweeper adapter ts' false p p' :=
  let ⟨new, hnew, _⟩ := h
  ⟨new, hnew, nofun⟩

end Classified

theorem classified_string (text : String) (p : Progress σ) :
    Yields (classifyString adapter text p)
      fun r => Classified sweeper adapter [text] r.1 p r.2.2 := by
  rw [classifyString]
  split
  · exact .pure .untouched
  refine yields_ask fun answer hanswer => ?_
  cases answer with
  | none => exact .pure ⟨_, .unanswered hanswer rfl rfl, fun _ => rfl⟩
  | some redaction =>
    refine .pure ⟨_, .single hanswer rfl ?_ (.single ?_ ?_) (.single ?_ nofun), fun _ => rfl⟩
    · intro hfound
      rw [RedactionReport.hasFinding_merge, Bool.or_eq_true] at hfound
      exact hfound.imp_right .inl
    · intro hfound
      rw [RedactionReport.hasFinding_merge]
      exact Bool.or_eq_true_iff.2 (.inl hfound)
    · exact fun hswept => absurd hswept (Call.not_swept nofun)
    · exact fun hkey => Bool.or_eq_true_iff.2 (.inl hkey)

theorem classified_key (key : String) (p : Progress σ) :
    Yields (classifyKey adapter key p) fun r => Classified sweeper adapter [key] r.1 p r.2 := by
  rw [classifyKey]
  split
  · exact .pure .untouched
  have hswept : ∀ {p' : Progress σ} {c : Call}, c.part = .key →
      (p.report.hasFinding → p'.report.hasFinding) →
      Marks (·.hasFinding) (·.swept sweeper) p p' [c] := fun hpart hkept =>
    .single hkept fun h => absurd h (Call.not_swept (by rw [hpart]; nofun))
  refine yields_ask fun answer hanswer => .ite (fun _ => ?_) fun hquiet => ?_
  · exact .pure ⟨_, .single hanswer rfl .inl (hswept rfl id) fun _ => rfl, fun _ => rfl⟩
  · refine .pure ⟨_, .single hanswer rfl .inl (hswept rfl id) (.single id ?_), fun _ => rfl⟩
    exact fun hfound => absurd hfound.2 hquiet

mutual

theorem classified_node (value : Json) (depth : Nat) (p : Progress σ) :
    Yields (classifyStructuredPayloadNode adapter value depth p)
      fun r => Classified sweeper adapter value.texts r.1 p r.2.2 := by
  cases value with
  | string text =>
    rw [classifyStructuredPayloadNode]
    exact .ite (fun _ => .pure .untouched)
      fun _ => .seq (classified_string text p) fun _ htext => .pure htext
  | array items =>
    rw [classifyStructuredPayloadNode]
    exact .ite (fun _ => .pure .untouched)
      fun _ => .seq (classified_items items _ p) fun _ hitems => .pure hitems
  | object entries =>
    rw [classifyStructuredPayloadNode]
    exact .ite (fun _ => .pure .untouched)
      fun _ => .seq (classified_entries entries _ p) fun _ hentries => .pure hentries
  | null | bool | number => exact .pure (.nil _ rfl rfl)

theorem classified_items (items : List Json) (depth : Nat) (p : Progress σ) :
    Yields (classifyItems adapter items depth p)
      fun r => Classified sweeper adapter (Json.itemTexts items) r.1 p r.2.2 := by
  cases items with
  | nil => exact .pure (.nil _ rfl rfl)
  | cons item items =>
    rw [classifyItems]
    refine .seq (classified_node item depth p) fun (_, _, p1) hitem =>
      .ite (fun hc => ?_) fun _ => .pure hitem.stop
    exact .seq (classified_items items depth p1) fun _ hitems => .pure (hitem.append hc hitems)

theorem classified_entries (entries : List (String × Json)) (depth : Nat) (p : Progress σ) :
    Yields (classifyEntries adapter entries depth p)
      fun r => Classified sweeper adapter (Json.entryTexts entries) r.1 p r.2.2 := by
  match entries with
  | [] => exact .pure (.nil _ rfl rfl)
  | (key, item) :: entries =>
    rw [classifyEntries]
    refine .seq (classified_key key p) fun (_, p1) hkey =>
      .ite (fun hc => ?_) fun _ => .pure hkey.stop
    refine .seq (classified_node item depth p1) fun (_, _, p2) hitem =>
      .ite (fun hc' => ?_) fun _ => .pure (hkey.append hc hitem).stop
    exact .seq (classified_entries entries depth p2) fun _ hentries =>
      .pure (hkey.append hc (hitem.append hc' hentries))

end

/-! ## Events -/

def examinedContent (policy : PiiClassifyPolicy) (event : TraceContributionEvent) : List String :=
  if policyExaminesEvent policy event.eventType then event.redactedContent.toList else []

def examinedPayload (policy : PiiClassifyPolicy) (event : TraceContributionEvent) : List String :=
  if policyExaminesEvent policy event.eventType then event.structuredPayload.texts else []

/-- All the classifier is to be shown: the contents, then every string and key of the payloads. -/
def examinedTexts (policy : PiiClassifyPolicy) (events : List TraceContributionEvent) :
    List String :=
  events.flatMap (examinedContent policy) ++ events.flatMap (examinedPayload policy)

theorem takeContent_hasFinding (p : Progress σ) (redaction : SafePrivacyFilterRedaction) :
    (takeContent sweeper p (some redaction)).2.report.hasFinding =
      (p.report.hasFinding || redaction.report.hasFinding ||
        (sweeper.findings redaction.redactedText).hasFinding) := by
  rw [takeContent, RedactionReport.hasFinding_merge, RedactionReport.hasFinding_merge]

theorem classified_takeContent {content : String} {p : Progress σ}
    {answer : Option SafePrivacyFilterRedaction}
    (hanswer : adapter p.calls.length content = .ok answer) :
    Classified sweeper adapter [content] true p (takeContent sweeper
      { p with calls := p.calls ++ [⟨.content, content, answer⟩] } answer).2 := by
  cases answer with
  | none => exact ⟨_, .unanswered hanswer rfl rfl, fun _ => rfl⟩
  | some redaction =>
    refine ⟨_, .single hanswer rfl ?_ (.single ?_ ?_) (.single ?_ nofun), fun _ => rfl⟩
    · intro hfound
      rw [takeContent_hasFinding, Bool.or_eq_true, Bool.or_eq_true, or_assoc] at hfound
      exact hfound.imp_right (.imp_right id)
    · intro hfound
      rw [takeContent_hasFinding, hfound, Bool.true_or, Bool.true_or]
    · intro hswept
      rw [takeContent_hasFinding]
      exact Bool.or_eq_true_iff.2 (.inr hswept)
    · exact fun hkey => Bool.or_eq_true_iff.2 (.inl (Bool.or_eq_true_iff.2 (.inl hkey)))

theorem classified_content (event : TraceContributionEvent) (p : Progress σ) :
    Yields (classifyContent sweeper adapter policy event p)
      fun r => Classified sweeper adapter (examinedContent policy event) true p r.2 := by
  rw [classifyContent, examinedContent]
  split
  · cases event.redactedContent with
    | none => exact .pure (.nil _ rfl rfl)
    | some content =>
      refine yields_ask fun answer hanswer => .pure ?_
      have hstart : Classified sweeper adapter [] true p
          { p with examinedEvents := p.examinedEvents + 1 } := .nil _ rfl rfl
      exact hstart.append rfl (classified_takeContent hanswer)
  · exact .pure (.nil _ rfl rfl)

variable (events : List TraceContributionEvent)

theorem classified_contents (p : Progress σ) :
    Yields (classifyContents sweeper adapter policy events p)
      fun r => Classified sweeper adapter (events.flatMap (examinedContent policy)) true p r.2 := by
  induction events generalizing p with
  | nil => exact .pure (.nil _ rfl rfl)
  | cons event events ih =>
    exact .seq (classified_content _ p) fun (_, p1) hevent =>
      .seq (ih p1) fun _ hrest => .pure (hevent.append rfl hrest)

theorem examinedPayload_of_skipped {event : TraceContributionEvent}
    (h : ¬(policyExaminesEvent policy event.eventType && !event.structuredPayload.isNull) = true) :
    examinedPayload policy event = [] := by
  rw [examinedPayload]
  split
  next hexamined =>
    rw [hexamined] at h
    cases hpayload : event.structuredPayload with
    | null => rfl
    | _ => rw [hpayload] at h; exact absurd rfl h
  · rfl

theorem classified_payloads (p : Progress σ) : Yields (classifyPayloads adapter policy events p)
      fun r => Classified sweeper adapter (events.flatMap (examinedPayload policy)) r.1 p r.2.2 := by
  induction events generalizing p with
  | nil => exact .pure (.nil _ rfl rfl)
  | cons event events ih =>
    rw [flatMap_cons]
    refine .ite (fun hexamined => ?_) fun hskipped => ?_
    · have htexts : examinedPayload policy event = event.structuredPayload.texts :=
        if_pos (Bool.and_eq_true_iff.1 hexamined).1
      rw [htexts]
      refine .seq (classified_node _ 0 p) fun (_, _, p1) hnode =>
        .ite (fun hc => ?_) fun _ => .pure hnode.stop
      exact .seq (ih p1) fun _ hrest => .pure (hnode.append hc hrest)
    · rw [examinedPayload_of_skipped hskipped]
      exact .seq (ih p) fun _ hrest => .pure hrest

theorem classified_events : Yields (classifyEvents sweeper adapter policy events) fun pass =>
      Classified sweeper adapter (examinedTexts policy events) pass.structuredComplete
        { sweepState := sweeper.state } pass.progress := by
  exact .seq (classified_contents _ _) fun (_, p) hcontents =>
    .seq (classified_payloads _ p) fun _ hpayloads =>
      .pure (hcontents.append rfl hpayloads)

/-! ## Risk -/

variable {redactor bare : Redactor σ} {enc : Encoding} {e : TraceContributionEnvelope}

theorem scan_blocked {entries : List (String × Json)} {findings : String → RedactionReport}
    {r : RedactionReport} (hentries : enc.entries e = .ok entries)
    (hscan : residualEnvelopeScan findings enc e = .ok r)
    (hsecret : ∃ t ∈ Json.entryTexts entries, (findings t).blockedSecretDetected) :
    r.blockedSecretDetected := by
  obtain ⟨entries', hentries', -, hblocked⟩ := residualEnvelopeScan_spec hscan
  obtain rfl : entries = entries' := Except.ok.inj (hentries.symm.trans hentries')
  rw [hblocked, any_eq_true]
  exact hsecret

/-- What the deterministic pass may do to the recorded risk. -/
structure TraceRescrubSafe (redactor : Redactor σ) (enc : Encoding)
    (e : TraceContributionEnvelope) : Prop where
  keeps : e.privacy.residualPiiRisk
    ≤ (rescrubTraceEnvelopeWith redactor enc e).1.privacy.residualPiiRisk
  scanFails : ∀ err,
    residualEnvelopeScanByEvent redactor.findings enc (scrubbed redactor e).1 = .error err →
      (rescrubTraceEnvelopeWith redactor enc e).1.privacy.residualPiiRisk = .high
  survivor : ∀ entries, enc.entries (scrubbed redactor e).1 = .ok entries →
    (∃ t ∈ Json.entryTexts entries, (redactor.findings t).blockedSecretDetected) →
      (rescrubTraceEnvelopeWith redactor enc e).1.privacy.residualPiiRisk = .high

theorem traceRescrubSafe : TraceRescrubSafe redactor enc e where
  keeps := le_resolve
  scanFails := fun _ h => resolve_of_error h
  survivor := by
    intro _ hentries hsecret
    obtain ⟨_, hvalues⟩ := events_of_entries hentries
    cases hscan : residualEnvelopeScanByEvent _ enc (scrubbed _ e).1 with
    | error err => exact resolve_of_error hscan
    | ok r =>
      refine resolve_of_forced hscan (.inr (scan_blocked hentries ?_ hsecret))
      rw [← residualEnvelopeScanByEvent_eq hvalues, hscan]

/-- The risk the classifier pass leaves. -/
def proseRisk (bare : Redactor σ) (enc : Encoding) (adapter : PrivacyFilterAdapter)
    (policy : PiiClassifyPolicy) (e : TraceContributionEnvelope) : ResidualPiiRisk :=
  (rescrubEnvelopeProsePiiWith bare enc adapter policy e).1.privacy.residualPiiRisk

/-- What the classifier pass has behind it when it lowers the risk. The sweep reports into the same
place as the adapter, so a finding of either is enough. -/
structure LoweredOn (bare : Redactor σ) (enc : Encoding) (policy : PiiClassifyPolicy)
    (e : TraceContributionEnvelope) (pass : Pass σ) : Prop where
  submitted : pass.progress.calls.map (·.text) = examinedTexts policy e.events
  evidence : ∃ c ∈ pass.progress.calls, c.found ∨ c.swept bare
  noProse : uncoveredProsePresent e = false
  scanClean : ∃ entries, enc.entries (pass.rewritten policy (reconcileConsentDeclarations e))
      = .ok entries
    ∧ ∀ t ∈ Json.entryTexts entries, (bare.findings t).isClean

/-- The pass lowers the risk on findings of the sweep alone. -/
structure SweptAlone (bare : Redactor σ) (enc : Encoding) (policy : PiiClassifyPolicy)
    (e : TraceContributionEnvelope) (pass : Pass σ) : Prop where
  unfound : ∀ c ∈ pass.progress.calls, ¬ c.found
  swept : ∃ c ∈ pass.progress.calls, c.swept bare
  complete : pass.structuredComplete
  noProse : uncoveredProsePresent e = false
  scanClean : ∃ r, residualEnvelopeScan bare.findings enc
      (pass.rewritten policy (reconcileConsentDeclarations e)) = .ok r ∧ r.isClean
  lower : residualRisk (reconcileConsentDeclarations e).consent pass.progress.report
    < e.privacy.residualPiiRisk

/-- What the classifier pass may do to the recorded risk. -/
structure ProseRescrubSafe (bare : Redactor σ) (enc : Encoding) (adapter : PrivacyFilterAdapter)
    (policy : PiiClassifyPolicy) (e : TraceContributionEnvelope) : Prop where
  answered : ∀ pass, classifyEvents bare adapter policy e.events = .ok pass →
    ∀ i c, pass.progress.calls[i]? = some c → adapter i c.text = .ok c.answer
  lowered : proseRisk bare enc adapter policy e < e.privacy.residualPiiRisk →
    ∃ pass, classifyEvents bare adapter policy e.events = .ok pass
      ∧ LoweredOn bare enc policy e pass
  found : (proseRisk bare enc adapter policy e < e.privacy.residualPiiRisk →
      ∃ pass, classifyEvents bare adapter policy e.events = .ok pass
        ∧ ∃ c ∈ pass.progress.calls, c.found)
    ↔ ¬ ∃ pass, classifyEvents bare adapter policy e.events = .ok pass
      ∧ SweptAlone bare enc policy e pass
  scanFails : ∀ pass err, classifyEvents bare adapter policy e.events = .ok pass →
    residualEnvelopeScan bare.findings enc
      (pass.rewritten policy (reconcileConsentDeclarations e)) = .error err →
      proseRisk bare enc adapter policy e = .high
  survivor : ∀ pass entries, classifyEvents bare adapter policy e.events = .ok pass →
    enc.entries (pass.rewritten policy (reconcileConsentDeclarations e)) = .ok entries →
    (∃ t ∈ Json.entryTexts entries, (bare.findings t).blockedSecretDetected) →
      proseRisk bare enc adapter policy e = .high
  flaggedKey : ∀ pass, classifyEvents bare adapter policy e.events = .ok pass →
    (∃ c ∈ pass.progress.calls, c.part = .key ∧ c.found) →
      proseRisk bare enc adapter policy e = .high
  callFails : ∀ err, classifyEvents bare adapter policy e.events = .error err →
    (rescrubEnvelopeProsePiiWith bare enc adapter policy e).2 = .error err
      ∧ (rescrubEnvelopeProsePiiWith bare enc adapter policy e).1.events = e.events
      ∧ proseRisk bare enc adapter policy e = e.privacy.residualPiiRisk

section Prose

variable {pass : Pass σ}

theorem rescrub_of_error {err : TraceContributionError}
    (h : classifyEvents bare adapter policy e.events = .error err) :
    rescrubEnvelopeProsePiiWith bare enc adapter policy e
      = (reconcileConsentDeclarations e, .error err) := by
  rw [rescrubEnvelopeProsePiiWith]
  have hevents : classifyEvents bare adapter policy (reconcileConsentDeclarations e).events
      = .error err := h
  rw [hevents]

theorem exists_pass_of_lowered
    (hlt : proseRisk bare enc adapter policy e < e.privacy.residualPiiRisk) :
    ∃ pass, classifyEvents bare adapter policy e.events = .ok pass := by
  cases h : classifyEvents bare adapter policy e.events with
  | error err =>
    rw [proseRisk, rescrub_of_error h] at hlt
    exact absurd hlt (lt_irrefl _)
  | ok pass => exact ⟨pass, rfl⟩

/-- Where no key was flagged, the report is not empty if something was found. -/
theorem aggregateEmpty_eq (hkey : pass.progress.report.keyFindingDetected = false) :
    pass.aggregateEmpty = !pass.progress.report.hasFinding := by
  rw [Pass.aggregateEmpty, hkey, Bool.not_false, Bool.and_true]

section

variable (h : classifyEvents bare adapter policy e.events = .ok pass)

include h

theorem proseRisk_of_pass : proseRisk bare enc adapter policy e = (finishPass bare enc policy pass
    (reconcileConsentDeclarations e)).1.privacy.residualPiiRisk := by
  rw [proseRisk, rescrubEnvelopeProsePiiWith]
  have hevents : classifyEvents bare adapter policy (reconcileConsentDeclarations e).events
      = .ok pass := h
  rw [hevents]

/-- From an empty start, all that was reported comes from the calls of the pass. -/
theorem advances_events :
    Advances bare adapter { sweepState := bare.state } pass.progress pass.progress.calls := by
  obtain ⟨new, hnew, -⟩ := classified_events _ _ h
  obtain rfl : new = pass.progress.calls := by rw [hnew.calls, nil_append]
  exact hnew

theorem submitted_events (hcomplete : pass.structuredComplete) :
    pass.progress.calls.map (·.text) = examinedTexts policy e.events := by
  obtain ⟨new, hnew, htexts⟩ := classified_events _ _ h
  obtain rfl : new = pass.progress.calls := by rw [hnew.calls, nil_append]
  exact htexts hcomplete

theorem lowered_iff : proseRisk bare enc adapter policy e < e.privacy.residualPiiRisk ↔
      (pass.structuredComplete ∧ uncoveredProsePresent e = false) ∧ pass.aggregateEmpty = false ∧
        residualRisk (reconcileConsentDeclarations e).consent pass.progress.report
          < e.privacy.residualPiiRisk ∧
        ∃ r, residualEnvelopeScan bare.findings enc
          (pass.rewritten policy (reconcileConsentDeclarations e)) = .ok r ∧ r.isClean := by
  rw [proseRisk_of_pass h]
  refine resolve_lt_iff.trans (and_congr ?_ (and_congr_left' ?_))
  · rw [Bool.and_eq_true, Bool.not_eq_true']
    rfl
  · rw [Bool.not_eq_true']

theorem loweredOn (hlt : proseRisk bare enc adapter policy e < e.privacy.residualPiiRisk) :
    LoweredOn bare enc policy e pass := by
  obtain ⟨⟨hstructured, hprose⟩, huseful, hlow, r, hscan, hclean⟩ := (lowered_iff h).1 hlt
  obtain ⟨entries, hentries, hall, -⟩ := residualEnvelopeScan_spec hscan
  rw [aggregateEmpty_eq (residualRisk_lt hlow).1, Bool.not_eq_false'] at huseful
  refine ⟨submitted_events h hstructured, ?_, hprose, entries, hentries, ?_⟩
  · exact ((advances_events h).evidence huseful).resolve_left (by nofun)
  · exact all_eq_true.1 (hall.symm.trans hclean)

/-- Without a finding of the adapter, the risk falls exactly on findings of the sweep alone. -/
theorem sweptAlone_iff : SweptAlone bare enc policy e pass ↔
    proseRisk bare enc adapter policy e < e.privacy.residualPiiRisk ∧
      ∀ c ∈ pass.progress.calls, ¬ c.found := by
  constructor
  · intro hs
    refine ⟨(lowered_iff h).2 ⟨⟨hs.complete, hs.noProse⟩, ?_, hs.lower, hs.scanClean⟩, hs.unfound⟩
    rw [aggregateEmpty_eq (residualRisk_lt hs.lower).1, Bool.not_eq_false']
    exact (advances_events h).swept (.inr hs.swept)
  · rintro ⟨hlt, hunfound⟩
    obtain ⟨⟨hcomplete, hprose⟩, -, hlow, hscan⟩ := (lowered_iff h).1 hlt
    obtain ⟨c, hc, hfound⟩ := (loweredOn h hlt).evidence
    exact ⟨hunfound, ⟨c, hc, hfound.resolve_left (hunfound c hc)⟩, hcomplete, hprose, hscan, hlow⟩

end

theorem proseRescrubSafe : ProseRescrubSafe bare enc adapter policy e where
  answered := by
    intro _ h i c hc
    have hanswer := (advances_events h).answered i c hc
    rwa [length_nil, Nat.zero_add] at hanswer
  lowered := by
    intro hlt
    obtain ⟨pass, h⟩ := exists_pass_of_lowered hlt
    exact ⟨pass, h, loweredOn h hlt⟩
  found := by
    constructor
    · rintro hfound ⟨pass, h, hs⟩
      obtain ⟨hlt, hunfound⟩ := (sweptAlone_iff h).1 hs
      obtain ⟨pass', h', c, hc, hfound⟩ := hfound hlt
      obtain rfl : pass = pass' := Except.ok.inj (h.symm.trans h')
      exact hunfound c hc hfound
    · intro hnone hlt
      by_contra hunfound
      obtain ⟨pass, h⟩ := exists_pass_of_lowered hlt
      refine hnone ⟨pass, h, (sweptAlone_iff h).2 ⟨hlt, fun c hc hfound => ?_⟩⟩
      exact hunfound ⟨pass, h, c, hc, hfound⟩
  scanFails := by
    intro _ _ h hscan
    rw [proseRisk_of_pass h]
    exact resolve_of_error hscan
  survivor := by
    intro pass _ h hentries hsecret
    rw [proseRisk_of_pass h]
    cases hscan : residualEnvelopeScan _ enc _ with
    | error err => exact resolve_of_error hscan
    | ok r => exact resolve_of_forced hscan (.inr (scan_blocked hentries hscan hsecret))
  flaggedKey := by
    intro pass h hkey
    rw [proseRisk_of_pass h]
    cases hscan : residualEnvelopeScan _ enc _ with
    | error err => exact resolve_of_error hscan
    | ok r => exact resolve_of_forced hscan (.inl ((advances_events h).flagged (.inr hkey)))
  callFails := by
    intro _ h
    rw [proseRisk, rescrub_of_error h]
    exact ⟨rfl, rfl, rfl⟩

end Prose

/-- A redactor that knows one address. -/
def oneAddress : Redactor Unit where
  state := ()
  findings := fun text =>
    if contains text "ann@home.net" then ({} : RedactionReport).increment "private_email" else {}
  rewrite := fun text _ =>
    (if contains text "ann@home.net" then "mail <PRIVATE_EMAIL_1>" else text, ())
  redactJsonValue := fun _ value _ => ((value, {}), ())
  detectCorrectionCredentials := fun _ => {}

def plainEncoding : Encoding where
  shell := fun e => .ok [("events", .array []),
    ("labels", .array (e.privacy.piiLabelsPresent.map .string))]
  event := fun event => .ok (.object [("redacted_content",
    (event.redactedContent.map Json.string).getD .null), ("payload", event.structuredPayload)])
  canonicalize := id
  redactionHash := fun _ _ => ""

def oneMessage (content : String) : TraceContributionEnvelope where
  privacy := { residualPiiRisk := .high }
  events := [{ eventType := .userMessage, redactedContent := some content }]

/-- A classifier that takes the name out and says so. -/
def namesAnn : PrivacyFilterAdapter := fun _ _ =>
  .ok (some ⟨"mail <NAME_1>", { schemaVersion := 1 },
    ({} : RedactionReport).increment "private_person"⟩)

/-- A classifier that returns every text as it came, with no spans. -/
def alwaysEmptySpans : PrivacyFilterAdapter := fun _ text =>
  .ok (some ⟨text, { schemaVersion := 1 }, {}⟩)

end TraceCommons.Redaction
