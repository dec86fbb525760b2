import TraceCommons.Lib.Span
import TraceCommons.Redaction.Report

/-! # The secret step

Named patterns, the entropy sweep and both again over the text with adjacent literals joined give
ranges of the text, and the step replaces these. A range that merely overlaps one found before is
dropped as if it were covered, and so is a range that starts inside the one replaced before it. -/

namespace TraceCommons.Redaction

open List

/-! ## Texts -/

/-- `str::is_char_boundary`. -/
def isCharBoundary (text : List UInt8) (i : Nat) : Bool :=
  i = 0 ∨ i = text.length ∨ (text[i]?).any fun b => b < 0x80 ∨ 0xC0 ≤ b

/-- A range that a text can be sliced at. -/
structure InText (text : List UInt8) (s : Span) : Prop where
  le : s.start ≤ s.stop
  bound : s.stop ≤ text.length
  start : isCharBoundary text s.start = true
  stop : isCharBoundary text s.stop = true

/-- A detector that gives ranges of the text, in order and apart. -/
structure Matcher where
  find : List UInt8 → List Span
  inText : ∀ text, ∀ s ∈ find text, InText text s
  apart : ∀ text, (find text).Pairwise fun a b => a.stop ≤ b.start

inductive SecretLeakSeverity
  | high | critical
  deriving DecidableEq

structure SecretLeakPattern where
  name : String
  severity : SecretLeakSeverity
  regex : Matcher

structure SecretLeakMatch where
  patternName : String
  severity : SecretLeakSeverity
  location : Span

/-! ## Joined literals -/

/-- A run of the source that the joined text has. -/
structure Segment where
  viewStart : Nat
  sourceStart : Nat
  len : Nat

/-- The text with adjacent literals joined, and where its runs come from. -/
structure LiteralJoinView (source : List UInt8) where
  text : List UInt8
  segments : List Segment
  inSource : ∀ s ∈ segments, InText source ⟨s.sourceStart, s.sourceStart + s.len⟩
  aligned : ∀ s ∈ segments, ∀ i ≤ s.len, isCharBoundary text (s.viewStart + i) = true →
    isCharBoundary source (s.sourceStart + i) = true

namespace LiteralJoinView

variable {source : List UInt8}

/-- What of a range of the view lies in one run, in the source. -/
def mapSegment (range : Span) (s : Segment) : Option Span :=
  let low := max range.start s.viewStart
  let high := min range.stop (s.viewStart + s.len)
  if low ≥ high then none
  else some ⟨s.sourceStart + (low - s.viewStart), s.sourceStart + (high - s.viewStart)⟩

def mapRange (view : LiteralJoinView source) (range : Span) : List Span :=
  view.segments.filterMap (mapSegment range)

/-- The loop of `build` over the seams: the view's text and runs so far, and the end of the last
seam. -/
def buildLoop (source : List UInt8) :
    List UInt8 → List Segment → Nat → List Span → List UInt8 × List Segment
  | text, segments, lastEnd, [] =>
    let tail := source.drop lastEnd
    (text ++ tail, segments ++ [⟨text.length, lastEnd, tail.length⟩])
  | text, segments, lastEnd, seam :: seams =>
    let piece := (source.drop lastEnd).take (seam.start - lastEnd)
    buildLoop source (text ++ piece) (segments ++ [⟨text.length, lastEnd, piece.length⟩])
      seam.stop seams

structure Copied (source text : List UInt8) (s : Segment) : Prop where
  inSource : InText source ⟨s.sourceStart, s.sourceStart + s.len⟩
  inView : s.viewStart + s.len ≤ text.length
  same : ∀ i < s.len, text[s.viewStart + i]? = source[s.sourceStart + i]?

variable {text : List UInt8}

theorem Copied.append {s : Segment} (h : Copied source text s) (more : List UInt8) :
    Copied source (text ++ more) s := by
  refine ⟨h.inSource, ?_, fun i hi => ?_⟩
  · rw [length_append]
    exact Nat.le_add_right_of_le h.inView
  · have hview := h.inView
    rw [getElem?_append_left (by omega)]
    exact h.same i hi

theorem copied_new (text : List UInt8) (a len : Nat) (h : InText source ⟨a, a + len⟩) :
    Copied source (text ++ (source.drop a).take len) ⟨text.length, a, len⟩ := by
  have hbound : a + len ≤ source.length := h.bound
  refine ⟨h, ?_, fun i hi => ?_⟩
  · rw [length_append, length_take, length_drop, Nat.min_eq_left (by omega)]
  · rw [getElem?_append_right (Nat.le_add_right _ _), Nat.add_sub_cancel_left,
      getElem?_take_of_lt hi, getElem?_drop]

theorem buildLoop_copied {seams : List Span} {segments : List Segment} {lastEnd : Nat}
    (hseams : ∀ s ∈ seams, InText source s) (hapart : seams.Pairwise fun a b => a.stop ≤ b.start)
    (hfrom : ∀ s ∈ seams, lastEnd ≤ s.start) (hlast : lastEnd ≤ source.length)
    (hboundary : isCharBoundary source lastEnd = true) (h : ∀ s ∈ segments, Copied source text s) :
    ∀ s ∈ (buildLoop source text segments lastEnd seams).2,
      Copied source (buildLoop source text segments lastEnd seams).1 s := by
  induction seams generalizing text segments lastEnd with
  | nil =>
    intro s hs
    rcases mem_append.1 hs with hs | hs
    · exact (h s hs).append _
    obtain rfl := mem_singleton.1 hs
    have hlen : lastEnd + (source.drop lastEnd).length = source.length := by
      rw [length_drop]
      omega
    have hend : isCharBoundary source (lastEnd + (source.drop lastEnd).length) = true := by
      rw [hlen]
      exact decide_eq_true (.inr (.inl rfl))
    have hnew := copied_new text _ _ ⟨Nat.le_add_right _ _, hlen.le, hboundary, hend⟩
    rwa [take_length] at hnew
  | cons seam seams ih =>
    obtain ⟨hhead, htail⟩ := pairwise_cons.1 hapart
    have hseam := hseams _ (.head _)
    have hle := hfrom _ (.head _)
    have hlen : ((source.drop lastEnd).take (seam.start - lastEnd)).length =
        seam.start - lastEnd := by
      have hstop := hseam.le.trans hseam.bound
      rw [length_take, length_drop]
      omega
    refine ih (fun s hs => hseams s (.tail _ hs)) htail hhead hseam.bound hseam.stop ?_
    intro s hs
    rcases mem_append.1 hs with hs | hs
    · exact (h s hs).append _
    obtain rfl := mem_singleton.1 hs
    rw [hlen]
    refine copied_new _ _ _ ⟨Nat.le_add_right _ _, ?_, hboundary, ?_⟩
    · have hstop := hseam.le.trans hseam.bound
      exact (Nat.add_sub_cancel' hle).symm ▸ hstop
    · rw [Nat.add_sub_cancel' hle]
      exact hseam.start

/-- Inside a run both texts have the same bytes; at its ends the source can be sliced. -/
theorem Copied.aligned {s : Segment} (h : Copied source text s) (i : Nat) (hi : i ≤ s.len)
    (hview : isCharBoundary text (s.viewStart + i) = true) :
    isCharBoundary source (s.sourceStart + i) = true := by
  rcases Nat.eq_zero_or_pos i with rfl | _
  · exact h.inSource.start
  rcases Nat.lt_or_ge i s.len with hlt | hge
  · have hin := h.inView
    have hbyte : (text[s.viewStart + i]?).any (fun b => b < 0x80 ∨ 0xC0 ≤ b) = true := by
      simp only [isCharBoundary, decide_eq_true_eq] at hview
      rcases hview with _ | _ | hbyte
      · omega
      · omega
      · exact hbyte
    rw [h.same i hlt] at hbyte
    exact decide_eq_true (.inr (.inr hbyte))
  · rw [Nat.le_antisymm hi hge]
    exact h.inSource.stop

def build (seams : Matcher) (source : List UInt8) : Option (LiteralJoinView source) :=
  if (seams.find source).isEmpty then none
  else
    have copied : ∀ s ∈ (buildLoop source [] [] 0 (seams.find source)).2,
        Copied source (buildLoop source [] [] 0 (seams.find source)).1 s :=
      buildLoop_copied (seams.inText source) (seams.apart source) (fun _ _ => Nat.zero_le _)
        (Nat.zero_le _) rfl (by nofun)
    some {
      text := (buildLoop source [] [] 0 (seams.find source)).1
      segments := (buildLoop source [] [] 0 (seams.find source)).2
      inSource := fun s hs => (copied s hs).inSource
      aligned := fun s hs => (copied s hs).aligned }

theorem mapSegment_inText {view : LiteralJoinView source} {range piece : Span} {s : Segment}
    (hs : s ∈ view.segments) (hrange : InText view.text range)
    (h : mapSegment range s = some piece) : InText source piece ∧ piece.start < piece.stop := by
  have hin := view.inSource s hs
  have hbound : s.sourceStart + s.len ≤ source.length := hin.bound
  simp only [mapSegment] at h
  split at h
  · cases h
  cases h
  refine ⟨⟨by dsimp only; omega, by dsimp only; omega, ?_, ?_⟩, by dsimp only; omega⟩
  · rcases Nat.le_total _ _ with hle | hle
    · rw [Nat.max_eq_right hle, Nat.sub_self]
      exact hin.start
    · rw [Nat.max_eq_left hle]
      refine view.aligned s hs _ (by omega) ?_
      rw [Nat.add_sub_cancel' hle]
      exact hrange.start
  · rcases Nat.le_total _ _ with hle | hle
    · rw [Nat.min_eq_right hle, Nat.add_sub_cancel_left]
      exact hin.stop
    · rw [Nat.min_eq_left hle]
      refine view.aligned s hs _ (by omega) ?_
      rw [Nat.add_sub_cancel' (by omega)]
      exact hrange.stop

end LiteralJoinView

/-! ## The scan -/

def mergedRanges (ranges : List Span) : List Span :=
  match Span.sortByStart ranges with
  | [] => []
  | first :: rest => Span.mergeFrom first rest

/-- The merged ranges are in order, so the partition point is the first that ends after the probe
starts. -/
def overlapsMerged (merged : List Span) (probe : Span) : Bool :=
  match merged.dropWhile fun range => range.stop ≤ probe.start with
  | [] => false
  | range :: _ => range.start < probe.stop

/-- The detectors of the step, on any text. -/
structure Detectors where
  patterns : List SecretLeakPattern
  contextualEntropy : Matcher
  joinView : (text : List UInt8) → Option (LiteralJoinView text)

def isBlocking : SecretLeakSeverity → Bool
  | .high | .critical => true

def countFinding (report : RedactionReport) (label : String) (blocking : Bool) : RedactionReport :=
  ((report.increment "secret").increment ("secret:" ++ label)).block blocking

/-- A range of the view, the label it is counted under, and whether it blocks. -/
structure ViewFinding where
  range : Span
  label : String
  blocking : Bool

/-- The entropy pass. `rest` are the named ranges from the cursor on. -/
def entropyPass : List Span → List Span → List Span × RedactionReport →
    List Span × RedactionReport
  | _, [], acc => acc
  | rest, range :: more, (ranges, report) =>
    let rest := rest.dropWhile fun existing => existing.stop ≤ range.start
    let overlaps := (rest.takeWhile fun existing => existing.start < range.stop).any
      fun existing => range.start < existing.stop
    if overlaps then entropyPass rest more (ranges, report)
    else entropyPass rest more (ranges ++ [range], countFinding report "contextual_entropy" true)

/-- One finding of the joined text. What was covered is what the ranges so far cover. -/
def appendFinding {text : List UInt8} (view : LiteralJoinView text)
    (acc : List Span × RedactionReport) (finding : ViewFinding) : List Span × RedactionReport :=
  let pieces := (view.mapRange finding.range).filter fun piece =>
    !overlapsMerged (mergedRanges acc.1) piece
  if pieces.isEmpty then acc
  else (acc.1 ++ pieces,
    ((acc.2.increment "secret").increment ("secret:" ++ finding.label)).increment
      "secret:split_literal" |>.block finding.blocking)

namespace Detectors

variable (d : Detectors) (text : List UInt8)

def scan : List SecretLeakMatch :=
  (d.patterns.flatMap fun p => (p.regex.find text).map fun r => ⟨p.name, p.severity, r⟩).insertionSort
    fun a b => a.location.start ≤ b.location.start

/-- The named ranges, in order of their starts. -/
def named : List Span := (d.scan text).map (·.location)

def viewFindings (viewText : List UInt8) : List ViewFinding :=
  (d.scan viewText).map (fun m => ⟨m.location, m.patternName, isBlocking m.severity⟩) ++
    (d.contextualEntropy.find viewText).map fun r => ⟨r, "contextual_entropy", true⟩

def appendSplitLiteralRanges (acc : List Span × RedactionReport) : List Span × RedactionReport :=
  match d.joinView text with
  | none => acc
  | some view => (d.viewFindings view.text).foldl (appendFinding view) acc

def scanSecretRanges (report : RedactionReport) : List Span × RedactionReport :=
  let report := (d.scan text).foldl
    (fun report m => countFinding report m.patternName (isBlocking m.severity)) report
  d.appendSplitLiteralRanges text
    (entropyPass (d.named text) (d.contextualEntropy.find text) (d.named text, report))

/-- Every range that a detector gives for the text: the named matches, the entropy ranges, and the
pieces of the findings in the joined text. -/
def found : List Span :=
  d.named text ++ d.contextualEntropy.find text ++
    match d.joinView text with
    | none => []
    | some view => (d.viewFindings view.text).flatMap fun f => view.mapRange f.range

end Detectors

/-! ## The replacement -/

section Apply

variable {α : Type}

/-- `&input[a..b]`, which panics where the text cannot be sliced. -/
def slice (boundary : Nat → Bool) (input : List α) (a b : Nat) : Option (List α) :=
  if a ≤ b ∧ b ≤ input.length ∧ boundary a ∧ boundary b then some ((input.drop a).take (b - a))
  else none

/-- The loop over the sorted ranges: the result so far and the end of the last range replaced. -/
def applyLoop (boundary : Nat → Bool) (input replacement : List α) :
    List α → Nat → List Span → Option (List α)
  | result, lastEnd, [] => do
    let tail ← slice boundary input lastEnd input.length
    return result ++ tail
  | result, lastEnd, range :: ranges =>
    if range.start < lastEnd then applyLoop boundary input replacement result lastEnd ranges
    else do
      let before ← slice boundary input lastEnd range.start
      applyLoop boundary input replacement (result ++ before ++ replacement) range.stop ranges

/-- On bytes of any kind: bare ones, and ones that know where they came from. -/
def applyLabeledRanges (boundary : Nat → Bool) (input : List α) (ranges : List Span)
    (replacement : List α) : Option (List α) :=
  if ranges.isEmpty then some input
  else applyLoop boundary input replacement [] 0 (Span.sortByStart ranges)

end Apply

/-- A byte and the place it had in the text, if it was there. -/
abbrev Placed := UInt8 × Option Nat

def placed (text : List UInt8) : List Placed := text.zipIdx.map fun e => (e.1, some e.2)

/-- `[REDACTED]` -/
def redactedMark : List UInt8 := "[REDACTED]".toList.map fun c => c.toNat.toUInt8

/-- The secret step of `redact_text_with_state`. -/
def Detectors.secretStep (d : Detectors) (text : List UInt8) (report : RedactionReport) :
    Option (List UInt8) × RedactionReport :=
  let scanned := d.scanSecretRanges text report
  (applyLabeledRanges (isCharBoundary text) text scanned.1 redactedMark, scanned.2)

/-- The same step on the placed text. -/
def Detectors.trackedStep (d : Detectors) (text : List UInt8) (report : RedactionReport) :
    Option (List Placed) :=
  applyLabeledRanges (isCharBoundary text) (placed text) (d.scanSecretRanges text report).1
    (redactedMark.map fun b => (b, none))

end TraceCommons.Redaction
