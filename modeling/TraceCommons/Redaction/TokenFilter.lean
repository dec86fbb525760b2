import TraceCommons.Lib.Fold
import TraceCommons.Redaction.EditMap

/-! # Token distributions under redaction

A distribution records, token by token, what the model could have written. Filtering keeps the
tokens that no edit touches and moves their spans by what the edits before them have added and
removed. One cursor into the edits and one signed shift are enough: the sanitized text is what lies
before the cursor, moved by the shift, followed by the rest of the original with the rest of the
edits. -/

namespace TraceCommons.Redaction

open Splice List

/-! ## The source -/

inductive DistributionError
  | version
  | invalid
  | limit
  | alignment
  | digest
  | redaction
  deriving DecidableEq

def maxAttachmentBytes : Nat := 8 * 1024 * 1024

namespace ByteSpan

def within (s : ByteSpan) (len : Nat) : Bool := s.start < s.stop ∧ s.stop ≤ len

def range (s : ByteSpan) (len : Nat) : Except DistributionError Unit :=
  refuse (!s.within len) .alignment

def overlaps (s t : ByteSpan) : Bool := s.start < t.stop ∧ t.start < s.stop

def of (s : ByteSpan) (text : List UInt8) : List UInt8 := (text.drop s.start).take (s.stop - s.start)

end ByteSpan

/-- Log probabilities over an opaque type of floats. -/
inductive LogProbability (F : Type)
  | finite (value : F)
  | negativeInfinity
  | unavailable

structure TokenValue (F : Type) where
  bytes : List UInt8
  tokenId : Option Nat
  logprob : LogProbability F

structure TokenRecord (F : Type) where
  index : Nat
  span : ByteSpan
  chosen : TokenValue F
  alternatives : List (TokenValue F)
  returnedAlternatives : Nat

abbrev SanitizedTokenRecord := TokenRecord

inductive ProbabilitySemantics
  | preSampling
  | processed
  | unknown

inductive Conditioning
  | original
  | outboundSubstituted
  | unknown

/-- What an attachment takes over from its distribution. -/
structure TokenHeader where
  captureStoreId : String
  exchangeId : String
  eventId : String
  choice : Nat
  segment : Nat
  requestedModel : String
  servedModel : Option String
  tokenizer : Option String
  semantics : ProbabilitySemantics
  conditioning : Conditioning

structure TokenDistribution (F : Type) extends TokenHeader where
  version : Nat
  requestedAlternatives : Nat
  responseDigest : String
  records : List (TokenRecord F)

/-- The fields of `TokenMetadata` that the filter fills in. -/
structure TokenMetadata where
  requestedAlternatives : Option Nat
  redactedRecords : Nat := 0
  redactedAlternatives : Nat := 0
  unsupportedRecords : Nat := 0
  providerTruncatedAlternatives : Nat

structure SanitizedTokenAttachment (F : Type) extends TokenHeader where
  metadata : TokenMetadata
  version : Nat
  responseDigest : String
  policyVersion : String
  records : List (SanitizedTokenRecord F) := []
  omittedRecords : Nat := 0
  omittedAlternatives : Nat := 0

def identifier (value : String) : Except DistributionError Unit :=
  refuse (value.length = 0 ∨ 256 < value.length ∨
    ¬ value.toList.all fun c => c.isAlphanum || "-_.:/".toList.contains c) .invalid

section Source

variable {F : Type} (admissible : F → Bool) (digest : List UInt8 → String)

def TokenValue.validate (v : TokenValue F) : Except DistributionError Unit := do
  refuse (v.bytes.length = 0 ∨ 65536 < v.bytes.length) .limit
  match v.logprob with
  | .finite value => refuse (!admissible value) .invalid
  | _ => .ok ()

/-- The loop of `validate` at one record, with the end of the one before it and the payload. -/
def validateRecord (response : List UInt8) (state : Nat × Nat) (entry : TokenRecord F × Nat) :
    Except DistributionError (Nat × Nat) := do
  let (record, index) := entry
  record.span.range response.length
  refuse (record.index ≠ index ∨ record.span.start ≠ state.1 ∨
    record.chosen.bytes ≠ record.span.of response) .alignment
  record.chosen.validate admissible
  let payload := state.2 + record.chosen.bytes.length +
    (record.alternatives.map (·.bytes.length)).sum
  refuse (maxAttachmentBytes < payload) .limit
  refuse (20 < record.alternatives.length ∨
    record.returnedAlternatives < record.alternatives.length) .limit
  record.alternatives.forM (·.validate admissible)
  return (record.span.stop, payload)

def TokenDistribution.validate (d : TokenDistribution F) (response : List UInt8) :
    Except DistributionError Unit := do
  refuse (d.version ≠ 1) .version
  refuse (maxAttachmentBytes < response.length) .limit
  [d.captureStoreId, d.exchangeId, d.eventId, d.requestedModel].forM identifier
  (d.servedModel.toList ++ d.tokenizer.toList).forM identifier
  refuse (20 < d.requestedAlternatives ∨ 131072 < d.records.length) .limit
  refuse (d.responseDigest ≠ digest response) .digest
  let (stop, _) ← d.records.zipIdx.foldlM (validateRecord admissible response) (0, 0)
  refuse (stop ≠ response.length) .alignment

/-- The loop that applies the edits: what it has rebuilt, and the cursor. -/
def reconstruct (original : List UInt8) (state : List UInt8 × Nat) (edit : RedactionEdit) :
    Except DistributionError (List UInt8 × Nat) := do
  refuse (!edit.original.within original.length) .redaction
  refuse (edit.original.start < state.2) .redaction
  refuse (maxAttachmentBytes <
    state.1.length + (edit.original.start - state.2) + edit.replacement.length) .limit
  return (state.1 ++ (original.drop state.2).take (edit.original.start - state.2) ++
    edit.replacement, edit.original.stop)

/-- The edits that end before a record are passed and their shifts added up. -/
def advance (start : Nat) : List RedactionEdit → Int → List RedactionEdit × Int
  | [], shift => ([], shift)
  | e :: es, shift =>
    if e.original.stop ≤ start then
      advance start es
        (shift + ((e.replacement.length : Int) - (e.original.stop - e.original.start : Nat)))
    else (e :: es, shift)

/-- The variables of the loop over the records. -/
structure Filter (F : Type) where
  rest : List RedactionEdit
  shift : Int
  output : SanitizedTokenAttachment F

def u64 (x : Int) : Except DistributionError Nat :=
  if 0 ≤ x ∧ x < 2 ^ 64 then .ok x.toNat else .error .redaction

/-- The span of a record in the sanitized text, which must hold the chosen bytes. -/
def movedSpan (sanitized : List UInt8) (record : TokenRecord F) (shift : Int) :
    Except DistributionError ByteSpan := do
  let start ← u64 (record.span.start + shift)
  let stop ← u64 (record.span.stop + shift)
  let span : ByteSpan := ⟨start, stop⟩
  span.range sanitized.length
  refuse (span.of sanitized ≠ record.chosen.bytes) .redaction
  return span

/-- The loop at one record. The callback is asked once for a position, so that what it answers is
a function of the position. -/
def filterRecord (sanitized : List UInt8) (screen : Nat → Option (List Bool)) (st : Filter F)
    (entry : TokenRecord F × Nat) : Except DistributionError (Filter F) :=
  let (record, position) := entry
  let (rest, shift) := advance record.span.start st.rest st.shift
  let out := st.output
  let alternatives := record.alternatives.length
  if rest.head?.any (·.original.overlaps record.span) then
    .ok ⟨rest, shift, { out with
      omittedRecords := out.omittedRecords + 1
      metadata := { out.metadata with
        redactedRecords := out.metadata.redactedRecords + 1
        redactedAlternatives := out.metadata.redactedAlternatives + alternatives }
      omittedAlternatives := out.omittedAlternatives + alternatives }⟩
  else match (screen position).filter (·.length = alternatives) with
  | none => .ok ⟨rest, shift, { out with
      metadata := { out.metadata with
        unsupportedRecords := out.metadata.unsupportedRecords + 1 }
      omittedRecords := out.omittedRecords + 1
      omittedAlternatives := out.omittedAlternatives + alternatives }⟩
  | some keep => do
    let span ← movedSpan sanitized record shift
    let dropped := (record.alternatives.zip keep).countP fun a => !a.2
    return ⟨rest, shift, { out with
      metadata := { out.metadata with
        redactedAlternatives := out.metadata.redactedAlternatives + dropped }
      omittedAlternatives := out.omittedAlternatives + dropped
      records := out.records ++ [
        { index := out.records.length, span, chosen := record.chosen
          alternatives := ((record.alternatives.zip keep).filter (·.2)).map (·.1)
          returnedAlternatives := record.returnedAlternatives }] }⟩

/-- The output before the loop over the records. -/
def SanitizedTokenAttachment.new (source : TokenDistribution F) (sanitized : List UInt8)
    (policyVersion : String) : SanitizedTokenAttachment F :=
  { source.toTokenHeader with
    metadata :=
      { requestedAlternatives := some source.requestedAlternatives
        providerTruncatedAlternatives := (source.records.map fun r =>
          r.returnedAlternatives - r.alternatives.length).sum }
    version := 1
    responseDigest := digest sanitized
    policyVersion }

def filterWithEdits (source : TokenDistribution F) (original sanitized : List UInt8)
    (edits : List RedactionEdit) (policyVersion : String) (screen : Nat → Option (List Bool)) :
    Except DistributionError (SanitizedTokenAttachment F) := do
  source.validate admissible digest original
  refuse (16384 < edits.length ∨ maxAttachmentBytes < sanitized.length) .limit
  identifier policyVersion
  let (reconstructed, cursor) ← edits.foldlM (reconstruct original) ([], 0)
  refuse (maxAttachmentBytes < reconstructed.length + (original.length - cursor)) .limit
  refuse (reconstructed ++ original.drop cursor ≠ sanitized) .redaction
  let st ← source.records.zipIdx.foldlM (filterRecord sanitized screen)
    ⟨edits, 0, .new digest source sanitized policyVersion⟩
  return st.output

end Source

/-! ## What the checks establish -/

section Checks

variable {F : Type} {admissible : F → Bool} {digest : List UInt8 → String}
  {original sanitized : List UInt8} {edits : List RedactionEdit}

/-- Where the records end, from `c` on. -/
def reached (c : Nat) (l : List (TokenRecord F × Nat)) : Nat :=
  (l.getLast?.map (·.1.span.stop)).getD c

/-- The records lie end to end and hold their bytes of the text. -/
def Aligned (text : List UInt8) (c : Nat) (l : List (TokenRecord F × Nat)) : Prop :=
  ∀ pre e post, l = pre ++ e :: post → e.1.span.start = reached c pre ∧
    e.1.span.start < e.1.span.stop ∧ e.1.span.stop ≤ text.length ∧
    e.1.chosen.bytes = e.1.span.of text

theorem ByteSpan.within_iff {s : ByteSpan} {len : Nat} :
    (!s.within len) = false ↔ s.start < s.stop ∧ s.stop ≤ len := by
  simp [ByteSpan.within]

theorem aligned_of_validate {l : List (TokenRecord F × Nat)} {st st' : Nat × Nat}
    (h : l.foldlM (validateRecord admissible original) st = .ok st') :
    Aligned original st.1 l := by
  induction l generalizing st with
  | nil =>
    intro _ e _ hl
    simp at hl
  | cons a l ih =>
    rw [foldlM_cons, bind_eq_ok] at h
    obtain ⟨st1, hstep, hrest⟩ := h
    simp only [validateRecord, bind_eq_ok, refuse_eq_ok, ByteSpan.range,
      ByteSpan.within_iff] at hstep
    obtain ⟨-, hrange, -, halign, -, -, -, -, -, -, -, -, hst⟩ := hstep
    obtain rfl : (a.1.span.stop, _) = st1 := Except.ok.inj hst
    simp only [decide_eq_false_iff_not, not_or, not_not] at halign
    intro pre e post hl
    cases pre with
    | nil =>
      obtain ⟨rfl, -⟩ := List.cons.inj hl
      exact ⟨halign.2.1, hrange.1, hrange.2, halign.2.2⟩
    | cons b pre =>
      obtain ⟨rfl, hl'⟩ := List.cons.inj hl
      have hsound := ih hrest pre e _ hl'
      have hreached : reached st.1 (a :: pre) = reached a.1.span.stop pre := by
        cases hlast : pre.getLast? <;> simp [reached, getLast?_cons, hlast]
      rwa [hreached]

theorem splice_of_reconstruct {st st' : List UInt8 × Nat}
    (h : edits.foldlM (reconstruct original) st = .ok st') :
    Ordered original.length st.2 (edits.map (·.cut)) ∧
      st'.1 ++ original.drop st'.2 = st.1 ++ splice original st.2 (edits.map (·.cut)) := by
  induction edits generalizing st with
  | nil =>
    obtain rfl : st = st' := Except.ok.inj h
    exact ⟨trivial, rfl⟩
  | cons e edits ih =>
    rw [foldlM_cons, bind_eq_ok] at h
    obtain ⟨_, hstep, hrest⟩ := h
    simp only [reconstruct, bind_eq_ok, refuse_eq_ok, ByteSpan.within_iff,
      decide_eq_false_iff_not, Nat.not_lt] at hstep
    obtain ⟨-, hrange, -, hcursor, -, -, hst1⟩ := hstep
    obtain rfl := Except.ok.inj hst1
    obtain ⟨hord, htext⟩ := ih hrest
    refine ⟨⟨hcursor, Nat.le_of_lt hrange.1, hrange.2, hord⟩, ?_⟩
    rw [htext, map_cons, splice]
    simp [RedactionEdit.cut]

end Checks

/-! ## The walk over the edits -/

section Walk

variable {F : Type} {original sanitized : List UInt8} {edits rest : List RedactionEdit} {c s : Nat}
  {shift : Int}

/-- The edits passed end at `c`, and from there on the sanitized text is the rest of the original
with the rest of the edits. -/
structure At (original sanitized : List UInt8) (edits : List RedactionEdit) (c : Nat) (shift : Int)
    (rest : List RedactionEdit) : Prop where
  ordered : Ordered original.length c (rest.map (·.cut))
  passed : ∀ e ∈ edits, e ∈ rest ∨ e.original.stop ≤ c
  subset : rest ⊆ edits
  place : ∃ pre, sanitized = pre ++ splice original c (rest.map (·.cut)) ∧
    (pre.length : Int) = c + shift

theorem At.advance (h : At original sanitized edits c shift rest) (hc : c ≤ s) :
    ∃ c', At original sanitized edits c' (advance s rest shift).2 (advance s rest shift).1 ∧
      c' ≤ s ∧ c + shift ≤ c' + (Redaction.advance s rest shift).2 ∧
      ∀ e ∈ (Redaction.advance s rest shift).1.head?, s < e.original.stop := by
  induction rest generalizing c shift with
  | nil => exact ⟨c, h, hc, Int.le_refl _, nofun⟩
  | cons e rest ih =>
    rw [Redaction.advance]
    split
    next hpass =>
      obtain ⟨hstart, hstop, hn, hord⟩ := h.ordered
      obtain ⟨pre, htext, _⟩ := h.place
      simp only [RedactionEdit.cut] at hstart hstop hn hord
      have hpassed : At original sanitized edits e.original.stop
          (shift + (e.replacement.length - (e.original.stop - e.original.start : Nat)))
          rest := by
        refine ⟨hord, fun k hk => ?_, fun k hk => h.subset (.tail _ hk),
          pre ++ (original.drop c).take (e.original.start - c) ++ e.replacement, ?_, ?_⟩
        · rcases h.passed k hk with hk | hk
          · rcases mem_cons.1 hk with rfl | hk
            · exact .inr (Nat.le_refl _)
            · exact .inl hk
          · exact .inr (by omega)
        · rw [htext, map_cons, splice]
          simp [RedactionEdit.cut]
        · simp only [length_append, length_take, length_drop]
          omega
      obtain ⟨c', hat, hle, _, hnext⟩ := ih hpassed hpass
      exact ⟨c', hat, hle, by omega, hnext⟩
    next hlast =>
      refine ⟨c, h, hc, Int.le_refl _, fun k hk => ?_⟩
      obtain rfl := Option.some.inj hk
      exact Nat.lt_of_not_le hlast

variable {t : ByteSpan}

section

variable (h : At original sanitized edits c shift rest)

include h

/-- If the next edit leaves a span alone, so do all the edits to come. -/
theorem At.free (hnext : ∀ e ∈ rest.head?, t.start < e.original.stop)
    (hhead : rest.head?.any (·.original.overlaps t) = false) :
    Ordered original.length t.stop (rest.map (·.cut)) := by
  cases rest with
  | nil => trivial
  | cons e rest =>
    refine ⟨?_, h.ordered.2⟩
    have hpast := hnext e rfl
    simp only [head?_cons, Option.any_some, ByteSpan.overlaps, decide_eq_false_iff_not] at hhead
    simp only [RedactionEdit.cut]
    omega

theorem At.any_overlaps (hc : c ≤ t.start) (hnext : ∀ e ∈ rest.head?, t.start < e.original.stop) :
    edits.any (·.original.overlaps t) = rest.head?.any (·.original.overlaps t) := by
  cases hhead : rest.head?.any _ with
  | true =>
    obtain ⟨e, he, hover⟩ := (Option.any_eq_true _ _).1 hhead
    exact any_eq_true.2 ⟨e, h.subset (mem_of_mem_head? he), hover⟩
  | false =>
    refine any_eq_false.2 fun e he hover => ?_
    simp only [ByteSpan.overlaps, decide_eq_true_eq] at hover
    rcases h.passed e he with hrest | _
    · have hbounds := (h.free hnext hhead).bounds _ (mem_map_of_mem hrest)
      simp only [RedactionEdit.cut] at hbounds
      omega
    · omega

/-- A record that no edit touches is found in the sanitized text, moved by the shift. -/
theorem At.keep {r : TokenRecord F} (hc : c ≤ r.span.start) (hlt : r.span.start < r.span.stop)
    (hn : r.span.stop ≤ original.length) (hbytes : r.chosen.bytes = r.span.of original)
    (hsmall : sanitized.length ≤ maxAttachmentBytes)
    (hord : Ordered original.length r.span.stop (rest.map (·.cut))) :
    At original sanitized edits r.span.stop shift rest ∧ ∃ span : ByteSpan,
      movedSpan sanitized r shift = .ok span ∧ (span.start : Int) = r.span.start + shift ∧
      (span.stop : Int) = r.span.stop + shift ∧ span.stop ≤ sanitized.length ∧
      span.of sanitized = r.chosen.bytes := by
  obtain ⟨pre, htext, _⟩ := h.place
  have hle := Nat.le_of_lt hlt
  have hskip : splice original c (rest.map (·.cut)) = (original.drop c).take (r.span.start - c) ++
      (r.chosen.bytes ++ splice original r.span.stop (rest.map (·.cut))) := by
    rw [splice_skip (hord.mono hle) hc, splice_skip hord hle, hbytes, ByteSpan.of]
  rw [hskip] at htext
  have hbefore : ((original.drop c).take (r.span.start - c)).length = r.span.start - c := by
    rw [length_take, length_drop]
    omega
  have hspan : r.chosen.bytes.length = r.span.stop - r.span.start := by
    rw [hbytes, ByteSpan.of, length_take, length_drop]
    omega
  have hend : pre.length + (r.span.start - c) + (r.span.stop - r.span.start) ≤
      sanitized.length := by
    simp only [htext, length_append]
    omega
  have hfound : ByteSpan.of ⟨pre.length + (r.span.start - c), pre.length + (r.span.stop - c)⟩
      sanitized = r.chosen.bytes := by
    have hsize : pre.length + (r.span.stop - c) - (pre.length + (r.span.start - c)) =
        r.chosen.bytes.length := by omega
    rw [ByteSpan.of, hsize, htext, ← append_assoc,
      drop_left' (by rw [length_append, hbefore]), take_left' rfl]
  refine ⟨⟨hord, fun e he => (h.passed e he).imp_right (by omega), h.subset,
    pre ++ (original.drop c).take (r.span.start - c) ++ r.chosen.bytes, ?_, ?_⟩,
    ⟨_, _⟩, ?_, ?_, ?_, ?_, hfound⟩
  · simp [htext]
  · simp only [length_append]
    omega
  · have hmax : maxAttachmentBytes < 2 ^ 63 := by decide
    have hstart : u64 (r.span.start + shift) = .ok (pre.length + (r.span.start - c)) := by
      rw [u64, if_pos (by omega)]
      exact congrArg _ (by omega)
    have hstop : u64 (r.span.stop + shift) = .ok (pre.length + (r.span.stop - c)) := by
      rw [u64, if_pos (by omega)]
      exact congrArg _ (by omega)
    simp only [movedSpan, hstart, hstop, bind_eq_ok, refuse_eq_ok, ByteSpan.range,
      ByteSpan.within_iff, Except.ok.injEq, exists_eq_left', hfound]
    refine ⟨⟨⟩, ⟨by omega, by omega⟩, ⟨⟩, by simp, rfl⟩
  all_goals
    dsimp only
    omega

end

end Walk

/-! ## The filter -/

section Records

variable {F : Type} {admissible : F → Bool} {digest : List UInt8 → String}
  {original sanitized : List UInt8} {edits : List RedactionEdit} {screen : Nat → Option (List Bool)}
  {l : List (TokenRecord F × Nat)} {e : TokenRecord F × Nat}

/-- The mask of a record that no edit touches and that was screened with a mask of its length. -/
def maskOf (edits : List RedactionEdit) (screen : Nat → Option (List Bool))
    (e : TokenRecord F × Nat) : Option (TokenRecord F × List Bool) :=
  if edits.any (·.original.overlaps e.1.span) then none
  else ((screen e.2).filter (·.length = e.1.alternatives.length)).map (e.1, ·)

/-- An output record: its span has the chosen bytes in the sanitized text, and its alternatives are
those the mask keeps. -/
structure Keeps (sanitized : List UInt8) (k : TokenRecord F × List Bool)
    (r : SanitizedTokenRecord F) : Prop where
  inside : r.span.start < r.span.stop ∧ r.span.stop ≤ sanitized.length
  bytes : r.span.of sanitized = k.1.chosen.bytes
  chosen : r.chosen = k.1.chosen
  alternatives : r.alternatives = ((k.1.alternatives.zip k.2).filter (·.2)).map (·.1)
  returned : r.returnedAlternatives = k.1.returnedAlternatives

/-- What the filter has made of some records. -/
structure Filtered (sanitized : List UInt8) (edits : List RedactionEdit)
    (screen : Nat → Option (List Bool)) (l : List (TokenRecord F × Nat))
    (out : SanitizedTokenAttachment F) : Prop where
  records : List.Forall₂ (Keeps sanitized) (l.filterMap (maskOf edits screen)) out.records
  disjoint : out.records.Pairwise fun a b => a.span.stop ≤ b.span.start
  index : out.records.map (·.index) = List.range out.records.length
  conserved : out.omittedRecords + out.records.length = l.length
  alternatives : out.omittedAlternatives + (out.records.map (·.alternatives.length)).sum =
    (l.map (·.1.alternatives.length)).sum

/-- One more record, for which `new` is put out and the rest is counted as omitted. -/
theorem Filtered.step {out out' : SanitizedTokenAttachment F} {new : List (SanitizedTokenRecord F)}
    (h : Filtered sanitized edits screen l out) (hrecords : out'.records = out.records ++ new)
    (hnew : List.Forall₂ (Keeps sanitized) (maskOf edits screen e).toList new)
    (hdisjoint : (out.records ++ new).Pairwise fun a b => a.span.stop ≤ b.span.start)
    (hindex : new.map (·.index) = range' out.records.length new.length)
    (homitted : out'.omittedRecords + new.length = out.omittedRecords + 1)
    (halternatives : out'.omittedAlternatives + (new.map (·.alternatives.length)).sum =
      out.omittedAlternatives + e.1.alternatives.length) :
    Filtered sanitized edits screen (l ++ [e]) out' := by
  have hconserved := h.conserved
  have hsum := h.alternatives
  constructor
  · rw [hrecords, filterMap_append]
    refine rel_append h.records ?_
    cases hmask : maskOf edits screen e <;> simpa [hmask] using hnew
  · exact hrecords ▸ hdisjoint
  · rw [hrecords, map_append, h.index, hindex, length_append, range_eq_range',
      range_eq_range', ← range'_append_1, Nat.zero_add]
  · rw [hrecords, length_append, length_append, length_singleton]
    omega
  · rw [hrecords, map_append, map_append, sum_append, sum_append, map_singleton, sum_singleton]
    omega

theorem kept_add_dropped {α : Type} {alternatives : List α} {keep : List Bool}
    (h : keep.length = alternatives.length) :
    (alternatives.zip keep).countP (fun a => !a.2) +
      (((alternatives.zip keep).filter (·.2)).map (·.1)).length = alternatives.length := by
  have hsplit := length_eq_countP_add_countP (·.2) (l := alternatives.zip keep)
  rw [length_zip, h] at hsplit
  rw [length_map, ← countP_eq_length_filter, Nat.add_comm]
  simpa using hsplit.symm

/-- The loop's invariant: the walk stands at some place before the record to come, and what was kept
lies before it. -/
def Walked (original sanitized : List UInt8) (edits : List RedactionEdit)
    (screen : Nat → Option (List Bool)) (l : List (TokenRecord F × Nat)) (st : Filter F) : Prop :=
  ∃ c, At original sanitized edits c st.shift st.rest ∧ c ≤ reached 0 l ∧
    (∀ r ∈ st.output.records, (r.span.stop : Int) ≤ c + st.shift) ∧
    Filtered sanitized edits screen l st.output

theorem filterRecord_walked {st : Filter F} (h : Walked original sanitized edits screen l st)
    (hsmall : sanitized.length ≤ maxAttachmentBytes) (hstart : e.1.span.start = reached 0 l)
    (hlt : e.1.span.start < e.1.span.stop) (hstop : e.1.span.stop ≤ original.length)
    (hbytes : e.1.chosen.bytes = e.1.span.of original) :
    ∃ st', filterRecord sanitized screen st e = .ok st' ∧
      Walked original sanitized edits screen (l ++ [e]) st' := by
  obtain ⟨c, hat, hc, hbefore, hfiltered⟩ := h
  obtain ⟨c', hat', hc', hmono, hnext⟩ := hat.advance (hstart ▸ hc)
  have hreached : reached 0 (l ++ [e]) = e.1.span.stop := by simp [reached]
  have hbefore' : ∀ r ∈ st.output.records,
      (r.span.stop : Int) ≤ c' + (advance e.1.span.start st.rest st.shift).2 :=
    fun r hr => Int.le_trans (hbefore r hr) hmono
  have hany := hat'.any_overlaps hc' hnext
  have hskip : ∀ {out : SanitizedTokenAttachment F}, maskOf edits screen e = none →
      out.records = st.output.records → out.omittedRecords = st.output.omittedRecords + 1 →
      out.omittedAlternatives = st.output.omittedAlternatives + e.1.alternatives.length →
      Filtered sanitized edits screen (l ++ [e]) out := by
    intro out hnone hrecords homitted halternatives
    have hnil : out.records = st.output.records ++ [] := by rw [hrecords, append_nil]
    refine hfiltered.step hnil (by simp [hnone]) ?_ rfl homitted halternatives
    simpa using hfiltered.disjoint
  unfold filterRecord
  simp only
  split
  next hover =>
    have hnone : maskOf edits screen e = none := by rw [maskOf, hany, if_pos hover]
    exact ⟨_, rfl, c', hat', by omega, hbefore', hskip hnone rfl rfl rfl⟩
  next hfree =>
    have hmask : maskOf edits screen e =
        ((screen e.2).filter (·.length = e.1.alternatives.length)).map (e.1, ·) := by
      rw [maskOf, hany, if_neg hfree]
    split
    next hscreen =>
      rw [hscreen] at hmask
      exact ⟨_, rfl, c', hat', by omega, hbefore', hskip hmask rfl rfl rfl⟩
    next keep hscreen =>
      rw [hscreen] at hmask
      have hlen : keep.length = e.1.alternatives.length :=
        of_decide_eq_true (Option.filter_eq_some_iff.1 hscreen).2
      obtain ⟨hkept, span, hmoved, _, hspan', hend, hfound⟩ :=
        hat'.keep hc' hlt hstop hbytes hsmall (hat'.free hnext (Bool.eq_false_iff.2 hfree))
      have hfrom : ∀ a ∈ st.output.records, a.span.stop ≤ span.start := by
        intro a ha
        have := hbefore' a ha
        omega
      rw [hmoved]
      refine ⟨_, rfl, e.1.span.stop, hkept, by omega, ?_, hfiltered.step rfl ?_ ?_ rfl rfl ?_⟩
      · simp only [mem_append, mem_singleton]
        rintro a (ha | rfl)
        · have := hbefore' a ha
          omega
        · exact Int.le_of_eq hspan'
      · rw [hmask]
        exact .cons ⟨⟨(by omega : span.start < span.stop), hend⟩, hfound, rfl, rfl, rfl⟩ .nil
      · refine pairwise_append.2 ⟨hfiltered.disjoint, pairwise_singleton _ _, ?_⟩
        exact fun a ha b hb => mem_singleton.1 hb ▸ hfrom a ha
      · rw [map_singleton, sum_singleton, Nat.add_assoc, kept_add_dropped hlen]

theorem filterRecords_walked {out : SanitizedTokenAttachment F} {reconstructed : List UInt8}
    {cursor : Nat} (haligned : Aligned original 0 l) (hsmall : sanitized.length ≤ maxAttachmentBytes)
    (hedits : edits.foldlM (reconstruct original) ([], 0) = .ok (reconstructed, cursor))
    (htext : reconstructed ++ original.drop cursor = sanitized)
    (hout : Filtered sanitized edits screen [] out) (hnone : out.records = []) :
    ∃ st, l.foldlM (filterRecord sanitized screen) ⟨edits, 0, out⟩ = .ok st ∧
      Filtered sanitized edits screen l st.output := by
  obtain ⟨hord, hsplice⟩ := splice_of_reconstruct hedits
  have hstart : Walked original sanitized edits screen [] ⟨edits, 0, out⟩ := by
    refine ⟨0, ⟨hord, fun e he => .inl he, fun _ => id, [], ?_, rfl⟩, Nat.zero_le _, ?_, hout⟩
    · exact htext.symm.trans hsplice
    · simp [hnone]
  have hstep : ∀ pre e post st, pre ++ e :: post = l →
      Walked original sanitized edits screen pre st → ∃ st', filterRecord sanitized screen st e =
        .ok st' ∧ Walked original sanitized edits screen (pre ++ [e]) st' := by
    intro pre e post st hl h
    obtain ⟨hstart, hlt, hstop, hbytes⟩ := haligned pre e _ hl.symm
    exact filterRecord_walked h hsmall hstart hlt hstop hbytes
  obtain ⟨st, hst, -, -, -, -, hfiltered⟩ := foldlM_total _ _ hstep hstart
  exact ⟨st, hst, hfiltered⟩

/-- Filtering puts out exactly the records that no edit touches and that were screened with a mask
of their length, each at its place in the sanitized text, and counts the others; and it succeeds
whenever its checks of the distribution, the limits and the edits do. -/
theorem filter_with_edits_exact (source : TokenDistribution F) (original sanitized : List UInt8)
    (edits : List RedactionEdit) (policyVersion : String) (screen : Nat → Option (List Bool))
    (hvalid : source.validate admissible digest original = .ok ()) :
    (∀ out, filterWithEdits admissible digest source original sanitized edits policyVersion screen =
        .ok out → Filtered sanitized edits screen source.records.zipIdx out) ∧
    (edits.length ≤ 16384 → sanitized.length ≤ maxAttachmentBytes →
      identifier policyVersion = .ok () → ∀ reconstructed cursor,
      edits.foldlM (reconstruct original) ([], 0) = .ok (reconstructed, cursor) →
      reconstructed ++ original.drop cursor = sanitized →
      ∃ out, filterWithEdits admissible digest source original sanitized edits policyVersion screen =
        .ok out) := by
  have haligned : Aligned original 0 source.records.zipIdx := by
    simp only [TokenDistribution.validate, bind_eq_ok] at hvalid
    obtain ⟨-, -, -, -, -, -, -, -, -, -, -, -, st, hloop, -⟩ := hvalid
    exact aligned_of_validate hloop
  have hnew : Filtered sanitized edits screen []
      (.new digest source sanitized policyVersion) := by
    constructor <;> simp [SanitizedTokenAttachment.new]
  constructor
  · intro _ h
    simp only [filterWithEdits, bind_eq_ok, refuse_eq_ok, decide_eq_false_iff_not, not_or,
      Nat.not_lt, not_not] at h
    obtain ⟨-, -, -, hlimits, -, -, _, hedits, -, -, -, htext, st, hst, hout⟩ := h
    obtain ⟨_, hst', hfiltered⟩ :=
      filterRecords_walked haligned hlimits.2 hedits htext hnew rfl
    obtain rfl := Except.ok.inj (hst'.symm.trans hst)
    obtain rfl := Except.ok.inj hout
    exact hfiltered
  · intro hcount hsmall hpolicy reconstructed cursor hedits htext
    have hlen : reconstructed.length + (original.length - cursor) = sanitized.length := by
      rw [← htext, length_append, length_drop]
    obtain ⟨st, hst, -⟩ := filterRecords_walked haligned hsmall hedits htext hnew rfl
    refine ⟨st.output, ?_⟩
    simp only [filterWithEdits, bind_eq_ok, refuse_eq_ok, decide_eq_false_iff_not, not_or,
      Nat.not_lt, not_not]
    exact ⟨_, hvalid, ⟨⟩, ⟨hcount, hsmall⟩, ⟨⟩, hpolicy, _, hedits, ⟨⟩, hlen ▸ hsmall, ⟨⟩, htext, st,
      hst, rfl⟩

end Records

/-- Three tokens: of the first one alternative of two is kept, the second is redacted to a longer
text, with its alternative, and the third moved by it. -/
theorem filter_with_edits_exact_three :
    let value (bytes : List UInt8) : TokenValue Unit := ⟨bytes, none, .unavailable⟩
    let source : TokenDistribution Unit :=
      { captureStoreId := "s", exchangeId := "x", eventId := "e", choice := 0, segment := 0
        requestedModel := "m", servedModel := none, tokenizer := none
        semantics := .unknown, conditioning := .unknown, version := 1
        requestedAlternatives := 2, responseDigest := ""
        records := [⟨0, ⟨0, 1⟩, value [97], [value [98], value [99]], 2⟩,
          ⟨1, ⟨1, 3⟩, value [98, 98], [value [98]], 2⟩, ⟨2, ⟨3, 4⟩, value [99], [], 0⟩] }
    let screen (i : Nat) := if i = 0 then some [true, false] else some []
    let result := filterWithEdits (fun _ => true) (fun _ => "") source [97, 98, 98, 99]
      [97, 60, 120, 62, 99] [⟨⟨1, 3⟩, [60, 120, 62]⟩] "p" screen
    ∃ out, result = .ok out ∧ out.records.map (·.alternatives.length) = [1, 0] ∧
      out.omittedRecords = 1 ∧ out.omittedAlternatives = 2 := by
  intro value source screen result
  have hvalid : source.validate (fun _ => true) (fun _ => "") [97, 98, 98, 99] = .ok () := by
    decide +kernel
  obtain ⟨hexact, hok⟩ := filter_with_edits_exact source _ [97, 60, 120, 62, 99]
    [⟨⟨1, 3⟩, [60, 120, 62]⟩] "p" screen hvalid
  obtain ⟨out, hout⟩ := hok (by decide) (by decide) (by decide +kernel) [97, 60, 120, 62] 3
    (by decide +kernel) rfl
  have hfiltered := hexact out hout
  have hkept : result.map (·.records.map (·.alternatives.length)) = .ok [1, 0] := by decide +kernel
  obtain ⟨out', hout', hkept⟩ := map_eq_ok.1 hkept
  obtain rfl : out = out' := Except.ok.inj (hout.symm.trans hout')
  have hlen : out.records.length = 2 := by
    rw [← length_map, hkept]
    rfl
  have halternatives := hfiltered.alternatives
  rw [hkept] at halternatives
  exact ⟨out, hout, hkept, Nat.add_right_cancel (hlen ▸ hfiltered.conserved),
    Nat.add_right_cancel halternatives⟩

end TraceCommons.Redaction
