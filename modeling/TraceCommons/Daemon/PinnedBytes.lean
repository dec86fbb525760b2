import TraceCommons.Daemon.Cards

/-! # What describes the pinned bytes

An entry pinned to the bytes a preview showed carries what describes them: the record of an
attested inference, the size an upload would send, and the scrubber's counts. The operations that
set or clear the pin are modelled one by one. All others change entries that they choose, and leave
their pins, or drop some; which of them run, and when, is left open. -/

namespace TraceCommons.Daemon

structure ScrubCounts where
  marks : Nat
  contentMarks : Nat
  unsureSpans : Nat
  unsureUnreadable : Bool
  deriving DecidableEq

structure ScrubRecord where
  envelopeDigest : String
  counts : ScrubCounts
  deriving DecidableEq

/-- An entry with what describes the bytes it is pinned to. `userTurns` is of its `shape`. -/
structure PinnedEntry (α : Type) extends QueueEntry where
  attestedInference : Option α := none
  wouldSendBytes : Option Nat := none
  scrub : Option ScrubRecord := none
  subagentsDropped : Nat := 0
  userTurns : Option Nat := none

def reasonSecondLookReviewRequired : String := "second-look-review-required"

variable {α : Type}

namespace PinnedEntry

/-- `scrub()`: the counts, while the entry is pinned to the bytes they were taken of. -/
def scrubbed (e : PinnedEntry α) : Option ScrubCounts :=
  (e.scrub.filter fun r => e.previewedEnvelopeDigest = some r.envelopeDigest).map (·.counts)

def Blank (e : PinnedEntry α) : Prop :=
  e.previewedEnvelopeDigest = none ∧ e.attestedInference = none ∧ e.wouldSendBytes = none ∧
    e.scrub = none

def on (f : QueueEntry → QueueEntry) (e : PinnedEntry α) : PinnedEntry α :=
  { e with toQueueEntry := f e.toQueueEntry }

/-- After a change that clears the pin. -/
def cleared (f : QueueEntry → QueueEntry) (e : PinnedEntry α) : PinnedEntry α :=
  { e.on f with attestedInference := none, wouldSendBytes := none }

def pinnedTo (digest : String) (attested : Option α) (bytes : Option Nat) (e : PinnedEntry α) :
    PinnedEntry α :=
  { e.on fun x => { x with previewedEnvelopeDigest := some digest } with
    attestedInference := attested, wouldSendBytes := bytes }

/-- After `pin_witnessed_approval`: the witness has answered, so its retry is over. -/
def witnessed (digest : String) (attested : Option α) (bytes : Option Nat) (e : PinnedEntry α) :
    PinnedEntry α :=
  (e.pinnedTo digest attested bytes).on fun x =>
    let retried := x.reasonLabel.any fun label =>
      witnessFailureIsTransient label || label = reasonWitnessSaturated
    { x with
      reasonLabel := if retried then none else x.reasonLabel
      retryAfter := if retried then none else x.retryAfter
      transientUploadFailures := 0
      transientUploadRunStartedAt := none }

/-- Whether `release_nothing_matched_holds` takes the entry. -/
def onlyNothingMatched (e : PinnedEntry α) : Bool :=
  let sure (c : ScrubCounts) : Bool := c.unsureSpans = 0 && !c.unsureUnreadable
  e.state = .pending && e.reasonLabel = some reasonSecondLookReviewRequired &&
    e.userTurns ≠ some 0 && e.subagentsDropped = 0 &&
    (e.previewedEnvelopeDigest = none &&
        e.scrub.any (fun r => r.counts.contentMarks = 0 && sure r.counts) ||
      e.scrubbed.any sure)

/-- After `release_nothing_matched_holds`: a witness pin stays. -/
def nothingMatched (now : DateTime) (e : PinnedEntry α) : PinnedEntry α :=
  let back := e.on fun x => { x with reasonLabel := none, discoveredAt := now }
  if e.holdsWitnessCertificate then back
  else { back.cleared fun x => { x with previewedEnvelopeDigest := none } with scrub := none }

/-- `reoffered_from`: the pin is cleared and the attested inference, not the size. -/
def reofferedFrom (e : PinnedEntry α) : PinnedEntry α :=
  { e.on (·.reoffered) with attestedInference := none }

end PinnedEntry

/-! ## Operations -/

/-- A change of entries that leaves the pin. -/
structure PinKeeping where
  change : QueueEntry → QueueEntry
  id : ∀ e, (change e).entryId = e.entryId
  path : ∀ e, (change e).path = e.path
  pin : ∀ e, (change e).previewedEnvelopeDigest = e.previewedEnvelopeDigest

structure Offer (α : Type) where
  entry : PinnedEntry α
  blank : entry.Blank

inductive PinOp (α : Type)
  /-- `upsert`, also as the end of `replace_live_at_path`. -/
  | upsert (offer : Offer α) (maxEntries : Nat)
  /-- `set_state`, `approve`, `claim_for_upload`, `expire`, the releases of other holds, the records
  of attempts, and so on. -/
  | other (chosen : QueueEntry → Bool) (c : PinKeeping)
  /-- `clear_project_ignored` and `compact_superseded`. -/
  | retain (kept : QueueEntry → Bool)
  | recordPreviewedEnvelope (id : Uuid) (digest : String) (attested : Option α) (bytes : Option Nat)
  | pinWitnessedApproval (id : Uuid) (digest : String) (attested : Option α) (bytes : Option Nat)
  | recordScrub (id : Uuid) (digest : String) (counts : ScrubCounts)
  | releasePreviewPin (id : Uuid)
  | releaseNothingMatchedHolds (now : DateTime)
  /-- Also the first part of `return_to_waiting`, and of `hold_with_witness_pin` and
  `hold_with_scrub_pin_at`, which then pin and count. -/
  | revokeApproval (id : Uuid) (reason : String) (now : DateTime)
  | cancel (id : Uuid)
  | keep (id : Uuid)
  | undoKeep (id : Uuid) (now : DateTime) (maxEntries : Nat)
  | reviveExpired (id : Uuid) (now : DateTime)
  /-- `supersede`, and `upsert` of what it returns. -/
  | supersede (id : Uuid) (newHash : String) (newSize : Nat) (newModifiedAt : Option DateTime)
      (now : DateTime) (maxEntries : Nat)

namespace PinOp

def edit (q : List (PinnedEntry α)) (id : Uuid) (allowed : PinnedEntry α → Bool)
    (f : PinnedEntry α → PinnedEntry α) : List (PinnedEntry α) :=
  Shelf.update (·.entryId = id) (fun e => if allowed e then f e else e) q

def full (q : List (PinnedEntry α)) (maxEntries : Nat) : Bool :=
  maxEntries ≤ q.countP fun e => countsAgainstTheCap e.toQueueEntry

def offer (q : List (PinnedEntry α)) (e : PinnedEntry α) (maxEntries : Nat) :
    List (PinnedEntry α) :=
  if q.any (·.sessionHash = e.sessionHash) || full q maxEntries then q else q ++ [e]

def apply (D : Setup) (q : List (PinnedEntry α)) : PinOp α → List (PinnedEntry α)
  | upsert o maxEntries => offer q o.entry maxEntries
  | other chosen c => q.map fun e => if chosen e.toQueueEntry then e.on c.change else e
  | retain kept => q.filter fun e => kept e.toQueueEntry
  | recordPreviewedEnvelope id digest attested bytes =>
    edit q id (·.state = .pending) (·.pinnedTo digest attested bytes)
  | pinWitnessedApproval id digest attested bytes =>
    edit q id (fun e => e.state = .approved && e.previewedEnvelopeDigest.isNone)
      (·.witnessed digest attested bytes)
  | recordScrub id digest counts =>
    edit q id (fun e => e.state = .pending && e.previewedEnvelopeDigest = some digest)
      ({ · with scrub := some ⟨digest, counts⟩ })
  | releasePreviewPin id =>
    edit q id (fun e => e.state = .pending && e.previewedEnvelopeDigest.isSome)
      (·.cleared ({ · with previewedEnvelopeDigest := none }))
  | releaseNothingMatchedHolds now =>
    q.map fun e => if e.onlyNothingMatched then e.nothingMatched now else e
  | revokeApproval id reason now => edit q id (fun _ => true) (·.cleared (·.revoked reason now))
  | cancel id => edit q id (·.state = .approved) (·.cleared (·.cancelled))
  | keep id => edit q id (fun e => e.state = .pending || e.isUnattended) (·.cleared (·.kept))
  | undoKeep id now maxEntries =>
    edit q id (fun e => e.isKept && !full q maxEntries) (·.cleared (·.returned now))
  | reviveExpired id now => edit q id (·.state = .expired) (·.cleared (·.revived now))
  | supersede id newHash newSize newModifiedAt now maxEntries =>
    match q.find? (·.entryId = id) with
    | none => q
    | some old =>
      offer (edit q id (fun _ => true) (·.on (·.inState .superseded (some reasonChanged))))
        (old.reofferedFrom.on ({ · with
          entryId := D.entryIdFor newHash, sessionHash := newHash, sizeBytes := newSize
          discoveredAt := now, lastModifiedAt := newModifiedAt })) maxEntries

/-- The entry whose bytes the operation counts. -/
def records : PinOp α → Option (Uuid × ScrubRecord)
  | recordScrub id digest counts => some (id, ⟨digest, counts⟩)
  | _ => none

/-- The entry the operation supersedes, and the one it offers instead. -/
def reoffers (D : Setup) : PinOp α → Option (Uuid × Uuid)
  | supersede id newHash .. => some (id, D.entryIdFor newHash)
  | _ => none

/-- No entry with a size is superseded. -/
def Careful (q : List (PinnedEntry α)) : PinOp α → Prop
  | supersede id _ _ _ _ _ => ∀ e, q.find? (·.entryId = id) = some e → e.wouldSendBytes = none
  | _ => True

/-! ## One operation -/

variable {D : Setup} {q : List (PinnedEntry α)} {op : PinOp α} {e e' : PinnedEntry α}

/-- What an operation makes of an entry: without a pin it is described by what it had without one,
or by nothing, and a count is one it had or one of the bytes it is pinned to. -/
structure Follows (D : Setup) (q : List (PinnedEntry α)) (op : PinOp α) (e e' : PinnedEntry α) :
    Prop where
  id : e'.entryId = e.entryId ∨ op.reoffers D = some (e.entryId, e'.entryId)
  path : e'.path = e.path
  attested : e'.previewedEnvelopeDigest = none → e'.attestedInference = none ∨
    e.previewedEnvelopeDigest = none ∧ e'.attestedInference = e.attestedInference
  bytes : op.Careful q → e'.previewedEnvelopeDigest = none → e'.wouldSendBytes = none ∨
    e.previewedEnvelopeDigest = none ∧ e'.wouldSendBytes = e.wouldSendBytes
  scrub : ∀ r, e'.scrub = some r → e.scrub = some r ∨
    op.records = some (e'.entryId, r) ∧ e'.previewedEnvelopeDigest = some r.envelopeDigest

namespace Follows

theorem refl (e : PinnedEntry α) : Follows D q op e e :=
  ⟨.inl rfl, rfl, fun h => .inr ⟨h, rfl⟩, fun _ h => .inr ⟨h, rfl⟩, fun _ h => .inl h⟩

theorem on (c : PinKeeping) : Follows D q op e (e.on c.change) :=
  ⟨.inl (c.id _), c.path _, fun h => .inr ⟨(c.pin _).symm.trans h, rfl⟩,
    fun _ h => .inr ⟨(c.pin _).symm.trans h, rfl⟩, fun _ h => .inl h⟩

theorem cleared {f : QueueEntry → QueueEntry} (hid : (f e.toQueueEntry).entryId = e.entryId)
    (hpath : (f e.toQueueEntry).path = e.path) : Follows D q op e (e.cleared f) :=
  ⟨.inl hid, hpath, fun _ => .inl rfl, fun _ _ => .inl rfl, fun _ h => .inl h⟩

theorem pinned {digest : String} (hid : e'.entryId = e.entryId) (hpath : e'.path = e.path)
    (hpin : e'.previewedEnvelopeDigest = some digest) (hscrub : e'.scrub = e.scrub) :
    Follows D q op e e' := by
  refine ⟨.inl hid, hpath, fun h => ?_, fun _ h => ?_, fun r h => .inl (hscrub ▸ h)⟩ <;>
    exact absurd (hpin.symm.trans h) nofun

/-- A count of the bytes the entry is pinned to. -/
theorem counted {r : ScrubRecord} (hr : op.records = some (e'.entryId, r))
    (hid : e'.entryId = e.entryId) (hpath : e'.path = e.path)
    (hpin : e'.previewedEnvelopeDigest = some r.envelopeDigest) (hscrub : e'.scrub = some r) :
    Follows D q op e e' := by
  refine ⟨.inl hid, hpath, fun h => ?_, fun _ h => ?_, fun r' h => .inr ?_⟩
  · exact absurd (hpin.symm.trans h) nofun
  · exact absurd (hpin.symm.trans h) nofun
  · obtain rfl : r = r' := Option.some.inj (hscrub.symm.trans h)
    exact ⟨hr, hpin⟩

theorem nothingMatched (now : DateTime) : Follows D q op e (e.nothingMatched now) := by
  unfold PinnedEntry.nothingMatched
  split
  · exact ⟨.inl rfl, rfl, fun h => .inr ⟨h, rfl⟩, fun _ h => .inr ⟨h, rfl⟩, fun _ h => .inl h⟩
  · exact ⟨.inl rfl, rfl, fun _ => .inl rfl, fun _ _ => .inl rfl, nofun⟩

end Follows

theorem entryId_of_find {id : Uuid} (h : q.find? (·.entryId = id) = some e) : e.entryId = id := by
  simpa using List.find?_some h

theorem mem_edit {id : Uuid} {allowed : PinnedEntry α → Bool} {f : PinnedEntry α → PinnedEntry α}
    (h : e' ∈ edit q id allowed f)
    (hf : ∀ e, e.entryId = id → allowed e = true → Follows D q op e (f e)) :
    ∃ e ∈ q, Follows D q op e e' := by
  refine Shelf.forall_update (P := fun e' => ∃ e ∈ q, Follows D q op e e')
    (fun e he => ⟨e, he, .refl e⟩) (fun e he => ⟨e, List.mem_of_find?_eq_some he, ?_⟩) e' h
  split
  next hall => exact hf e (entryId_of_find he) hall
  · exact .refl e

theorem mem_offer {o : PinnedEntry α} {maxEntries : Nat} (h : e ∈ offer q o maxEntries) :
    e ∈ q ∨ e = o := by
  unfold offer at h
  split at h
  · exact .inl h
  · simpa using h

theorem apply_follows (h : e' ∈ apply D q op) : (∃ e ∈ q, Follows D q op e e') ∨ e'.Blank := by
  cases op with
  | upsert o maxEntries =>
    rcases mem_offer h with h | rfl
    · exact .inl ⟨e', h, .refl e'⟩
    · exact .inr o.blank
  | other chosen c =>
    obtain ⟨e, he, rfl⟩ := List.mem_map.1 h
    refine .inl ⟨e, he, ?_⟩
    split
    · exact .on c
    · exact .refl e
  | retain kept => exact .inl ⟨e', (List.mem_filter.1 h).1, .refl e'⟩
  | recordPreviewedEnvelope | pinWitnessedApproval =>
    exact .inl (mem_edit h fun _ _ _ => .pinned rfl rfl rfl rfl)
  | recordScrub id digest counts =>
    refine .inl (mem_edit h fun e hid hall => .counted (hid ▸ rfl) rfl rfl ?_ rfl)
    exact of_decide_eq_true (Bool.and_eq_true_iff.1 hall).2
  | releaseNothingMatchedHolds now =>
    obtain ⟨e, he, rfl⟩ := List.mem_map.1 h
    refine .inl ⟨e, he, ?_⟩
    split
    · exact .nothingMatched now
    · exact .refl e
  | releasePreviewPin | revokeApproval | cancel | keep | undoKeep | reviveExpired =>
    exact .inl (mem_edit h fun _ _ _ => .cleared rfl rfl)
  | supersede id newHash newSize newModifiedAt now maxEntries =>
    simp only [apply] at h
    split at h
    · exact .inl ⟨e', h, .refl e'⟩
    rename_i old hold
    have hretired (e : PinnedEntry α) : Follows D q
        (.supersede id newHash newSize newModifiedAt now maxEntries) e
        (e.on (·.inState .superseded (some reasonChanged))) :=
      .on ⟨(·.inState .superseded (some reasonChanged)), fun _ => rfl, fun _ => rfl, fun _ => rfl⟩
    rcases mem_offer h with h | rfl
    · exact .inl (mem_edit h fun e _ _ => hretired e)
    -- The size is the old one: only an entry without one may be superseded.
    · have hid : old.entryId = id := entryId_of_find hold
      exact .inl ⟨old, List.mem_of_find?_eq_some hold, .inr (hid ▸ rfl), rfl, fun _ => .inl rfl,
        fun hcareful _ => .inl (hcareful old hold), fun _ h => .inl h⟩

end PinOp

/-! ## Every run -/

variable {D : Setup} {e : PinnedEntry α}

def runPins (D : Setup) (ops : List (PinOp α)) : List (PinnedEntry α) :=
  Trail.run (PinOp.apply D) [] ops

theorem runPins_concat (ops : List (PinOp α)) (op : PinOp α) :
    runPins D (ops ++ [op]) = op.apply D (runPins D ops) := by
  rw [runPins, Trail.run, List.foldl_concat]
  rfl

/-- In the run, `op` comes right after `pre`. -/
def Happens (ops pre : List (PinOp α)) (op : PinOp α) : Prop := ∃ post, ops = pre ++ op :: post

theorem Happens.later {ops pre : List (PinOp α)} {op : PinOp α} (h : Happens ops pre op)
    (next : PinOp α) : Happens (ops ++ [next]) pre op := by
  obtain ⟨post, rfl⟩ := h
  exact ⟨post ++ [next], by simp⟩

/-- No operation of the run supersedes an entry with a size. -/
def CarefulRun (D : Setup) (ops : List (PinOp α)) : Prop :=
  ∀ pre op, Happens ops pre op → op.Careful (runPins D pre)

/-- In the run, an entry was superseded by another. -/
def Reoffered (D : Setup) (ops : List (PinOp α)) (old new : Uuid) : Prop :=
  ∃ op ∈ ops, op.reoffers D = some (old, new)

/-- In the run, the bytes were counted on an entry of the session that was pinned to them: `e`, or
one that `e` was offered for since, in any number of steps. -/
def Counted (D : Setup) (ops : List (PinOp α)) (e : PinnedEntry α) (r : ScrubRecord) : Prop :=
  ∃ pre op post, ops = pre ++ op :: post ∧ ∃ x ∈ runPins D (pre ++ [op]),
    op.records = some (x.entryId, r) ∧ x.scrub = some r ∧
      x.previewedEnvelopeDigest = some r.envelopeDigest ∧ x.path = e.path ∧
      Relation.ReflTransGen (Reoffered D post) x.entryId e.entryId

theorem Counted.follows {ops : List (PinOp α)} {op : PinOp α} {e e' : PinnedEntry α}
    {q : List (PinnedEntry α)} {r : ScrubRecord} (h : Counted D ops e r)
    (hfollows : op.Follows D q e e') : Counted D (ops ++ [op]) e' r := by
  obtain ⟨pre, count, post, rfl, x, hx, hrec, hscrub, hpin, hpath, hsince⟩ := h
  refine ⟨pre, count, post ++ [op], by simp, x, hx, hrec, hscrub, hpin,
    hpath.trans hfollows.path.symm, ?_⟩
  have hlater : Relation.ReflTransGen (Reoffered D (post ++ [op])) x.entryId e.entryId :=
    hsince.lift id fun _ _ ⟨o, ho, h⟩ => ⟨o, List.mem_append_left _ ho, h⟩
  rcases hfollows.id with hid | hid
  · exact hid ▸ hlater
  · exact hlater.tail ⟨op, by simp, hid⟩

structure Described (D : Setup) (ops : List (PinOp α)) (e : PinnedEntry α) : Prop where
  attested : e.previewedEnvelopeDigest = none → e.attestedInference = none
  bytes : CarefulRun D ops → e.previewedEnvelopeDigest = none → e.wouldSendBytes = none
  scrub : ∀ r, e.scrub = some r → Counted D ops e r

theorem run_described (ops : List (PinOp α)) : ∀ e ∈ runPins D ops, Described D ops e := by
  induction ops using List.reverseRecOn with
  | nil => exact fun _ he => absurd he List.not_mem_nil
  | append_singleton ops op ih =>
    intro e' he'
    have hmem := he'
    rw [runPins_concat] at he'
    rcases PinOp.apply_follows he' with ⟨e, he, hfollows⟩ | ⟨-, hattested, hbytes, hscrub⟩
    · have hold := ih e he
      refine ⟨fun hpin => ?_, fun hrun hpin => ?_, fun r hr => ?_⟩
      · rcases hfollows.attested hpin with h | ⟨hwas, h⟩
        · exact h
        · exact h.trans (hold.attested hwas)
      · have hcareful : op.Careful (runPins D ops) := hrun ops op ⟨[], rfl⟩
        rcases hfollows.bytes hcareful hpin with h | ⟨hwas, h⟩
        · exact h
        · exact h.trans (hold.bytes (fun pre x hx => hrun pre x (hx.later op)) hwas)
      · rcases hfollows.scrub r hr with h | ⟨hrec, hpin⟩
        · exact (hold.scrub r h).follows hfollows
        · exact ⟨ops, op, [], rfl, e', hmem, hrec, hr, hpin, rfl, .refl⟩
    · refine ⟨fun _ => hattested, fun _ _ => hbytes, fun r hr => ?_⟩
      exact absurd (hscrub.symm.trans hr) nofun

/-- An entry without a pin has no attested inference, and no size where none was superseded with
one. What `scrub()` returns was counted on the bytes the entry is pinned to now, when it was pinned
to them, or an entry it was offered for. -/
theorem pin_described (ops : List (PinOp α)) (he : e ∈ runPins D ops) :
    (e.previewedEnvelopeDigest = none → e.attestedInference = none) ∧
    (CarefulRun D ops → e.previewedEnvelopeDigest = none → e.wouldSendBytes = none) ∧
    ∀ counts, e.scrubbed = some counts → ∃ digest, e.previewedEnvelopeDigest = some digest ∧
      Counted D ops e ⟨digest, counts⟩ := by
  have hd := run_described ops e he
  refine ⟨hd.attested, hd.bytes, fun counts hcounts => ?_⟩
  obtain ⟨r, hr, rfl⟩ := Option.map_eq_some_iff.1 hcounts
  obtain ⟨hr, hpin⟩ := Option.filter_eq_some_iff.1 hr
  exact ⟨r.envelopeDigest, of_decide_eq_true hpin, hd.scrub r hr⟩

def pinnedOffer : Offer Unit := ⟨{ offerOf "a" "p" with }, rfl, rfl, rfl, rfl⟩

/-- An entry is pinned and its bytes are counted. -/
def countedRun : List (PinOp Unit) :=
  [.upsert pinnedOffer 10, .recordPreviewedEnvelope "a" "bytes" none (some 7),
    .recordScrub "a" "bytes" ⟨2, 1, 0, false⟩]

theorem pin_described_counted : ∃ e ∈ runPins plainSetup countedRun,
    e.scrubbed = some ⟨2, 1, 0, false⟩ ∧ ∃ digest, e.previewedEnvelopeDigest = some digest ∧
      Counted plainSetup countedRun e ⟨digest, ⟨2, 1, 0, false⟩⟩ := by
  have hrun : ∃ e ∈ runPins plainSetup countedRun, e.scrubbed = some ⟨2, 1, 0, false⟩ := by
    decide +kernel
  obtain ⟨e, he, hcounts⟩ := hrun
  exact ⟨e, he, hcounts, (pin_described countedRun he).2.2 _ hcounts⟩

def PinOp.approve (id : Uuid) (t : Terms) : PinOp Unit :=
  .other (fun e => e.entryId = id && e.state = .pending) ⟨(·.approvedUnder t), fun _ => rfl,
    fun _ => rfl, fun _ => rfl⟩

def PinOp.claimForUpload (id : Uuid) (now : DateTime) : PinOp Unit :=
  .other (fun e => e.entryId = id && e.readyForUpload now) ⟨({ · with state := .uploading }),
    fun _ => rfl, fun _ => rfl, fun _ => rfl⟩

/-- The entry is approved and claimed, and the upload finds that the session has moved: the new
offer has the size of the old bytes, and no pin. And where a pin is released and the same bytes are
pinned again, the counts from before are back. -/
theorem pin_outlived :
    (∃ e ∈ runPins plainSetup (countedRun ++ [.approve "a" ⟨[], none, none, none, some 1⟩,
        .claimForUpload "a" 2, .supersede "a" "b" 9 none 3 10]),
      e.previewedEnvelopeDigest = none ∧ e.wouldSendBytes = some 7) ∧
    (∀ e ∈ runPins plainSetup (countedRun ++ [.releasePreviewPin "a"]),
      e.previewedEnvelopeDigest = none) ∧
    ∃ e ∈ runPins plainSetup (countedRun ++ [.releasePreviewPin "a",
        .recordPreviewedEnvelope "a" "bytes" none (some 7)]),
      e.scrubbed = some ⟨2, 1, 0, false⟩ := by
  decide +kernel

end TraceCommons.Daemon
