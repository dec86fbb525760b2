import TraceCommons.Daemon.System

/-! # What one event can do to the queue

`Moves` says which entries a section may change and what it may leave behind; `step_grown` says it
for every event. No event takes an entry out, or gives it another id, hash or path. -/

namespace TraceCommons.Daemon

/-! ## Moves -/

/-- What may become of one entry: nothing, or, if `touched` holds of it, the same card in a state
with `left`. -/
def Becomes (touched left : QueueEntry → Prop) (e e' : QueueEntry) : Prop :=
  e' = e ∨ (e'.key = e.key ∧ touched e ∧ left e')

/-- Every entry became what it may, and one with `added` may be new. -/
def Grown (touched left added : QueueEntry → Prop) (q q' : Queue) : Prop :=
  Shelf.Grows (Becomes touched left) added q.entries q'.entries

/-- Every entry became what it may, and none is new. -/
def Moves (touched left : QueueEntry → Prop) (q q' : Queue) : Prop :=
  Grown touched left (fun _ => False) q q'

variable {touched left added : QueueEntry → Prop} {q q' q'' : Queue} {id : Uuid}
  {f : QueueEntry → QueueEntry} {e e' : QueueEntry}

section

variable (h : Becomes touched left e e')

include h

theorem Becomes.key : e'.key = e.key := by
  rcases h with rfl | ⟨h, _⟩
  · rfl
  · exact h

theorem Becomes.entryId : e'.entryId = e.entryId :=
  congrArg Prod.fst h.key

theorem Becomes.sessionHash : e'.sessionHash = e.sessionHash :=
  congrArg (·.2.1) h.key

theorem Becomes.path : e'.path = e.path :=
  congrArg (·.2.2) h.key

end

namespace Grown

theorem mem (h : Grown touched left added q q') (he : e' ∈ q'.entries) :
    (∃ e ∈ q.entries, Becomes touched left e e') ∨ added e' :=
  Shelf.Grows.mem h he

theorem mem_of_old (h : Grown touched left added q q') (he : e ∈ q.entries) :
    ∃ e' ∈ q'.entries, Becomes touched left e e' :=
  Shelf.Grows.mem_of_old h he

theorem get (h : Grown touched left added q q') (he : q.get id = some e) :
    ∃ e', q'.get id = some e' ∧ Becomes touched left e e' :=
  Shelf.Grows.find? (fun a b hab => by rw [hab.entryId]) h he

end Grown

namespace Moves

section

variable (h : Moves touched left q q')

include h

theorem grown : Grown touched left added q q' :=
  Shelf.Grows.mono (fun _ h => h.elim) h

omit h in
theorem refl (q : Queue) : Moves touched left q q := Shelf.Grows.refl (fun _ => .inl rfl) _

theorem push (he : added e) : Grown touched left added q ⟨q'.entries ++ [e]⟩ :=
  Shelf.Grows.push h he

theorem get_old (he : q'.get id = some e') : ∃ e, q.get id = some e ∧ Becomes touched left e e' :=
  Shelf.Grows.find?_old (fun a b hab => by rw [hab.entryId]) h he

/-- One more change of one entry. The entry may be one that the section has changed already; else
it must be one it may touch. -/
protected theorem update (hkey : ∀ e, (f e).key = e.key)
    (ht : ∀ e, q.get id = some e → q'.get id = some e → touched e)
    (hl : ∀ e, q'.get id = some e → left (f e)) : Moves touched left q (q'.update id f) := by
  refine Shelf.Grows.update (fun a b hab => by rw [hab.entryId]) (fun _ h => h) h ?_
  intro a b ha hb hab
  refine .inr ⟨(hkey b).trans hab.key, ?_, hl b hb⟩
  rcases hab with rfl | ⟨_, hta, _⟩
  · exact ht b ha hb
  · exact hta

theorem edit {allowed : QueueEntry → Bool} (hkey : ∀ e, (f e).key = e.key)
    (ht : ∀ e, q'.get id = some e → allowed e = true → touched e)
    (hl : ∀ e, q'.get id = some e → left (f e)) (he : q'.edit id allowed f = some q'') :
    Moves touched left q q'' := by
  obtain ⟨e, hget, hall, rfl⟩ := Queue.edit_eq_some.1 he
  refine h.update hkey (fun a _ ha => ht a ha ?_) hl
  rw [hget, Option.some.injEq] at ha
  exact ha ▸ hall

omit h in
/-- A request that may have been refused. -/
theorem getD {o : Option Queue} (h' : Moves touched left q q')
    (h : ∀ q'', o = some q'' → Moves touched left q q'') : Moves touched left q (o.getD q') := by
  cases o with
  | none => exact h'
  | some q'' => exact h q'' rfl

omit h in
theorem toOption {o : Except String Queue} (h' : Moves touched left q q')
    (h : ∀ q'', o = .ok q'' → Moves touched left q q'') :
    Moves touched left q (o.toOption.getD q') := by
  cases o with
  | error => exact h'
  | ok q'' => exact h q'' rfl

theorem foldl {β : Type} {g : Queue → β → Queue} {l : List β}
    (hg : ∀ q' b, b ∈ l → Moves touched left q q' → Moves touched left q (g q' b)) :
    Moves touched left q (l.foldl g q') := by
  induction l generalizing q' with
  | nil => exact h
  | cons b l ih =>
    exact ih (hg q' b (.head _) h) fun q' c hc => hg q' c (.tail b hc)

end

end Moves

/-! ## Ids -/

/-- Each entry has the id of its hash, and no hash is there twice. -/
structure Queue.Keyed (D : Setup) (q : Queue) : Prop where
  ids : ∀ e ∈ q.entries, e.entryId = D.entryIdFor e.sessionHash
  hashes : (q.entries.map (·.sessionHash)).Nodup

theorem Queue.Keyed.get_of_mem {D : Setup} (hq : q.Keyed D) (he : e ∈ q.entries) :
    q.get e.entryId = some e := by
  cases hget : q.get _ with
  | none => exact absurd (decide_eq_true rfl) (List.find?_eq_none.1 hget e he)
  | some b =>
    obtain ⟨hb, hid⟩ := Queue.get_eq_some hget
    rw [hq.ids b hb, hq.ids e he] at hid
    rw [List.inj_on_of_nodup_map hq.hashes hb he (D.entryIdFor_injective hid)]

/-- A new entry that belongs: its id is that of its hash, and the hash is not there yet. -/
structure Fits (D : Setup) (q : Queue) (e : QueueEntry) : Prop where
  id : e.entryId = D.entryIdFor e.sessionHash
  fresh : ∀ a ∈ q.entries, a.sessionHash ≠ e.sessionHash

theorem Grown.keyed {D : Setup} (h : Grown touched left added q q')
    (hadd : ∀ e, added e → Fits D q e) (hq : q.Keyed D) : q'.Keyed D := by
  constructor
  · intro e' he'
    rcases h.mem he' with ⟨e, he, hb⟩ | hnew
    · rw [hb.entryId, hb.sessionHash]
      exact hq.ids e he
    · exact (hadd e' hnew).id
  · rcases Shelf.Grows.column (k := (·.sessionHash)) (fun a b hab => hab.sessionHash) h
      with hk | ⟨b, hb, hk⟩
    · rw [hk]
      exact hq.hashes
    · rw [hk, List.nodup_append]
      refine ⟨hq.hashes, List.nodup_singleton _, ?_⟩
      refine List.forall_mem_map.2 fun a ha y hy => ?_
      rw [List.mem_singleton.1 hy]
      exact (hadd b hb).fresh a ha

theorem Moves.keyed {D : Setup} (h : Moves touched left q q') (hq : q.Keyed D) : q'.Keyed D :=
  Grown.keyed h (fun _ h => h.elim) hq

/-! ## What each event may do -/

/-- The entry the pass has claimed and not yet settled. -/
def State.inFlight (s : State) : Option Uuid :=
  match s.pass with
  | some ⟨_, .inFlight _ entry _ _⟩ => some entry.entryId
  | _ => none

/-- The snapshot whose turn is next. -/
def State.upNext (s : State) : Option QueueEntry :=
  match s.pass with
  | some ⟨_, .sending _ (entry :: _) _⟩ => some entry
  | _ => none

/-- Where the visit in progress may still add an entry. -/
def Visit.landsAt (v : Visit) : Option String :=
  match v.stage with
  | .offered .. => none
  | _ => some v.obs.path

def Touches (s : State) (ev : Event) (e : QueueEntry) : Prop :=
  match ev with
  | .pin .. | .approve _ | .visitReapply .. => e.state = .pending
  | .cancel id => e.entryId = id ∧ e.state = .approved
  | .cancelProject key => e.projectKey = key ∧ e.state = .approved
  | .dismiss id => e.entryId = id
  | .keep _ => e.state = .pending ∨ e.isUnattended = true
  | .undoKeep id _ _ => e.entryId = id ∧ e.isKept = true
  | .visitLand => e.live = true
  | .passCheck _ => e.isUnattended = true
  | .passNext _ => e.state = .approved ∧ ∃ n, s.upNext = some n ∧ n.entryId = e.entryId
  | .passVanished | .passStopped _ | .passDecided .. => s.inFlight = some e.entryId
  | .passEnd => e.state = .uploading ∧ s.inFlight = none
  | _ => False

def Leaves (s : State) (ev : Event) (e : QueueEntry) : Prop :=
  match ev with
  | .approve _ =>
    e.state = .approved → e.approvedAt = some s.clock ∧ e.approvedUnattended = false
  | .dismiss _ => e.isDismissed = true
  | .keep _ => e.isKept = true
  | _ => True

structure Adds (D : Setup) (s : State) (ev : Event) (e : QueueEntry) : Prop where
  fits : Fits D s.queue e
  from_ : match ev with
    | .visitLand => ∃ v, s.visit = some v ∧ v.landsAt = some e.path
    | .passDecided .. => ∃ id old, s.inFlight = some id ∧ s.queue.get id = some old ∧
        old.path = e.path
    | _ => False

/-! ## The sections one by one -/

section Sections

variable {now : DateTime}

def ApprovedNow (now : DateTime) (e : QueueEntry) : Prop :=
  e.state = .approved → e.approvedAt = some now ∧ e.approvedUnattended = false

/-- What an approval has done so far: it changed waiting entries only. -/
structure Batch (now : DateTime) (q : Queue) (b : ApprovedBatch) : Prop where
  moves : Moves (·.state = .pending) (ApprovedNow now) q b.queue
  ids : ∀ id ∈ b.approvedIds, ∀ e, q.get id = some e → e.state = .pending

theorem Batch.approveOne {r : ApproveRequest} {b : ApprovedBatch} (h : Batch now q b) (id : Uuid) :
    Batch now q (approveOne r now b id) := by
  unfold Daemon.approveOne
  split
  · exact h
  -- each of its refusals leaves the queue
  iterate 6
    split
    · exact ⟨h.moves, h.ids⟩
  rename_i q1 happrove
  obtain ⟨a, ha, hpending, rfl⟩ := Queue.edit_eq_some.1 happrove
  have hwas : ∀ e, q.get id = some e → e.state = .pending := by
    intro e he
    obtain ⟨e0, he0, hbec⟩ := h.moves.get_old ha
    rw [he, Option.some.injEq] at he0
    subst he0
    rcases hbec with rfl | ⟨_, ht, _⟩
    · exact of_decide_eq_true hpending
    · exact ht
  constructor
  · split
    · rw [Queue.markPersonIncluded,
        Queue.update_update (f := QueueEntry.approvedUnder _) fun _ => rfl]
      exact h.moves.update (by intro; rfl) (fun e he _ => hwas e he) fun _ _ _ => ⟨rfl, rfl⟩
    · exact h.moves.update (by intro; rfl) (fun e he _ => hwas e he) fun _ _ _ => ⟨rfl, rfl⟩
  · exact List.forall_mem_append.2 ⟨h.ids, List.forall_mem_singleton.2 hwas⟩

theorem approveAsAPerson_moves (q : Queue) (now : DateTime) (r : ApproveRequest) :
    Moves (·.state = .pending) (ApprovedNow now) q (approveAsAPerson q now r).queue := by
  have hlarge : Moves (·.state = .pending) (ApprovedNow now) q
      (r.tooLarge.foldl refuseTooLarge q) := by
    refine (Moves.refl q).foldl fun q' id _ h => ?_
    unfold refuseTooLarge
    split
    next hp =>
      refine h.update (by intro; rfl) (fun e _ he => ?_) fun e _ => nofun
      rw [he] at hp
      simpa using hp
    · exact h
  have hbatch : Batch now q (r.ids.foldl (approveOne r now)
      { queue := r.tooLarge.foldl refuseTooLarge q, skipped := r.skipped }) := by
    have h0 : Batch now q { queue := r.tooLarge.foldl _ q, skipped := r.skipped } :=
      ⟨hlarge, nofun⟩
    generalize ({ queue := _, skipped := _ } : ApprovedBatch) = b at h0
    induction r.ids generalizing b with
    | nil => exact h0
    | cons id ids ih => exact ih _ (h0.approveOne id)
  unfold approveAsAPerson
  split
  · exact hbatch.moves
  · refine hbatch.moves.foldl fun q' id hid h => h.toOption fun q'' hc => ?_
    obtain ⟨e, _, _, rfl⟩ := Queue.cancel_eq_ok.1 hc
    exact h.update (by intro; rfl) (fun e he _ => hbatch.ids id hid e he) fun e _ => nofun

variable {D : Setup}

theorem cancelProject_moves (hq : q.Keyed D) (key : String) :
    Moves (fun e => e.projectKey = key ∧ e.state = .approved) (fun _ => True) q
      (cancelProject q key) := by
  refine (Moves.refl q).foldl fun q' id hid h => h.toOption fun q'' hc => ?_
  obtain ⟨e, _, _, rfl⟩ := Queue.cancel_eq_ok.1 hc
  refine h.update (by intro; rfl) (fun a ha _ => ?_) fun _ _ => trivial
  -- the id was selected, and it is nobody else's
  obtain ⟨b, hb, rfl⟩ := List.mem_map.1 hid
  obtain ⟨hmem, hsel⟩ := List.mem_filter.1 hb
  rw [hq.get_of_mem hmem, Option.some.injEq] at ha
  subst ha
  simpa using hsel

theorem undoKeep_moves {ignored : Bool} {maxEntries : Nat}
    (h : undoKeep q id ignored now maxEntries = .ok q') :
    Moves (fun e => e.entryId = id ∧ e.isKept = true) (fun _ => True) q q' := by
  unfold undoKeep at h
  split at h
  · cases h
  obtain ⟨e, he, hkept, rfl⟩ := Queue.undoKeep_eq_ok h
  refine (Moves.refl q).update (by intro; rfl) (fun a ha _ => ?_) fun _ _ => trivial
  rw [he, Option.some.injEq] at ha
  exact ha ▸ ⟨(Queue.get_eq_some he).2, hkept⟩

theorem approveUnattended_moves {touched : QueueEntry → Prop} {scopes : List String}
    {inputs : Option String} (hpending : ∀ e, e.state = .pending → touched e)
    (h : Moves touched (fun _ => True) q q')
    (ha : q'.approveUnattended id scopes inputs = some q'') :
    Moves touched (fun _ => True) q q'' :=
  h.edit (by intro; rfl) (fun e _ he => hpending e (of_decide_eq_true he)) (fun _ _ => trivial)
    (Queue.approveUnattended_eq_some ha)

theorem Visit.reapply_moves (v : Visit) (q : Queue) (mode : ProjectMode) (waits : Bool) :
    Moves (·.state = .pending) (fun _ => True) q (v.reapply q mode waits) := by
  unfold Visit.reapply
  split
  · split
    · exact (Moves.refl q).getD fun q' h => approveUnattended_moves (fun _ h => h) (Moves.refl q) h
    · exact .refl q
  · exact .refl q

/-- The stale offers at a path are retired, and nothing else. -/
theorem retire_moves (hq : q.Keyed D) (entry : QueueEntry) :
    Moves (·.live = true) (fun _ => True) q
      (q.retire (q.stale entry)) := by
  refine (Moves.refl q).foldl fun q' id hid h => ?_
  refine h.update (by intro; rfl) (fun a ha _ => ?_) fun _ _ => trivial
  obtain ⟨b, hb, rfl⟩ := List.mem_map.1 hid
  obtain ⟨hmem, hsel⟩ := List.mem_filter.1 hb
  rw [hq.get_of_mem hmem, Option.some.injEq] at ha
  subst ha
  rw [Bool.and_eq_true] at hsel
  exact hsel.2

theorem Visit.land_grown {v : Visit} (hq : q.Keyed D) :
    Grown (·.live = true) (fun _ => True)
      (fun e => Fits D q e ∧ v.landsAt = some e.path) q (v.land D.entryIdFor q) := by
  unfold Visit.land
  split
  next projectKey t armed returned hstage =>
    dsimp only
    split
    · exact (Moves.refl q).grown
    rename_i q1 inserted hrep
    have hret := retire_moves hq (newEntry D.entryIdFor v t projectKey armed returned)
    rcases Queue.replaceLiveAtPath_eq_ok hrep with ⟨_, rfl⟩ | ⟨rfl, hfresh, rfl⟩
    · refine Moves.grown ?_
      split
      · refine hret.getD fun q' h => approveUnattended_moves (fun e he => ?_) hret h
        simp [QueueEntry.live, he]
      · exact hret
    · refine hret.push ⟨⟨rfl, hfresh⟩, ?_⟩
      unfold Visit.landsAt
      rw [hstage]
      rfl
  · exact (Moves.refl q).grown

theorem isUnattendedApproval_get (hq : q.Keyed D) (h : q.isUnattendedApproval id = true)
    (he : q.get id = some e) : e.isUnattended = true := by
  obtain ⟨b, hb, hsel⟩ := List.any_eq_true.1 h
  rw [Bool.and_eq_true] at hsel
  obtain rfl : b.entryId = id := of_decide_eq_true hsel.1
  rw [hq.get_of_mem hb, Option.some.injEq] at he
  exact he ▸ hsel.2

theorem retractUnattended_moves (hq : q.Keyed D) (now : DateTime) (ignored returned : List Uuid) :
    Moves (·.isUnattended = true) (fun _ => True) q (retractUnattended q now ignored returned) := by
  have one : ∀ (f : QueueEntry → QueueEntry), (∀ e, (f e).key = e.key) → ∀ q' id,
      Moves (·.isUnattended = true) (fun _ => True) q q' →
      Moves (·.isUnattended = true) (fun _ => True) q
        (if q'.isUnattendedApproval id then q'.update id f else q') := by
    intro f hf q' id h
    split
    next hu =>
      exact h.update hf (fun e _ he => isUnattendedApproval_get (h.keyed hq) hu he)
        fun _ _ => trivial
    · exact h
  refine Moves.foldl ((Moves.refl q).foldl fun q' id _ h => ?_) fun q' id _ h => ?_
  · exact one _ (by intro; rfl) q' id h
  · simp only [Queue.returnToWaiting, Queue.revokeApproval,
      Queue.update_update (f := QueueEntry.revoked "" now) fun _ => rfl]
    exact one _ (by intro; rfl) q' id h

/-! ## The end of an upload -/

/-- Changes of the one entry the pass has in flight. -/
theorem Moves.here (h : Moves (·.entryId = id) (fun _ => True) q q')
    (hkey : ∀ e, (f e).key = e.key) :
    Moves (·.entryId = id) (fun _ => True) q (q'.update id f) :=
  h.update hkey (fun _ he _ => (Queue.get_eq_some he).2) fun _ _ => trivial

theorem Moves.one (hkey : ∀ e, (f e).key = e.key) :
    Moves (·.entryId = id) (fun _ => True) q (q.update id f) :=
  (Moves.refl q).here hkey

theorem holdWithPin_moves (q : Queue) (id : Uuid) (reason : String) (pin : Option String)
    (now : DateTime) :
    Moves (·.entryId = id) (fun _ => True) q (q.holdWithPin id reason pin now) := by
  have hheld : Moves (·.entryId = id) (fun _ => True) q (q.revokeApproval id reason now) :=
    .one (by intro; rfl)
  cases pin with
  | none => exact hheld
  | some digest =>
    refine hheld.getD fun q' h => hheld.edit (by intro; rfl) (fun e he _ => ?_) ?_ h
    · exact (Queue.get_eq_some he).2
    · exact fun _ _ => trivial

theorem applyFailed_moves (q : Queue) (id : Uuid) (reason : String) (a : Answered) :
    Moves (·.entryId = id) (fun _ => True) q (applyFailed q id reason a).1 := by
  unfold applyFailed
  split
  · unfold applyTransientRedaction Queue.recordTransientRedactionFailure
    dsimp only
    split
    · exact ((Moves.one (by intro; rfl)).here (by intro; rfl)).here (by intro; rfl)
    · exact ((Moves.one (by intro; rfl)).here (by intro; rfl)).here (by intro; rfl)
  split
  · unfold applyTransientUpload Queue.recordTransientUploadFailure
    dsimp only
    split
    · split
      · exact ((Moves.one (by intro; rfl)).here (by intro; rfl)).here (by intro; rfl)
      · exact ((Moves.one (by intro; rfl)).here (by intro; rfl)).here (by intro; rfl)
    · exact ((Moves.one (by intro; rfl)).here (by intro; rfl)).here (by intro; rfl)
  · exact (Moves.one (by intro; rfl)).here (by intro; rfl)

theorem applyUploadDecision_grown (D : Setup) (q : Queue) (id : Uuid) (a : Answered)
    (d : UploadDecision) :
    Grown (·.entryId = id) (fun _ => True)
      (fun e => Fits D q e ∧ ∃ old, q.get id = some old ∧ old.path = e.path) q
      (applyUploadDecision D q id a d).1 := by
  cases d with
  | superseded newHash =>
    unfold applyUploadDecision
    dsimp only
    split
    · exact (Moves.refl q).grown
    rename_i q1 fresh hsup
    obtain ⟨old, hold, heq⟩ := Option.map_eq_some_iff.1 hsup
    obtain ⟨_, _⟩ := heq
    have hold' : Moves (·.entryId = id) (fun _ => True) q
        (q.setState id .superseded (some reasonChanged)) := .one (by intro; rfl)
    unfold Queue.upsert
    split
    · exact hold'.grown
    rename_i htracked
    split
    · exact hold'.grown
    · refine hold'.push ⟨⟨rfl, fun b hb he => htracked ?_⟩, old, hold, rfl⟩
      obtain ⟨c, hc, hbc⟩ := hold'.mem_of_old hb
      exact List.any_eq_true.2 ⟨c, hc, decide_eq_true (hbc.sessionHash.trans he)⟩
  | uploaded | alreadySubmitted | witnessSaturated | rateLimited | paced =>
    exact ((Moves.one (by intro; rfl)).here (by intro; rfl)).grown
  | refused reason =>
    have hrefused : Moves (·.entryId = id) (fun _ => True) q
        (q.setState id .refused (some reason)) := .one (by intro; rfl)
    refine (hrefused.getD fun q' h => ?_).grown
    obtain ⟨_, -, -, rfl⟩ := Queue.edit_eq_some.1 h
    exact hrefused.here (by intro; rfl)
  | approvalStale => exact (Moves.one (by intro; rfl)).grown
  | heldForReview reason pin => exact (holdWithPin_moves q id _ _ _).grown
  | heldForSecondLook reason pin => exact (holdWithPin_moves q id _ pin _).grown
  | failed reason => exact (applyFailed_moves q id _ a).grown

end Sections

end TraceCommons.Daemon
