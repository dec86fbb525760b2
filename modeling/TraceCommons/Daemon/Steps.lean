import TraceCommons.Daemon.Moves

/-! # What one event can do

`step_grown` says what an event may do to the queue, and `step_pass` what it may do to the pass and
to the claims. Everything about whole runs is derived from these two. -/

namespace TraceCommons.Daemon

open Option

variable {D : Setup} {s : State}

/-- The sections of a pass that is under way. -/
def Event.ofPass : Event → Bool
  | .passCheck _ | .passConfig _ | .passNext _ | .passVanished | .passStopped _ | .passFailed
  | .passDecided .. | .passEnd => true
  | _ => false

variable {ev : Event}

theorem step_ofPass (h : ev.ofPass = true) :
    step D s ev = s.pass.elim s (stepPass D s · ev) := by
  cases ev with
  | passCheck | passConfig | passNext | passVanished | passStopped | passFailed | passDecided
  | passEnd => rfl
  | _ => cases h

/-! ## The queue -/

variable {now : DateTime} {cfg : SendConfig} {claimed : Nat}

theorem stepNext_moves {todo : List QueueEntry} {gate : SendGate}
    (hp : s.pass = some ⟨now, .sending cfg todo claimed⟩) :
    Moves (Touches s (.passNext gate)) (fun _ => True) s.queue
      (stepNext s now cfg todo claimed gate).queue := by
  cases todo with
  | nil => exact Moves.refl _
  | cons n todo =>
    have hup : s.upNext = some n := by rw [State.upNext, hp]
    have touched : ∀ f : QueueEntry → QueueEntry, (∀ e, (f e).key = e.key) →
        ∀ e, s.queue.get n.entryId = some e → e.state = .approved →
        Moves (Touches s (.passNext gate)) (fun _ => True) s.queue
          (s.queue.update n.entryId f) := by
      intro f hf e he happroved
      refine (Moves.refl _).update hf (fun a ha _ => ?_) fun _ _ => trivial
      rw [he, some.injEq] at ha
      subst ha
      exact ⟨happroved, n, hup, (Queue.get_eq_some he).2.symm⟩
    rw [stepNext]
    split
    · exact .refl _
    rcases takeNext_cases now _ cfg _ _ _ with
      h | h | ⟨e, he, happroved, h | h⟩ <;> rw [h]
    · exact .refl _
    · exact .refl _
    · exact touched _ (by intro; rfl) e he happroved
    · exact touched _ (by intro; rfl) e he happroved

theorem stepUploaded_grown {entry : QueueEntry} {todo : List QueueEntry}
    (hp : s.pass = some ⟨now, .inFlight cfg entry todo claimed⟩) (ev : Event) :
    Grown (Touches s ev) (Leaves s ev) (Adds D s ev) s.queue
      (stepUploaded D s now cfg entry todo claimed ev).queue := by
  have hin : s.inFlight = some entry.entryId := by rw [State.inFlight, hp]
  have htouch : (fun e : QueueEntry => s.inFlight = some e.entryId) =
      fun e => e.entryId = entry.entryId := by
    funext e
    rw [hin, some.injEq]
    exact propext eq_comm
  have here : ∀ f : QueueEntry → QueueEntry, (∀ e, (f e).key = e.key) →
      Moves (fun e => s.inFlight = some e.entryId) (fun _ => True) s.queue
        (s.queue.update entry.entryId f) := by
    intro f hf
    rw [htouch]
    exact (Moves.refl _).here hf
  cases ev with
  | passVanished => exact (here _ (by intro; rfl)).grown
  | passStopped timedOut =>
    cases timedOut with
    | false => exact (Moves.refl _).grown
    | true => exact (here _ (by intro; rfl)).grown
  | passDecided d a =>
    have hgrown := applyUploadDecision_grown D s.queue entry.entryId a d
    rw [← htouch] at hgrown
    refine Shelf.Grows.mono (fun e he => ?_) hgrown
    obtain ⟨hfits, old, hold, hpath⟩ := he
    exact ⟨hfits, entry.entryId, old, hin, hold, hpath⟩
  | _ => exact (Moves.refl _).grown

theorem releaseInFlight_moves (hp : s.pass = some ⟨now, .closing⟩) :
    Moves (Touches s .passEnd) (fun _ => True) s.queue s.queue.releaseInFlight := by
  have hin : s.inFlight = none := by rw [State.inFlight, hp]
  refine Shelf.Grows.map _ fun e _ => ?_
  split
  next h => exact .inr ⟨rfl, ⟨h, hin⟩, trivial⟩
  · exact .inl rfl

theorem stepPass_grown {p : Pass} (hp : s.pass = some p) (hq : s.queue.Keyed D) (ev : Event) :
    Grown (Touches s ev) (Leaves s ev) (Adds D s ev) s.queue (stepPass D s p ev).queue := by
  obtain ⟨_, _⟩ := p
  unfold stepPass
  split
  · exact (retractUnattended_moves hq _ _ _).grown
  · split
    · exact (Moves.refl _).grown
    · split
      · exact (Moves.refl _).grown
      · exact (Moves.refl _).grown
  next cfg todo claimed gate hstage =>
    subst hstage
    exact (stepNext_moves hp).grown
  next cfg entry todo claimed hstage =>
    subst hstage
    exact stepUploaded_grown hp _
  next hstage =>
    subst hstage
    exact (releaseInFlight_moves hp).grown
  · exact (Moves.refl _).grown

theorem step_grown (hq : s.queue.Keyed D) (ev : Event) :
    Grown (Touches s ev) (Leaves s ev) (Adds D s ev) s.queue (step D s ev).queue := by
  have same : ∀ s' : State, s'.queue = s.queue →
      Grown (Touches s ev) (Leaves s ev) (Adds D s ev) s.queue s'.queue := by
    intro s' h
    rw [h]
    exact (Moves.refl _).grown
  cases ev with
  | tick d => exact same _ rfl
  | pin id digest =>
    refine Moves.grown ((Moves.refl _).getD fun q' h => ?_)
    refine (Moves.refl _).edit (by intro; rfl) (fun e _ he => ?_) (fun _ _ => trivial) h
    have hpending : e.state = .pending := of_decide_eq_true he
    exact hpending
  | approve r => exact (approveAsAPerson_moves _ _ r).grown
  | cancel id =>
    refine Moves.grown ((Moves.refl _).toOption fun q' h => ?_)
    obtain ⟨e, he, happroved, rfl⟩ := Queue.cancel_eq_ok.1 h
    refine (Moves.refl _).update (by intro; rfl) (fun a ha _ => ?_) fun _ _ => trivial
    rw [he, some.injEq] at ha
    exact ha ▸ ⟨(Queue.get_eq_some he).2, happroved⟩
  | cancelProject key => exact (cancelProject_moves hq key).grown
  | dismiss id =>
    refine Moves.grown ((Moves.refl _).update (by intro; rfl) ?_ ?_)
    · exact fun e he _ => (Queue.get_eq_some he).2
    · exact fun e _ => decide_eq_true ⟨rfl, rfl⟩
  | keep id =>
    refine Moves.grown ((Moves.refl _).toOption fun q' h => ?_)
    obtain ⟨e, he, hlive, rfl⟩ := Queue.keep_eq_ok.1 h
    refine (Moves.refl _).update (by intro; rfl) (fun a ha _ => ?_)
      fun e _ => decide_eq_true ⟨rfl, rfl⟩
    rw [he, some.injEq] at ha
    exact ha ▸ hlive
  | undoKeep id ignored maxEntries =>
    exact Moves.grown ((Moves.refl _).toOption fun q' h => undoKeep_moves h)
  | visitCheck | passStart =>
    refine same _ ?_
    rw [step]
    split <;> rfl
  | visitReapply mode waits =>
    cases hv : s.visit with
    | none => exact same _ (by rw [step, hv, elim_none])
    | some v =>
      rw [step, hv]
      exact (v.reapply_moves _ _ _).grown
  | visitPlace | visitLoad =>
    refine same _ ?_
    rw [step]
    cases s.visit <;> rfl
  | visitLand =>
    cases hv : s.visit with
    | none => exact same _ (by rw [step, hv, elim_none])
    | some v =>
      rw [step, hv]
      refine Shelf.Grows.mono (fun e he => ?_) (Visit.land_grown (v := v) hq)
      exact ⟨he.1, v, hv, he.2⟩
  | passCheck | passConfig | passNext | passVanished | passStopped | passFailed | passDecided
  | passEnd =>
    rw [step_ofPass rfl]
    cases hp : s.pass with
    | none => exact same _ rfl
    | some p => exact stepPass_grown hp hq _

/-! ## The pass and the claims -/

/-- The snapshots a pass has still to go through. -/
def PassStage.todo : PassStage → List QueueEntry
  | .snapshot candidates => candidates
  | .checked approved => approved
  | .sending _ todo _ => todo
  | .inFlight _ _ todo _ => todo
  | .closing => []

/-- What an event may do to the pass, the clock and the claims. -/
inductive PassStep (D : Setup) (s : State) (ev : Event) (s' : State) : Prop
  | other (pass : s'.pass = s.pass) (clock : s.clock ≤ s'.clock) (claims : s'.claims = s.claims)
  | start (now : DateTime)
      (pass : s'.pass = some ⟨now, .snapshot (candidates s.queue now D.approvalHoldSecs)⟩)
      (le : now ≤ s.clock) (clock : s'.clock = s.clock) (claims : s'.claims = s.claims)
  | finish (pass : s'.pass = none) (clock : s'.clock = s.clock) (claims : s'.claims = s.claims)
  | advance (p p' : Pass) (old : s.pass = some p) (pass : s'.pass = some p')
      (now : p'.now = p.now) (todo : p'.stage.todo ⊆ p.stage.todo) (inFlight : s'.inFlight = none)
      (clock : s'.clock = s.clock) (claims : s'.claims = s.claims)
  | claim (gate : SendGate) (event : ev = .passNext gate) (p p' : Pass) (n current : QueueEntry)
      (old : s.pass = some p) (pass : s'.pass = some p')
      (now : p'.now = p.now) (todo : p'.stage.todo ⊆ p.stage.todo) (next : s.upNext = some n)
      (mem : n ∈ p.stage.todo) (get : s.queue.get n.entryId = some current)
      (approved : current.state = .approved) (inFlight : s'.inFlight = some n.entryId)
      (claimed : s'.queue.get n.entryId = some { current with state := .uploading })
      (clock : s'.clock = s.clock)
      (claims : s'.claims = s.claims ++ [⟨n.entryId, current.path, current.approvedAt, s.clock⟩])

theorem stepCheck_pass {c : List QueueEntry} {policy : Policy}
    (hp : s.pass = some ⟨now, .snapshot c⟩) :
    PassStep D s (.passCheck policy) (stepCheck s now c policy) := by
  refine .advance _ _ hp rfl rfl (fun e he => ?_) rfl rfl rfl
  exact (List.mem_filter.1 ((List.perm_insertionSort _ _).mem_iff.1 he)).1

theorem stepNext_pass {todo : List QueueEntry} {gate : SendGate}
    (hp : s.pass = some ⟨now, .sending cfg todo claimed⟩) :
    PassStep D s (.passNext gate) (stepNext s now cfg todo claimed gate) := by
  cases todo with
  | nil => exact .advance _ _ hp rfl rfl (List.nil_subset _) rfl rfl rfl
  | cons n todo =>
    rw [stepNext]
    split
    · exact .advance _ _ hp rfl rfl (List.nil_subset _) rfl rfl rfl
    rcases takeNext_cases now _ cfg _ _ _ with
      h | h | ⟨e, he, happroved, h | h⟩ <;> rw [h]
    · exact .advance _ _ hp rfl rfl (List.subset_cons_self _ _) rfl rfl rfl
    · exact .advance _ _ hp rfl rfl (List.nil_subset _) rfl rfl rfl
    · exact .advance _ _ hp rfl rfl (List.subset_cons_self _ _) rfl rfl rfl
    · refine .claim _ rfl _ _ n e hp rfl rfl (List.subset_cons_self _ _) ?_ (.head _) he
        happroved rfl ?_ rfl rfl
      · rw [State.upNext, hp]
      · exact (Queue.get_update (by intro; rfl)).trans (by rw [he, map_some])

theorem stepUploaded_pass {entry : QueueEntry} {todo : List QueueEntry}
    (hp : s.pass = some ⟨now, .inFlight cfg entry todo claimed⟩) (ev : Event) :
    PassStep D s ev (stepUploaded D s now cfg entry todo claimed ev) := by
  cases ev with
  | passVanished => exact .advance _ _ hp rfl rfl (fun _ h => h) rfl rfl rfl
  | passStopped | passFailed => exact .advance _ _ hp rfl rfl (List.nil_subset _) rfl rfl rfl
  | passDecided d a =>
    simp only [stepUploaded, continueAt]
    split
    · exact .advance _ _ hp rfl rfl (List.nil_subset _) rfl rfl rfl
    · exact .advance _ _ hp rfl rfl (fun _ h => h) rfl rfl rfl
  | _ => exact .other rfl (Nat.le_refl _) rfl

theorem stepPass_pass {p : Pass} (hp : s.pass = some p) (ev : Event) :
    PassStep D s ev (stepPass D s p ev) := by
  obtain ⟨_, _⟩ := p
  unfold stepPass
  split
  next c policy hstage =>
    subst hstage
    exact stepCheck_pass hp
  next approved cfg hstage =>
    subst hstage
    split
    · exact .finish rfl rfl rfl
    · split
      · exact .finish rfl rfl rfl
      · exact .advance _ _ hp rfl rfl (fun _ h => h) rfl rfl rfl
  next cfg todo claimed gate hstage =>
    subst hstage
    exact stepNext_pass hp
  next cfg entry todo claimed hstage =>
    subst hstage
    exact stepUploaded_pass hp _
  · exact .finish rfl rfl rfl
  · exact .other rfl (Nat.le_refl _) rfl

theorem step_pass (D : Setup) (s : State) (ev : Event) : PassStep D s ev (step D s ev) := by
  cases ev with
  | tick d => exact .other rfl (Nat.le_add_right _ _) rfl
  | visitCheck ctx obs fromTrajectory =>
    rw [step]
    split <;> exact .other rfl (Nat.le_refl _) rfl
  | visitReapply | visitPlace | visitLoad | visitLand =>
    rw [step]
    cases s.visit <;> exact .other rfl (Nat.le_refl _) rfl
  | passStart lag =>
    rw [step]
    split
    · exact .start _ rfl (Nat.sub_le _ _) rfl rfl
    · exact .other rfl (Nat.le_refl _) rfl
  | passCheck | passConfig | passNext | passVanished | passStopped | passFailed | passDecided
  | passEnd =>
    rw [step_ofPass rfl]
    cases hp : s.pass with
    | none => exact .other rfl (Nat.le_refl _) rfl
    | some p => exact stepPass_pass hp _
  | _ => exact .other rfl (Nat.le_refl _) rfl

/-- The sections that settle the entry in flight. -/
def Event.Settles : Event → Prop
  | .passVanished | .passStopped _ | .passDecided .. => True
  | _ => False

theorem inFlight_settled {id : Uuid} (h : s.inFlight = some id) (hev : ev.Settles) :
    (step D s ev).inFlight = none := by
  obtain ⟨now, cfg, entry, todo, claimed, hp⟩ :
      ∃ now cfg entry todo claimed, s.pass = some ⟨now, .inFlight cfg entry todo claimed⟩ := by
    unfold State.inFlight at h
    split at h
    next now cfg entry todo claimed hp => exact ⟨now, cfg, entry, todo, claimed, hp⟩
    · cases h
  cases ev with
  | passVanished | passStopped =>
    simp only [step, hp]
    rfl
  | passDecided d a =>
    simp only [step, hp, elim_some, stepPass, stepUploaded, continueAt]
    split <;> rfl
  | _ => exact hev.elim

/-! ## The visit -/

theorem visitCheck_landsAt {q : Queue} {ctx : PassContext} {obs : Observation}
    {fromTrajectory : Bool} {v : Visit} (h : visitCheck q ctx obs fromTrajectory = some v)
    {path : String} (hl : v.landsAt = some path) :
    q.dismissedAtPath path = false ∧ q.keptAtPath path = false := by
  unfold visitCheck at h
  split at h
  · cases h
  rename_i hno
  obtain rfl := some.inj h
  have hpath : obs.path = path := by
    split at hl
    · cases hl
    · exact some.inj hl
  subst hpath
  simpa using hno

variable {v' : Visit}

theorem Visit.place_landsAt {v : Visit} {q : Queue} {projectKey : String} {mode : ProjectMode}
    {waits : Bool} (h : v.place q projectKey mode waits = some v') : v'.landsAt = v.landsAt := by
  unfold Visit.place at h
  split at h
  next canLand hstage =>
    dsimp only at h
    split at h
    · cases h
    · obtain rfl := some.inj h
      rw [Visit.landsAt, Visit.landsAt, hstage]
  · cases h

theorem Visit.load_landsAt {v : Visit} {q : Queue} {t : Transcript} {waits : Bool}
    (h : v.load q t waits = some v') : v'.landsAt = v.landsAt := by
  unfold Visit.load at h
  split at h
  next projectKey mode hstage =>
    obtain rfl := some.inj h
    rw [Visit.landsAt, Visit.landsAt, hstage]
  · cases h

theorem stepPass_visit (p : Pass) (ev : Event) : (stepPass D s p ev).visit = s.visit := by
  unfold stepPass
  split
  · rfl
  · split
    · rfl
    · split <;> rfl
  next cfg todo claimed gate hstage =>
    unfold stepNext
    split
    · rfl
    · split
      · rfl
      · split <;> rfl
  · unfold stepUploaded
    split <;> rfl
  · rfl
  · rfl

/-- A visit that may still add an entry was one before, or has just found nobody's no there. -/
theorem step_visit (h : (step D s ev).visit = some v') {path : String}
    (hl : v'.landsAt = some path) :
    (∃ v, s.visit = some v ∧ v.landsAt = some path) ∨
    (s.queue.dismissedAtPath path = false ∧ s.queue.keptAtPath path = false) := by
  have same : (step D s ev).visit = s.visit →
      (∃ v, s.visit = some v ∧ v.landsAt = some path) ∨
      (s.queue.dismissedAtPath path = false ∧ s.queue.keptAtPath path = false) := fun heq =>
    .inl ⟨v', heq ▸ h, hl⟩
  cases ev with
  | visitCheck ctx obs fromTrajectory =>
    rw [step] at h
    split at h
    · exact .inr (visitCheck_landsAt h hl)
    · exact .inl ⟨v', h, hl⟩
  | visitReapply | visitLand =>
    rw [step] at h
    cases hv : s.visit with
    | none => simp [hv] at h
    | some v =>
      rw [hv] at h
      cases h
  | visitPlace key mode waits =>
    rw [step] at h
    cases hv : s.visit with
    | none => simp [hv] at h
    | some v =>
      rw [hv] at h
      exact .inl ⟨v, rfl, (Visit.place_landsAt h).symm.trans hl⟩
  | visitLoad t waits =>
    rw [step] at h
    cases hv : s.visit with
    | none => simp [hv] at h
    | some v =>
      rw [hv] at h
      obtain ⟨t, _, hload⟩ := bind_eq_some_iff.1 h
      exact .inl ⟨v, rfl, (Visit.load_landsAt hload).symm.trans hl⟩
  | passStart lag =>
    refine same ?_
    rw [step]
    split <;> rfl
  | passCheck | passConfig | passNext | passVanished | passStopped | passFailed | passDecided
  | passEnd =>
    refine same ?_
    rw [step_ofPass rfl]
    cases s.pass with
    | none => rfl
    | some p => exact stepPass_visit p _
  | _ => exact same rfl

end TraceCommons.Daemon
