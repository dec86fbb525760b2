import TraceCommons.Daemon.Steps

/-! # The post-approval hold

What holds in every reachable state of the daemon, and what the hold gives a person: while every
claim is of the approval the pass has seen, no claim comes before the end of the hold, and a cancel
inside it is never too late. -/

namespace TraceCommons.Daemon

open Option

variable {D : Setup} {s s' : State} {id : Uuid} {ev : Event}

/-! ## Runs -/

/-- `P` holds of each event of a run and the state it meets. -/
def Along (P : State → Event → Prop) (D : Setup) : State → List Event → Prop
  | _, [] => True
  | s, ev :: evs => P s ev ∧ Along P D (step D s ev) evs

instance instDecidableAlong (P : State → Event → Prop) [∀ s ev, Decidable (P s ev)] (D : Setup) :
    ∀ s evs, Decidable (Along P D s evs)
  | _, [] => .isTrue trivial
  | s, ev :: evs =>
    have : Decidable (Along P D (step D s ev) evs) := instDecidableAlong P D (step D s ev) evs
    inferInstanceAs (Decidable (P s ev ∧ Along P D (step D s ev) evs))

variable {evs : List Event}

theorem run_keeps {P : State → Event → Prop} {I : State → Prop}
    (hstep : ∀ s ev, P s ev → I s → I (step D s ev)) (hP : Along P D s evs) (hI : I s) :
    I (run D s evs) := by
  induction evs generalizing s with
  | nil => exact hI
  | cons ev evs ih => exact ih hP.2 (hstep s ev hP.1 hI)

theorem along_true : Along (fun _ _ => True) D s evs := by
  induction evs generalizing s with
  | nil => trivial
  | cons ev evs ih => exact ⟨trivial, ih⟩

theorem PassStep.clock_le (h : PassStep D s ev s') : s.clock ≤ s'.clock := by
  cases h with
  | other _ h => exact h
  | start _ _ _ h => exact h.ge
  | finish _ h => exact h.ge
  | advance _ _ _ _ _ _ _ h => exact h.ge
  | claim _ _ _ _ _ _ _ _ _ _ _ _ _ _ _ _ h => exact h.ge

theorem clock_le_run (evs : List Event) : s.clock ≤ (run D s evs).clock := by
  induction evs generalizing s with
  | nil => exact Nat.le_refl _
  | cons ev evs ih => exact (step_pass D s ev).clock_le.trans ih

/-! ## Reachable states -/

/-- What holds in every state: ids are unambiguous, a pass works with snapshots that were past their
hold, and what is in flight is uploading, or dismissed meanwhile. -/
structure Inv (D : Setup) (s : State) : Prop where
  keyed : s.queue.Keyed D
  now : ∀ p, s.pass = some p → p.now ≤ s.clock
  held : ∀ p, s.pass = some p → ∀ e ∈ p.stage.todo,
    e.holdActive p.now D.approvalHoldSecs = false
  flight : ∀ id, s.inFlight = some id →
    ∃ e, s.queue.get id = some e ∧ (e.state = .uploading ∨ e.isDismissed = true)

variable {e : QueueEntry}

theorem QueueEntry.isDismissed_iff :
    e.isDismissed = true ↔ e.state = .refused ∧ e.reasonLabel = some reasonDismissed :=
  decide_eq_true_iff

theorem QueueEntry.isKept_iff :
    e.isKept = true ↔ e.state = .refused ∧ e.reasonLabel = some reasonKept :=
  decide_eq_true_iff

theorem QueueEntry.live_iff : e.live = true ↔ e.state = .pending ∨ e.state = .approved :=
  decide_eq_true_iff

theorem QueueEntry.isUnattended_iff :
    e.isUnattended = true ↔ e.state = .approved ∧ e.approvedUnattended = true :=
  decide_eq_true_iff

theorem QueueEntry.not_kept_of_dismissed (h : e.isDismissed = true) : ¬ e.isKept = true := by
  intro hk
  have hlabel := (isDismissed_iff.1 h).2.symm.trans (isKept_iff.1 hk).2
  exact absurd (some.inj hlabel) (by decide)

theorem QueueEntry.not_live_of_refused (h : e.state = .refused) : ¬ e.live = true := by
  simp [live_iff, h]

theorem QueueEntry.not_live_of_uploading (h : e.state = .uploading) : ¬ e.live = true := by
  simp [live_iff, h]

inductive Cause (s : State) (ev : Event) (e : QueueEntry) : Prop
  | dismissed (h : ev = .dismiss e.entryId)
  | settled (h : ev.Settles) (inFlight : s.inFlight = some e.entryId)
  | released (h : ev = .passEnd) (inFlight : s.inFlight = none) (state : e.state = .uploading)
  | returned (ignored : Bool) (maxEntries : Nat) (h : ev = .undoKeep e.entryId ignored maxEntries)
      (kept : e.isKept = true)
  | live (h : e.live = true)

theorem Touches.cause (h : Touches s ev e) : Cause s ev e := by
  cases ev with
  | dismiss id => exact .dismissed (congrArg _ (Eq.symm h))
  | passVanished | passStopped | passDecided => exact .settled trivial h
  | passEnd => exact .released rfl h.2 h.1
  | undoKeep id ignored maxEntries =>
    obtain ⟨rfl, hkept⟩ := h
    exact .returned _ _ rfl hkept
  | pin | approve | visitReapply => exact .live (QueueEntry.live_iff.2 (.inl h))
  | cancel | cancelProject => exact .live (QueueEntry.live_iff.2 (.inr h.2))
  | passNext => exact .live (QueueEntry.live_iff.2 (.inr h.1))
  | keep id =>
    rcases h with h | h
    · exact .live (QueueEntry.live_iff.2 (.inl h))
    · exact .live (QueueEntry.live_iff.2 (.inr (QueueEntry.isUnattended_iff.1 h).1))
  | passCheck policy =>
    exact .live (QueueEntry.live_iff.2 (.inr (QueueEntry.isUnattended_iff.1 h).1))
  | visitLand => exact .live h
  | _ => exact h.elim

/-- What is in flight stays uploading unless it is dismissed or settled. -/
theorem flight_step (hinv : Inv D s) (hin : s.inFlight = some id)
    (hin' : (step D s ev).inFlight = some id) :
    ∃ e, (step D s ev).queue.get id = some e ∧
      (e.state = .uploading ∨ e.isDismissed = true) := by
  obtain ⟨e, he, hstate⟩ := hinv.flight id hin
  obtain ⟨e', he', hbec⟩ := (step_grown hinv.keyed ev).get he
  refine ⟨e', he', ?_⟩
  rcases hbec with rfl | ⟨_, htouch, hleft⟩
  · exact hstate
  cases htouch.cause with
  | dismissed h =>
    subst h
    exact .inr hleft
  | settled h => rw [inFlight_settled hin h] at hin'; cases hin'
  | released _ hno => rw [hin] at hno; cases hno
  | returned _ _ _ hkept =>
    rcases hstate with h | h
    · cases h.symm.trans (QueueEntry.isKept_iff.1 hkept).1
    · exact absurd hkept (QueueEntry.not_kept_of_dismissed h)
  | live hlive =>
    rcases hstate with h | h
    · exact absurd hlive (QueueEntry.not_live_of_uploading h)
    · exact absurd hlive (QueueEntry.not_live_of_refused (QueueEntry.isDismissed_iff.1 h).1)

theorem inFlight_congr (h : s'.pass = s.pass) : s'.inFlight = s.inFlight := by
  rw [State.inFlight, State.inFlight, h]

theorem Inv.step (hinv : Inv D s) (ev : Event) : Inv D (step D s ev) := by
  have hkeyed : (Daemon.step D s ev).queue.Keyed D :=
    (step_grown hinv.keyed ev).keyed (fun e he => he.fits) hinv.keyed
  cases step_pass D s ev with
  | other hpass hclock hclaims =>
    refine ⟨hkeyed, fun p hp => ?_, fun p hp => ?_, fun id hin => ?_⟩
    · exact (hinv.now p (hpass ▸ hp)).trans hclock
    · exact hinv.held p (hpass ▸ hp)
    · exact flight_step hinv ((inFlight_congr hpass).symm.trans hin) hin
  | start now hpass hle hclock hclaims =>
    refine ⟨hkeyed, fun p hp => ?_, fun p hp => ?_, fun id hin => ?_⟩
    · obtain rfl := some.inj (hpass.symm.trans hp)
      exact hle.trans hclock.ge
    · obtain rfl := some.inj (hpass.symm.trans hp)
      intro e he
      have hsel := (List.mem_filter.1 he).2
      rw [Bool.and_eq_true] at hsel
      simpa using hsel.2
    · rw [State.inFlight, hpass] at hin
      cases hin
  | finish hpass hclock hclaims =>
    refine ⟨hkeyed, fun p hp => ?_, fun p hp => ?_, fun id hin => ?_⟩
    · cases hpass.symm.trans hp
    · cases hpass.symm.trans hp
    · rw [State.inFlight, hpass] at hin
      cases hin
  | advance p p' hold hpass hnow htodo hnone hclock hclaims =>
    refine ⟨hkeyed, fun r hr => ?_, fun r hr => ?_, fun id hin => ?_⟩
    · obtain rfl := some.inj (hpass.symm.trans hr)
      exact hnow ▸ (hinv.now p hold).trans hclock.ge
    · obtain rfl := some.inj (hpass.symm.trans hr)
      exact fun e he => hnow ▸ hinv.held p hold e (htodo he)
    · cases hnone.symm.trans hin
  | claim gate hev p p' n current hold hpass hnow htodo hnext hmem hget happ hin hclaimed hclock
    hclaims =>
    refine ⟨hkeyed, fun r hr => ?_, fun r hr => ?_, fun id hid => ?_⟩
    · obtain rfl := some.inj (hpass.symm.trans hr)
      exact hnow ▸ (hinv.now p hold).trans hclock.ge
    · obtain rfl := some.inj (hpass.symm.trans hr)
      exact fun e he => hnow ▸ hinv.held p hold e (htodo he)
    · obtain rfl := some.inj (hin.symm.trans hid)
      exact ⟨_, hclaimed, .inl rfl⟩

/-- A daemon that has just loaded its queue. -/
structure Loaded (D : Setup) (s : State) : Prop where
  keyed : s.queue.Keyed D
  pass : s.pass = none
  visit : s.visit = none
  claims : s.claims = []

theorem Loaded.inv (h : Loaded D s) : Inv D s where
  keyed := h.keyed
  now p hp := by cases h.pass.symm.trans hp
  held p hp := by cases h.pass.symm.trans hp
  flight id hin := by
    rw [State.inFlight, h.pass] at hin
    cases hin

theorem Inv.run (h : Inv D s) (evs : List Event) : Inv D (run D s evs) :=
  run_keeps (fun _ ev _ h => h.step ev) along_true h

/-- In every state of every run, the entry in flight is uploading, or dismissed since. -/
theorem in_flight_uploading (h : Loaded D s) (evs : List Event) {id : Uuid}
    (hin : (run D s evs).inFlight = some id) : ∃ e, (run D s evs).queue.get id = some e ∧
      (e.state = .uploading ∨ e.isDismissed = true) :=
  (h.inv.run evs).flight id hin

/-! ## No claim inside the hold -/

/-- An entry that is approved when its turn comes carries the approval the pass has seen. -/
def SameApproval (s : State) : Event → Bool
  | .passNext _ => s.upNext.all fun n => (s.queue.get n.entryId).all fun current =>
      current.state = .approved → current.approvedAt = n.approvedAt
  | _ => true

theorem SameApproval.eq {gate : SendGate} (h : SameApproval s (.passNext gate) = true)
    {n current : QueueEntry} (hn : s.upNext = some n)
    (hc : s.queue.get n.entryId = some current) (happ : current.state = .approved) :
    current.approvedAt = n.approvedAt := by
  rw [SameApproval, hn, all_some, hc] at h
  exact of_decide_eq_true h happ

variable {t : DateTime}

/-- A snapshot whose turn comes has its hold behind it. -/
theorem hold_elapsed (hinv : Inv D s) (hpos : 0 < D.approvalHoldSecs) {p : Pass}
    (hp : s.pass = some p) {n : QueueEntry} (hn : n ∈ p.stage.todo) (ht : n.approvedAt = some t) :
    t + seconds D.approvalHoldSecs ≤ s.clock := by
  have hheld := hinv.held p hp n hn
  rw [QueueEntry.holdActive, QueueEntry.holdUntil, if_neg (Nat.ne_of_gt hpos), ht,
    map_some, any_some, decide_eq_false_iff_not, Nat.not_lt] at hheld
  exact hheld.trans (hinv.now p hp)

def ClaimsHeld (D : Setup) (s : State) : Prop :=
  ∀ c ∈ s.claims, ∀ t, c.approvedAt = some t → t + seconds D.approvalHoldSecs ≤ c.time

theorem mem_todo_of_upNext {n : QueueEntry} (h : s.upNext = some n) :
    ∃ p, s.pass = some p ∧ n ∈ p.stage.todo := by
  unfold State.upNext at h
  split at h
  next now cfg entry todo claimed hp =>
    obtain rfl := some.inj h
    exact ⟨_, hp, .head _⟩
  · cases h

theorem ClaimsHeld.step (hpos : 0 < D.approvalHoldSecs) (hinv : Inv D s)
    (hsame : SameApproval s ev = true) (h : ClaimsHeld D s) : ClaimsHeld D (step D s ev) := by
  cases step_pass D s ev with
  | other _ _ hclaims => exact fun c hc => h c (hclaims ▸ hc)
  | start _ _ _ _ hclaims => exact fun c hc => h c (hclaims ▸ hc)
  | finish _ _ hclaims => exact fun c hc => h c (hclaims ▸ hc)
  | advance _ _ _ _ _ _ _ _ hclaims => exact fun c hc => h c (hclaims ▸ hc)
  | claim gate hev p p' n current hold hpass hnow htodo hnext hmem hget happ hin hcl hclock hclaims =>
    intro c hc
    rw [hclaims] at hc
    rcases List.mem_append.1 hc with hc | hc
    · exact h c hc
    obtain rfl := List.mem_singleton.1 hc
    intro t ht
    subst hev
    have hseen := SameApproval.eq hsame hnext hget happ
    exact hold_elapsed hinv hpos hold hmem (hseen.symm.trans ht)

/-! ## A cancel inside the hold -/

/-- The entry stands approved, by a person, since `t`. -/
def Standing (id : Uuid) (t : DateTime) (s : State) : Prop :=
  ∃ e, s.queue.get id = some e ∧ e.state = .approved ∧ e.approvedAt = some t ∧
    e.approvedUnattended = false

/-- Approvals, cancels of something else, and what a pass does. -/
def Undisturbed (id : Uuid) (s : State) (ev : Event) : Prop :=
  match ev with
  | .cancel other => other ≠ id
  | .cancelProject key => ∀ e, s.queue.get id = some e → e.projectKey ≠ key
  | .dismiss _ | .keep _ | .undoKeep .. | .visitCheck .. | .visitReapply .. | .visitPlace ..
  | .visitLoad .. | .visitLand => False
  | _ => True

/-- Inside the hold nothing touches the entry. -/
theorem untouched_in_hold (hpos : 0 < D.approvalHoldSecs) (hinv : Inv D s)
    (hsame : SameApproval s ev = true) (hquiet : Undisturbed id s ev)
    (hget : s.queue.get id = some e) (happ : e.state = .approved) (hat : e.approvedAt = some t)
    (hperson : e.approvedUnattended = false) (hclock : s.clock < t + seconds D.approvalHoldSecs) :
    ¬ Touches s ev e := by
  obtain ⟨_, hid⟩ := Queue.get_eq_some hget
  intro htouch
  cases ev with
  | pin | approve => cases happ.symm.trans htouch
  | cancel other => exact hquiet (htouch.1.symm.trans hid)
  | cancelProject key => exact hquiet e hget htouch.1
  | passCheck policy =>
    have hu := (QueueEntry.isUnattended_iff.1 htouch).2
    rw [hperson] at hu
    cases hu
  | passNext gate =>
    obtain ⟨_, n, hnext, hnid⟩ := htouch
    obtain ⟨p, hp, hmem⟩ := mem_todo_of_upNext hnext
    have hcur : s.queue.get n.entryId = some e := by rw [hnid, hid, hget]
    have hseen := SameApproval.eq hsame hnext hcur happ
    exact absurd (hold_elapsed hinv hpos hp hmem (hseen.symm.trans hat)) (Nat.not_le.2 hclock)
  | passVanished | passStopped | passDecided =>
    obtain ⟨e1, he1, hstate⟩ := hinv.flight _ htouch
    rw [hid, hget, some.injEq] at he1
    subst he1
    rcases hstate with h | h
    · cases happ.symm.trans h
    · cases happ.symm.trans (QueueEntry.isDismissed_iff.1 h).1
  | passEnd => cases happ.symm.trans htouch.1
  | tick | passStart | passConfig | passFailed => exact htouch
  | _ => exact hquiet

def State.claimsOf (s : State) (id : Uuid) : List Claim := s.claims.filter (·.entryId = id)

theorem Standing.step (hpos : 0 < D.approvalHoldSecs) (hinv : Inv D s)
    (hsame : SameApproval s ev = true) (hquiet : Undisturbed id s ev)
    (hclock : s.clock < t + seconds D.approvalHoldSecs) (h : Standing id t s) :
    Standing id t (step D s ev) ∧ (Daemon.step D s ev).claimsOf id = s.claimsOf id := by
  obtain ⟨e, hget, happ, hat, hperson⟩ := h
  have hno := untouched_in_hold hpos hinv hsame hquiet hget happ hat hperson hclock
  constructor
  · obtain ⟨e', hget', hbec⟩ := (step_grown hinv.keyed ev).get hget
    rcases hbec with rfl | ⟨_, htouch, _⟩
    · exact ⟨e', hget', happ, hat, hperson⟩
    · exact absurd htouch hno
  · unfold State.claimsOf
    cases step_pass D s ev with
    | other _ _ hclaims => rw [hclaims]
    | start _ _ _ _ hclaims => rw [hclaims]
    | finish _ _ hclaims => rw [hclaims]
    | advance _ _ _ _ _ _ _ _ hclaims => rw [hclaims]
    | claim gate hev p p' n cur hold hpass hnow htodo hnext hmem hcur hcapp hin hcl hclk hclaims =>
      have hne : n.entryId ≠ id := by
        intro hnid
        subst hev
        refine hno ⟨happ, n, hnext, ?_⟩
        rw [hnid, (Queue.get_eq_some hget).2]
      rw [hclaims, List.filter_append, List.filter_cons_of_neg (by simpa using hne),
        List.filter_nil, List.append_nil]

theorem Standing.run (hpos : 0 < D.approvalHoldSecs) (hinv : Inv D s)
    (hsame : Along (SameApproval · ·) D s evs) (hquiet : Along (Undisturbed id) D s evs)
    (hclock : (run D s evs).clock < t + seconds D.approvalHoldSecs) (h : Standing id t s) :
    Standing id t (run D s evs) ∧ (Daemon.run D s evs).claimsOf id = s.claimsOf id := by
  induction evs generalizing s with
  | nil => exact ⟨h, rfl⟩
  | cons ev evs ih =>
    have hbefore : s.clock < t + seconds D.approvalHoldSecs :=
      (clock_le_run _).trans_lt hclock
    obtain ⟨hstand, hclaims⟩ := h.step hpos hinv hsame.1 hquiet.1 hbefore
    obtain ⟨hrun, hclaims'⟩ := ih (hinv.step ev) hsame.2 hquiet.2 hclock hstand
    exact ⟨hrun, hclaims'.trans hclaims⟩

/-- What a person's approval leaves on an entry that was waiting. -/
theorem standing_of_approve (hinv : Inv D s) {r : ApproveRequest} {e' : QueueEntry}
    (hget : s.queue.get id = some e) (hpending : e.state = .pending)
    (hget' : (step D s (.approve r)).queue.get id = some e') (happ : e'.state = .approved) :
    Standing id s.clock (step D s (.approve r)) := by
  obtain ⟨e1, he1, hbec⟩ := (step_grown hinv.keyed _).get hget
  rw [hget', some.injEq] at he1
  subst he1
  rcases hbec with rfl | ⟨_, _, hleft⟩
  · cases hpending.symm.trans happ
  · obtain ⟨hat, hperson⟩ := hleft happ
    exact ⟨e', hget', happ, hat, hperson⟩

theorem Standing.cancel (h : Standing id t s) :
    ∃ q' e, s.queue.cancel id = .ok q' ∧ q'.get id = some e ∧ e.state = .pending ∧
      e.approvedAt = none := by
  obtain ⟨e, hget, happ, _, _⟩ := h
  refine ⟨_, e.cancelled, Queue.cancel_eq_ok.2 ⟨e, hget, happ, rfl⟩, ?_, rfl, rfl⟩
  exact (Queue.get_update (by intro; rfl)).trans (by rw [hget, map_some])

/-- While every claim is of the approval its pass has seen: no entry is claimed before its hold has
run out, and from a person's approval to the end of the hold nothing claims the entry and a cancel
succeeds, whatever approvals, other cancels and passes come between. -/
theorem hold_is_honoured (D : Setup) (hpos : 0 < D.approvalHoldSecs) (s₀ : State)
    (h₀ : Loaded D s₀) (evs : List Event) (hsame : Along (SameApproval · ·) D s₀ evs) :
    (∀ c ∈ (run D s₀ evs).claims, ∀ t, c.approvedAt = some t →
      t + seconds D.approvalHoldSecs ≤ c.time) ∧
    ∀ id e, (run D s₀ evs).queue.get id = some e → e.state = .pending →
      ∀ r e₁, (step D (run D s₀ evs) (.approve r)).queue.get id = some e₁ →
      e₁.state = .approved →
      ∀ evs₂, Along (SameApproval · ·) D (step D (run D s₀ evs) (.approve r)) evs₂ →
        Along (Undisturbed id) D (step D (run D s₀ evs) (.approve r)) evs₂ →
        (run D (step D (run D s₀ evs) (.approve r)) evs₂).clock <
          (run D s₀ evs).clock + seconds D.approvalHoldSecs →
        (∃ q' e₂, (run D (step D (run D s₀ evs) (.approve r)) evs₂).queue.cancel id = .ok q' ∧
          q'.get id = some e₂ ∧ e₂.state = .pending ∧ e₂.approvedAt = none) ∧
        (run D (step D (run D s₀ evs) (.approve r)) evs₂).claimsOf id =
          (run D s₀ evs).claimsOf id := by
  have hinv : Inv D (run D s₀ evs) := h₀.inv.run evs
  constructor
  · have hkeeps : Inv D (run D s₀ evs) ∧ ClaimsHeld D (run D s₀ evs) := by
      refine run_keeps (I := fun s => Inv D s ∧ ClaimsHeld D s) ?_ hsame ⟨h₀.inv, ?_⟩
      · exact fun s ev hs h => ⟨h.1.step ev, h.2.step hpos h.1 hs⟩
      · intro c hc
        rw [h₀.claims] at hc
        cases hc
    exact hkeeps.2
  · intro id e hget hpending r _ hget1 happ _ hsame2 hquiet hclock
    have hstand := standing_of_approve hinv hget hpending hget1 happ
    obtain ⟨hrun, hclaims⟩ := hstand.run hpos (hinv.step _) hsame2 hquiet hclock
    exact ⟨hrun.cancel, hclaims⟩

/-! ## Runs of a small daemon -/

def smallDaemon : Setup := ⟨fun hash => hash, String.length, 10, "0.24.1", fun _ _ h => h⟩

def openPolicy : Policy := ⟨false, fun _ => .notifyOnly, fun _ => .notifyOnly, fun _ _ => false⟩

/-- A card at `path` that waits for a person, with a preview pinned. -/
def waitingCard (hash path : String) : QueueEntry :=
  { entryId := hash, sessionHash := hash, projectKey := "p", path, sizeBytes := 1
    discoveredAt := 0, state := .pending, previewedEnvelopeDigest := some "digest" }

def approveCard (hash : String) : ApproveRequest :=
  { ids := [hash], scopes := ["scope"], policy := openPolicy }

/-- A pass up to the point where the first entry's turn comes. -/
def passTurn : List Event :=
  [.passStart 0, .passCheck openPolicy, .passConfig (some ⟨["scope"], false⟩)]

def twoCards : State := ⟨0, ⟨[waitingCard "a" "/a", waitingCard "b" "/b"]⟩, none, none, []⟩

theorem twoCards_loaded : Loaded smallDaemon twoCards :=
  ⟨⟨by decide, by decide⟩, rfl, rfl, rfl⟩

/-- The first card approved, and claimed at the end of its hold. -/
def firstClaimed : List Event :=
  .approve (approveCard "a") :: .tick (seconds 10) :: passTurn ++ [.passNext {}]

theorem in_flight_uploading_claimed :
    ∃ e, (run smallDaemon twoCards firstClaimed).queue.get "a" = some e ∧
      (e.state = .uploading ∨ e.isDismissed = true) :=
  in_flight_uploading twoCards_loaded _ (by decide +kernel)

def fiveSecondsLater : List Event :=
  [.tick (seconds 5), .passDecided (.rateLimited 60) ⟨0, 0, 0, none, 0, none, 0⟩]

/-- The second card is approved while the first is in flight, and cancelled five seconds later. -/
theorem hold_is_honoured_cancelled :
    (run smallDaemon twoCards firstClaimed).claims = [⟨"a", "/a", some 0, seconds 10⟩] ∧
    (∀ c ∈ (run smallDaemon twoCards firstClaimed).claims, ∀ t, c.approvedAt = some t →
      t + seconds 10 ≤ c.time) ∧
    ∃ q' e₂, (run smallDaemon (step smallDaemon (run smallDaemon twoCards firstClaimed)
        (.approve (approveCard "b"))) fiveSecondsLater).queue.cancel "b" = .ok q' ∧
      q'.get "b" = some e₂ ∧ e₂.state = .pending ∧ e₂.approvedAt = none := by
  obtain ⟨hclaims, hcancel⟩ := hold_is_honoured smallDaemon (by decide) twoCards twoCards_loaded
    firstClaimed (by decide +kernel)
  refine ⟨by decide +kernel, hclaims, ?_⟩
  exact (hcancel "b" (waitingCard "b" "/b") (by decide +kernel) rfl (approveCard "b")
    ((waitingCard "b" "/b").approvedUnder ((approveCard "b").terms (seconds 10)))
    (by decide +kernel) rfl fiveSecondsLater (by decide +kernel) ⟨trivial, trivial, trivial⟩
    (by decide +kernel)).1

/-- The hold is checked on the snapshot only: an entry cancelled and approved again before its turn
is claimed at once, and a cancel inside the new hold is refused. -/
theorem claimed_inside_hold :
    ∃ D s₀ evs c t, 0 < D.approvalHoldSecs ∧ Loaded D s₀ ∧ c ∈ (run D s₀ evs).claims ∧
      c.approvedAt = some t ∧ c.time < t + seconds D.approvalHoldSecs ∧
      (run D s₀ evs).queue.cancel c.entryId = .error "not-approved" := by
  refine ⟨smallDaemon, twoCards, .approve (approveCard "a") :: .tick (seconds 10) :: passTurn ++
    [.tick (seconds 1), .cancel "a", .pin "a" "digest", .approve (approveCard "a"), .passNext {}],
    ⟨"a", "/a", some (seconds 11), seconds 11⟩, seconds 11, by decide, twoCards_loaded, ?_⟩
  decide +kernel

end TraceCommons.Daemon
