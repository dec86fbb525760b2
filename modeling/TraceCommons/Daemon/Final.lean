import TraceCommons.Daemon.Hold

/-! # A person's no

A dismissal and a keep are recorded on one entry and answered from its path. Once nothing at the
path is waiting, approved, in flight or about to be added, the answer stands for good: no event
brings the path back, but for the undo of the keep itself. -/

namespace TraceCommons.Daemon

variable {D : Setup} {s s' : State} {id : Uuid} {ev : Event} {path label : String}

/-- Nothing at the path is waiting, approved or uploading, no other card there is kept, no pass has
one of them in flight, and no visit is about to add one. -/
structure Settled (id : Uuid) (path : String) (s : State) : Prop where
  closed : ∀ e ∈ s.queue.entries, e.path = path →
    e.live = false ∧ e.state ≠ .uploading ∧ (e.entryId ≠ id → e.isKept = false)
  flight : ∀ j e, s.inFlight = some j → s.queue.get j = some e → e.path ≠ path
  visit : ∀ v, s.visit = some v → v.landsAt ≠ some path

theorem Settled.of_idle (hpass : s.pass = none) (hvisit : s.visit = none)
    (hclosed : ∀ e ∈ s.queue.entries, e.path = path →
      e.live = false ∧ e.state ≠ .uploading ∧ (e.entryId ≠ id → e.isKept = false)) :
    Settled id path s where
  closed := hclosed
  flight j e hin := by
    rw [State.inFlight, hpass] at hin
    cases hin
  visit v hv := by cases hvisit.symm.trans hv

/-- The entry carries the person's no. -/
def Refused (label : String) (id : Uuid) (path : String) (s : State) : Prop :=
  ∃ e, s.queue.get id = some e ∧ e.path = path ∧ e.state = .refused ∧ e.reasonLabel = some label

/-- The two ways a person takes a keep back: the undo, and a dismissal in its place. -/
def takesBack (id : Uuid) : Event → Bool
  | .undoKeep j _ _ => j = id
  | .dismiss j => j = id
  | _ => false

/-- The two answers, and what each of them outlasts. -/
def Stands (label : String) (id : Uuid) (ev : Event) : Prop :=
  label = reasonDismissed ∨ label = reasonKept ∧ takesBack id ev = false

/-- What may still be touched at a settled path: the dismissed or kept card, by a dismissal. -/
theorem Settled.touched (hinv : Inv D s) (h : Settled id path s) (hr : Refused label id path s)
    (hs : Stands label id ev) {e : QueueEntry} (he : e ∈ s.queue.entries) (hp : e.path = path)
    (ht : Touches s ev e) : ev = .dismiss e.entryId := by
  obtain ⟨hlive, hup, hkept⟩ := h.closed e he hp
  have hget := hinv.keyed.get_of_mem he
  cases ht.cause with
  | dismissed hev => exact hev
  | settled _ hin => exact absurd hp (h.flight _ e hin hget)
  | released _ _ hstate => exact absurd hstate hup
  | live hl => exact absurd hl (by simp [hlive])
  | returned ignored maxEntries hev hk =>
    -- only the card itself may be kept, and its keep is not taken back
    have hid : e.entryId = id := by
      by_contra hne
      rw [hkept hne] at hk
      cases hk
    rcases hs with rfl | ⟨_, hno⟩
    · obtain ⟨e1, hget1, _, hrefused, hlabel⟩ := hr
      rw [← hid, hget, Option.some.injEq] at hget1
      subst hget1
      exact absurd hk (QueueEntry.not_kept_of_dismissed
        (QueueEntry.isDismissed_iff.2 ⟨hrefused, hlabel⟩))
    · rw [hev, takesBack, decide_eq_false_iff_not] at hno
      exact absurd hid hno

theorem Refused.step (hinv : Inv D s) (h : Settled id path s) (hr : Refused label id path s)
    (hs : Stands label id ev) : Refused label id path (step D s ev) := by
  obtain ⟨e, hget, hp, hrefused, hlabel⟩ := hr
  obtain ⟨e', hget', hbec⟩ := (step_grown hinv.keyed ev).get hget
  have hp' : e'.path = path := hbec.path.trans hp
  rcases hbec with rfl | ⟨_, htouch, hleft⟩
  · exact ⟨e', hget', hp, hrefused, hlabel⟩
  obtain ⟨hmem, hid⟩ := Queue.get_eq_some hget
  have hev := h.touched hinv ⟨e, hget, hp, hrefused, hlabel⟩ hs hmem hp htouch
  subst hev
  obtain ⟨hrefused', hlabel'⟩ := QueueEntry.isDismissed_iff.1 hleft
  rcases hs with rfl | ⟨_, hno⟩
  · exact ⟨e', hget', hp', hrefused', hlabel'⟩
  · rw [takesBack, decide_eq_false_iff_not] at hno
    exact absurd hid hno

/-- A claim is of a path that is not settled. -/
theorem Settled.claim_path (h : Settled id path s) {n current : QueueEntry}
    (hget : s.queue.get n.entryId = some current) (happ : current.state = .approved) :
    current.path ≠ path := by
  intro hp
  obtain ⟨hlive, _, _⟩ := h.closed _ (Queue.get_eq_some hget).1 hp
  rw [QueueEntry.live_iff.2 (.inr happ)] at hlive
  cases hlive

theorem Refused.noted (hs : Stands label id ev) (hr : Refused label id path s) :
    s.queue.dismissedAtPath path = true ∨ s.queue.keptAtPath path = true := by
  obtain ⟨e, hget, rfl, hrefused, hlabel⟩ := hr
  have hmem := (Queue.get_eq_some hget).1
  rcases hs with rfl | ⟨rfl, _⟩
  · exact .inl (Queue.dismissedAtPath_of_mem hmem (QueueEntry.isDismissed_iff.2 ⟨hrefused, hlabel⟩))
  · exact .inr (Queue.keptAtPath_of_mem hmem (QueueEntry.isKept_iff.2 ⟨hrefused, hlabel⟩))

theorem Settled.step (hinv : Inv D s) (h : Settled id path s) (hr : Refused label id path s)
    (hs : Stands label id ev) : Settled id path (step D s ev) := by
  refine ⟨?closed, ?flight, ?visit⟩
  case closed =>
    intro e' he' hp'
    rcases (step_grown hinv.keyed ev).mem he' with ⟨e, he, hbec⟩ | hadd
    · have hp : e.path = path := hbec.path.symm.trans hp'
      rcases hbec with rfl | ⟨_, htouch, hleft⟩
      · exact h.closed e' he hp
      have hev := h.touched hinv hr hs he hp htouch
      subst hev
      have hrefused := (QueueEntry.isDismissed_iff.1 hleft).1
      refine ⟨by simpa using QueueEntry.not_live_of_refused hrefused, ?_, fun _ => ?_⟩
      · rw [hrefused]
        nofun
      · simpa using QueueEntry.not_kept_of_dismissed hleft
    · -- a new card comes from a visit or from the entry in flight, and neither is of this path
      exfalso
      have hfrom := hadd.from_
      cases ev with
      | visitLand =>
        obtain ⟨v, hv, hl⟩ := hfrom
        exact h.visit v hv (hp' ▸ hl)
      | passDecided d a =>
        obtain ⟨j, old, hin, hget, hold⟩ := hfrom
        exact h.flight j old hin hget (hold.trans hp')
      | _ => exact hfrom
  case flight =>
    intro j e' hin' hget' hp'
    have kept : s.inFlight = some j → False := by
      intro hin
      obtain ⟨e, hget, _⟩ := hinv.flight j hin
      obtain ⟨e1, hget1, hbec⟩ := (step_grown hinv.keyed ev).get hget
      rw [hget', Option.some.injEq] at hget1
      subst hget1
      exact h.flight j e hin hget (hbec.path.symm.trans hp')
    cases step_pass D s ev with
    | other hpass => exact kept ((inFlight_congr hpass).symm.trans hin')
    | start _ hpass => rw [State.inFlight, hpass] at hin'; cases hin'
    | finish hpass => rw [State.inFlight, hpass] at hin'; cases hin'
    | advance _ _ _ _ _ _ hnone => cases hnone.symm.trans hin'
    | claim gate hev p p' n cur hold hpass hnow htodo hnext hmem hcur happ hin hcl hclk hclaims =>
      obtain rfl := Option.some.inj (hin.symm.trans hin')
      rw [hcl, Option.some.injEq] at hget'
      subst hget'
      exact h.claim_path hcur happ hp'
  case visit =>
    intro v' hv' hl
    rcases step_visit hv' hl with ⟨v, hv, hl'⟩ | ⟨hnd, hnk⟩
    · exact h.visit v hv hl'
    · rcases hr.noted hs with hd | hk
      · rw [hnd] at hd; cases hd
      · rw [hnk] at hk; cases hk

def State.claimsAt (s : State) (path : String) : List Claim := s.claims.filter (·.path = path)

theorem Settled.claims (h : Settled id path s) :
    (Daemon.step D s ev).claimsAt path = s.claimsAt path := by
  unfold State.claimsAt
  cases step_pass D s ev with
  | other _ _ hclaims => rw [hclaims]
  | start _ _ _ _ hclaims => rw [hclaims]
  | finish _ _ hclaims => rw [hclaims]
  | advance _ _ _ _ _ _ _ _ hclaims => rw [hclaims]
  | claim gate hev p p' n cur hold hpass hnow htodo hnext hmem hcur happ hin hcl hclk hclaims =>
    rw [hclaims, List.filter_append,
      List.filter_cons_of_neg (by simpa using h.claim_path hcur happ), List.filter_nil,
      List.append_nil]

theorem Refused.run (hinv : Inv D s) (h : Settled id path s) (hr : Refused label id path s)
    (evs : List Event) (hs : ∀ ev ∈ evs, Stands label id ev) :
    Refused label id path (run D s evs) ∧ (Daemon.run D s evs).claimsAt path = s.claimsAt path := by
  induction evs generalizing s with
  | nil => exact ⟨hr, rfl⟩
  | cons ev evs ih =>
    have hev := hs ev (.head _)
    obtain ⟨hrun, hclaims⟩ := ih (hinv.step ev) (h.step hinv hr hev) (hr.step hinv h hev)
      fun ev' h' => hs ev' (.tail ev h')
    exact ⟨hrun, hclaims.trans h.claims⟩

theorem refused_of_dismiss {e : QueueEntry} (hget : s.queue.get id = some e) :
    Refused reasonDismissed id e.path (step D s (.dismiss id)) :=
  ⟨e.inState _ _,
    (Queue.get_update (by intro; rfl)).trans (by rw [hget, Option.map_some]), rfl, rfl, rfl⟩

theorem refused_of_keep {e : QueueEntry} (hget : s.queue.get id = some e) {q' : Queue}
    (hkeep : s.queue.keep id = .ok q') : Refused reasonKept id e.path (step D s (.keep id)) := by
  obtain ⟨_, _, _, rfl⟩ := Queue.keep_eq_ok.1 hkeep
  refine ⟨e.kept, ?_, rfl, rfl, rfl⟩
  rw [step, hkeep]
  exact (Queue.get_update (by intro; rfl)).trans (by rw [hget, Option.map_some])

/-- Once a dismissal or a keep has left its path settled, the path stays dismissed, or kept until
the keep is taken back, in every later state, and nothing at it is ever claimed. -/
theorem no_is_final (D : Setup) (s₀ : State) (h₀ : Loaded D s₀) (evs : List Event) (id : Uuid)
    (e : QueueEntry) (hget : (run D s₀ evs).queue.get id = some e) :
    (Settled id e.path (step D (run D s₀ evs) (.dismiss id)) →
      ∀ evs₂, (run D (step D (run D s₀ evs) (.dismiss id)) evs₂).queue.dismissedAtPath e.path =
          true ∧
        (run D (step D (run D s₀ evs) (.dismiss id)) evs₂).claimsAt e.path =
          (step D (run D s₀ evs) (.dismiss id)).claimsAt e.path) ∧
    ∀ q', (run D s₀ evs).queue.keep id = .ok q' →
      Settled id e.path (step D (run D s₀ evs) (.keep id)) →
      ∀ evs₂, (∀ ev ∈ evs₂, takesBack id ev = false) →
        (run D (step D (run D s₀ evs) (.keep id)) evs₂).queue.keptAtPath e.path = true ∧
        (run D (step D (run D s₀ evs) (.keep id)) evs₂).claimsAt e.path =
          (step D (run D s₀ evs) (.keep id)).claimsAt e.path := by
  have hinv : Inv D (run D s₀ evs) := h₀.inv.run evs
  constructor
  · intro hset evs₂
    obtain ⟨⟨e2, hget2, hp, hrefused, hlabel⟩, hclaims⟩ :=
      (refused_of_dismiss hget).run (hinv.step _) hset _ fun _ _ => .inl rfl
    refine ⟨?_, hclaims⟩
    rw [← hp]
    exact Queue.dismissedAtPath_of_mem (Queue.get_eq_some hget2).1
      (QueueEntry.isDismissed_iff.2 ⟨hrefused, hlabel⟩)
  · intro q' hkeep hset evs₂ hno
    obtain ⟨⟨e2, hget2, hp, hrefused, hlabel⟩, hclaims⟩ :=
      (refused_of_keep hget hkeep).run (hinv.step _) hset _
        fun ev hev => .inr ⟨rfl, hno ev hev⟩
    refine ⟨?_, hclaims⟩
    rw [← hp]
    exact Queue.keptAtPath_of_mem (Queue.get_eq_some hget2).1
      (QueueEntry.isKept_iff.2 ⟨hrefused, hlabel⟩)

/-- One card dismissed and one kept, with nothing in flight; then both are asked for again, a visit
finds the first grown, and a pass runs. -/
def askedAgain : List Event :=
  [.approve (approveCard "a"), .approve (approveCard "b"), .tick (seconds 10),
    .visitCheck ⟨0, 10, true, ["scope"], none, false, false⟩ ⟨"/a", 2, 0⟩ false] ++ passTurn

theorem no_is_final_asked_again :
    ((run smallDaemon (step smallDaemon twoCards (.dismiss "a")) askedAgain).queue.dismissedAtPath
        "/a" = true ∧
      (run smallDaemon (step smallDaemon twoCards (.dismiss "a")) askedAgain).claimsAt "/a" =
        (step smallDaemon twoCards (.dismiss "a")).claimsAt "/a") ∧
    (run smallDaemon (step smallDaemon twoCards (.keep "b")) askedAgain).queue.keptAtPath
        "/b" = true ∧
      (run smallDaemon (step smallDaemon twoCards (.keep "b")) askedAgain).claimsAt "/b" =
        (step smallDaemon twoCards (.keep "b")).claimsAt "/b" := by
  constructor
  · refine (no_is_final smallDaemon twoCards twoCards_loaded [] "a" (waitingCard "a" "/a")
      (by decide +kernel)).1 ?_ askedAgain
    exact Settled.of_idle rfl rfl (by decide +kernel)
  · refine (no_is_final smallDaemon twoCards twoCards_loaded [] "b" (waitingCard "b" "/b")
      (by decide +kernel)).2 (twoCards.queue.update "b" (·.kept)) (by decide +kernel) ?_ askedAgain
      (by decide +kernel)
    exact Settled.of_idle rfl rfl (by decide +kernel)

/-- The card is dismissed while its upload runs; the upload is turned away by a rate limit, which
puts the entry back to approved, and the next pass claims it. -/
def dismissedInFlight : List Event :=
  [.passDecided (.rateLimited 60) ⟨0, 0, 0, none, 0, none, 0⟩, .passEnd, .tick (seconds 1000)] ++
    passTurn ++ [.passNext {}]

def armedPolicy : Policy := { openPolicy with resolve := fun _ => .autoUpload }

/-- A visit in an armed folder that has found nobody's no at the path yet. -/
def visitUnderWay : List Event :=
  [.tick (seconds 100000),
    .visitCheck ⟨seconds 100000, 10, true, ["scope"], none, false, false⟩ ⟨"/a", 2, 0⟩ false,
    .visitPlace "p" .autoUpload false]

/-- The card is dismissed while the visit loads the session; what it loaded still lands, approved,
and a pass claims it. -/
def dismissedUnderVisit : List Event :=
  [.visitLoad (some ⟨"grown", 3, none⟩) false, .visitLand, .passStart 0, .passCheck armedPolicy,
    .passConfig (some ⟨["scope"], false⟩), .passNext {}]

/-- A dismissal is undone by what an upload in flight records, and a visit under way lands beside
it; either way the conversation is claimed after the dismissal. -/
theorem no_is_not_final :
    (∃ D s₀ evs id e evs₂, Loaded D s₀ ∧ (run D s₀ evs).queue.get id = some e ∧
      e.state ≠ .uploaded ∧
      (run D (step D (run D s₀ evs) (.dismiss id)) evs₂).queue.dismissedAtPath e.path = false ∧
      (run D (step D (run D s₀ evs) (.dismiss id)) evs₂).claimsAt e.path ≠
        (step D (run D s₀ evs) (.dismiss id)).claimsAt e.path) ∧
    ∃ D s₀ evs id e evs₂, Loaded D s₀ ∧ (run D s₀ evs).queue.get id = some e ∧
      e.state = .pending ∧
      (run D (step D (run D s₀ evs) (.dismiss id)) evs₂).claimsAt e.path ≠
        (step D (run D s₀ evs) (.dismiss id)).claimsAt e.path := by
  constructor
  · refine ⟨smallDaemon, twoCards, firstClaimed, "a",
      { (waitingCard "a" "/a").approvedUnder ((approveCard "a").terms 0) with state := .uploading },
      dismissedInFlight, twoCards_loaded, ?_⟩
    decide +kernel
  · refine ⟨smallDaemon, twoCards, visitUnderWay, "a", waitingCard "a" "/a", dismissedUnderVisit,
      twoCards_loaded, ?_⟩
    decide +kernel

end TraceCommons.Daemon
