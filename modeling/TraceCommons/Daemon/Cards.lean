import TraceCommons.Daemon.Moves
import TraceCommons.Lib.Fold
import TraceCommons.Lib.Trail

/-! # The queue under every operation

The operations that take a resolved entry back into the queue, beside those the watcher and the
upload pass use, and runs of all of them. What is asked of the runs is what a card in front of a
person may carry: nothing of an approval that is over. -/

namespace TraceCommons.Daemon

/-! ## Versions -/

/-- The digits of a part that fits in a `u64`. -/
def versionPart (raw : List Char) : Option Nat :=
  if raw.isEmpty || !raw.all fun c => '0' ≤ c && c ≤ '9' then none
  else
    let n := raw.foldl (fun n c => 10 * n + (c.toNat - 48)) 0
    if n < 2 ^ 64 then some n else none

def parseVersion (v : String) : Option (Nat × Nat × Nat) :=
  match v.toList.splitOn '.' with
  | [major, minor, patch] => do
    return (← versionPart major, ← versionPart minor, ← versionPart patch)
  | _ => none

/-- `is_newer`, with an error as no. -/
def isNewer (current offered : String) : Bool :=
  match parseVersion current, parseVersion offered with
  | some (a, b, c), some (a', b', c') => a < a' || (a = a' && (b < b' || (b = b' && c < c')))
  | _, _ => false

/-! ## Back into the queue -/

def reasonExpired : String := "expired-without-decision"

namespace QueueEntry

/-- Whether `reoffer_panicked_refusals` moves the entry. -/
def isReofferedBy (currentVersion : String) (e : QueueEntry) : Bool :=
  reofferedOnANewerBuild.any fun reason =>
    e.isRefusedFor reason &&
      match e.refusedOnVersion with
      | some refusedOn => isNewer refusedOn currentVersion
      | none => reason = reasonWitnessAttestationUnavailable

/-- After `reoffer_panicked_refusals`: the terms of its approval stay as they are. -/
def offeredAgain (e : QueueEntry) : QueueEntry :=
  { e with
    state := if e.approvedAt.isSome then .approved else .pending
    reasonLabel := none
    refusedOnVersion := none }

/-- After `revive_expired`. -/
def revived (now : DateTime) (e : QueueEntry) : QueueEntry :=
  { e.withoutTerms with
    state := .pending, reasonLabel := none, discoveredAt := now, approvedUnattended := false }

def waitingSince (e : QueueEntry) : DateTime :=
  e.reviewStartedAt.elim e.discoveredAt (max · e.discoveredAt)

def expiresAt (now : DateTime) (ttlDays : Int) (e : QueueEntry) : Bool :=
  e.state = .pending ∧ (e.waitingSince : Int) + ttlDays * seconds 86400 < now

def expiredNow (e : QueueEntry) : QueueEntry :=
  { e with state := .expired, reasonLabel := some reasonExpired }

end QueueEntry

namespace Queue

variable (q : Queue)

def mapIf (p : QueueEntry → Bool) (f : QueueEntry → QueueEntry) : Queue :=
  ⟨q.entries.map fun e => if p e then f e else e⟩

def reofferPanickedRefusals (currentVersion : String) : Queue :=
  q.mapIf (·.isReofferedBy currentVersion) (·.offeredAgain)

def reviveExpired (id : Uuid) (now : DateTime) : Option Queue :=
  q.edit id (·.state = .expired) (·.revived now)

def expire (now : DateTime) (ttlDays : Int) (blockedOnHealth : Bool) : Queue :=
  if blockedOnHealth then q else q.mapIf (·.expiresAt now ttlDays) (·.expiredNow)

def clearProjectIgnored (projectKey : String) : Queue :=
  ⟨q.entries.filter fun e => !(e.projectKey = projectKey && e.isRefusedFor reasonProjectIgnored)⟩

/-- Whether a card or an upload of the path is there. -/
def busyAtPath (path : String) : Bool :=
  (q.atPath path).any fun e => e.live || e.state = .uploading

/-- The entries `reoffer_refused_for_reason` offers again. -/
def fresh (reason : String) (e : QueueEntry) : Bool :=
  e.isRefusedFor reason && !q.busyAtPath e.path

/-- The entries `reoffer_refused_for_reason` retires for good. -/
def outdated (reason : String) (e : QueueEntry) : Bool :=
  e.isRefusedFor reason && q.busyAtPath e.path

def idsOf (p : QueueEntry → Bool) : List Uuid := (q.entries.filter p).map (·.entryId)

def reofferRefusedForReason (reason : String) (now : DateTime) : Queue :=
  (q.idsOf (q.fresh reason)).foldl (fun q id => q.returnToWaiting id now)
    (q.retire (q.idsOf (q.outdated reason)))

end Queue

/-! ## Operations and runs -/

inductive QueueOp
  | upsert (entry : QueueEntry) (maxEntries : Nat)
  | replaceLiveAtPath (entry : QueueEntry) (maxEntries : Option Nat)
  | approve (id : Uuid) (terms : Terms)
  | approveUnattended (id : Uuid) (scopes : List String) (inputs : Option String)
  | cancel (id : Uuid)
  | keep (id : Uuid)
  | undoKeep (id : Uuid) (now : DateTime) (maxEntries : Nat)
  | revokeApproval (id : Uuid) (reason : String) (now : DateTime)
  /-- The `hold_with_*` operations. -/
  | holdWithPin (id : Uuid) (reason : String) (pin : Option String) (now : DateTime)
  | claimForUpload (id : Uuid) (now : DateTime)
  | releaseInFlight
  | setState (id : Uuid) (state : QueueState) (reason : Option String)
  | noteRefusalVersion (id : Uuid) (version : String)
  /-- `supersede`, and `upsert` of what it returns. -/
  | supersede (id : Uuid) (newHash : String) (newSize : Nat) (newModifiedAt : Option DateTime)
      (now : DateTime) (maxEntries : Nat)
  | reofferRefusedForReason (reason : String) (now : DateTime)
  | reofferPanickedRefusals (currentVersion : String)
  | reviveExpired (id : Uuid) (now : DateTime)
  | expire (now : DateTime) (ttlDays : Int) (blockedOnHealth : Bool)
  | clearProjectIgnored (projectKey : String)

/-- The queue after a request: a refused one leaves it as it was. -/
def settled (q : Queue) (o : Except String Queue) : Queue := o.toOption.getD q

def QueueOp.apply (D : Setup) (q : Queue) : QueueOp → Queue
  | upsert entry maxEntries => settled q (q.upsert entry maxEntries)
  | replaceLiveAtPath entry maxEntries =>
    settled q ((q.replaceLiveAtPath entry maxEntries).map (·.1))
  | approve id terms => (q.approve id terms).getD q
  | approveUnattended id scopes inputs => (q.approveUnattended id scopes inputs).getD q
  | cancel id => settled q (q.cancel id)
  | keep id => settled q (q.keep id)
  | undoKeep id now maxEntries => settled q (q.undoKeep id now maxEntries)
  | revokeApproval id reason now => q.revokeApproval id reason now
  | holdWithPin id reason pin now => q.holdWithPin id reason pin now
  | claimForUpload id now => (q.claimForUpload id now).getD q
  | releaseInFlight => q.releaseInFlight
  | setState id state reason => q.setState id state reason
  | noteRefusalVersion id version => q.noteRefusalVersion id version
  | supersede id newHash newSize newModifiedAt now maxEntries =>
    match q.supersede D.entryIdFor id newHash newSize newModifiedAt now with
    | none => q
    | some (q', offer) => settled q' (q'.upsert offer maxEntries)
  | reofferRefusedForReason reason now => q.reofferRefusedForReason reason now
  | reofferPanickedRefusals currentVersion => q.reofferPanickedRefusals currentVersion
  | reviveExpired id now => (q.reviveExpired id now).getD q
  | expire now ttlDays blockedOnHealth => q.expire now ttlDays blockedOnHealth
  | clearProjectIgnored projectKey => q.clearProjectIgnored projectKey

/-- No term of an approval is there. -/
def QueueEntry.Termless (e : QueueEntry) : Prop :=
  e.approvedScopes = none ∧ e.approvedInputs = none ∧ e.approvedVerdict = none ∧
    e.approvedCorrection = none ∧ e.approvedAt = none ∧ e.approvedUnattended = false

instance (e : QueueEntry) : Decidable e.Termless := by
  unfold QueueEntry.Termless
  infer_instance

/-- An entry as the watcher builds it. -/
structure QueueEntry.BuiltPending (D : Setup) (e : QueueEntry) : Prop where
  id : e.entryId = D.entryIdFor e.sessionHash
  state : e.state = .pending
  termless : e.Termless

instance (D : Setup) (e : QueueEntry) : Decidable (e.BuiltPending D) :=
  decidable_of_iff (e.entryId = D.entryIdFor e.sessionHash ∧ e.state = .pending ∧ e.Termless)
    ⟨fun ⟨h₁, h₂, h₃⟩ => ⟨h₁, h₂, h₃⟩, fun ⟨h₁, h₂, h₃⟩ => ⟨h₁, h₂, h₃⟩⟩

/-- The operation as the daemon uses it. -/
def QueueOp.AsUsed (D : Setup) : QueueOp → Prop
  | upsert entry _ | replaceLiveAtPath entry _ => entry.BuiltPending D
  | setState _ state _ => state ∈ [.refused, .failed, .uploaded, .approved]
  | _ => True

instance (D : Setup) (op : QueueOp) : Decidable (op.AsUsed D) := by
  unfold QueueOp.AsUsed
  cases op <;> infer_instance

/-! ## No term of an old approval -/

/-- What a card that waits must be. -/
def QueueEntry.Clean (e : QueueEntry) : Prop := e.state = .pending → e.Termless

/-- No approval is cancelled that nobody made, and no refusal offered again as a card holds terms:
the two operations leave them. -/
def QueueOp.LeavesNoTerms (q : Queue) : QueueOp → Prop
  | cancel id => ∀ e, q.get id = some e → e.approvedUnattended = false
  | reofferPanickedRefusals currentVersion =>
    ∀ e ∈ q.entries, e.isReofferedBy currentVersion = true → e.approvedAt = none → e.Termless
  | _ => True

def Queue.Clean (q : Queue) : Prop := ∀ e ∈ q.entries, e.Clean

variable {D : Setup} {q q' : Queue} {id : Uuid} {f : QueueEntry → QueueEntry} {e : QueueEntry}

theorem QueueEntry.Clean.of_state (h : e.state ≠ .pending) : e.Clean := fun hs => absurd hs h

namespace Queue.Clean

section

variable (hq : q.Clean)

include hq

protected theorem update (hf : ∀ e, q.get id = some e → (f e).Clean) : (q.update id f).Clean :=
  Shelf.forall_update hq hf

protected theorem edit {allowed : QueueEntry → Bool}
    (hf : ∀ e, q.get id = some e → allowed e = true → (f e).Clean)
    (h : q.edit id allowed f = some q') : q'.Clean := by
  obtain ⟨e, hget, hall, rfl⟩ := edit_eq_some.1 h
  refine hq.update fun a ha => hf a ha ?_
  rw [hget, Option.some.injEq] at ha
  exact ha ▸ hall

theorem getD {o : Option Queue} (h : ∀ q', o = some q' → q'.Clean) : (o.getD q).Clean := by
  cases o with
  | none => exact hq
  | some q' => exact h q' rfl

omit hq in
theorem settled {o : Except String Queue} (hq : q.Clean) (h : ∀ q', o = .ok q' → q'.Clean) :
    (settled q o).Clean :=
  hq.getD fun q' hq' => h q' (toOption_eq_some.1 hq')

theorem push (he : e.Clean) : Queue.Clean ⟨q.entries ++ [e]⟩ := by
  exact List.forall_mem_append.2 ⟨hq, List.forall_mem_singleton.2 he⟩

theorem mapIf {p : QueueEntry → Bool}
    (hf : ∀ e ∈ q.entries, p e = true → (f e).Clean) : (q.mapIf p f).Clean := by
  refine List.forall_mem_map.2 fun e he => ?_
  by_cases hp : p e = true
  · rw [if_pos hp]
    exact hf e he hp
  · rw [if_neg hp]
    exact hq e he

omit hq in
theorem foldl {g : Queue → Uuid → Queue} {ids : List Uuid} (hg : ∀ q id, q.Clean → (g q id).Clean)
    (hq : q.Clean) : (ids.foldl g q).Clean := by
  induction ids generalizing q with
  | nil => exact hq
  | cons id ids ih => exact ih (hg q id hq)

theorem setState {state : QueueState} {reason : Option String}
    (h : state ≠ .pending) : (q.setState id state reason).Clean :=
  hq.update fun _ _ => .of_state h

theorem retire {ids : List Uuid} : (q.retire ids).Clean :=
  foldl (fun _ _ hq => hq.setState nofun) hq

theorem upsert {maxEntries : Nat} (he : e.Clean)
    (h : q.upsert e maxEntries = .ok q') : q'.Clean := by
  unfold Queue.upsert at h
  split at h
  · cases h
    exact hq
  split at h
  · cases h
  · cases h
    exact hq.push he

theorem replaceLiveAtPath {maxEntries : Option Nat} {inserted : Bool}
    (he : e.Clean) (h : q.replaceLiveAtPath e maxEntries = .ok (q', inserted)) : q'.Clean := by
  rcases replaceLiveAtPath_eq_ok h with ⟨_, rfl⟩ | ⟨_, _, rfl⟩
  · exact hq.retire
  · exact hq.retire.push he

theorem revokeApproval {reason : String} {now : DateTime} :
    (q.revokeApproval id reason now).Clean :=
  hq.update fun _ _ _ => ⟨rfl, rfl, rfl, rfl, rfl, rfl⟩

theorem holdWithPin {reason : String} {pin : Option String} {now : DateTime} :
    (q.holdWithPin id reason pin now).Clean := by
  unfold Queue.holdWithPin
  split
  · exact hq.revokeApproval
  · refine hq.revokeApproval.getD fun q' h => hq.revokeApproval.edit (fun e he _ => ?_) h
    exact hq.revokeApproval e (get_eq_some he).1

theorem returnToWaiting {now : DateTime} : (q.returnToWaiting id now).Clean := by
  refine hq.revokeApproval.update fun e he => ?_
  exact hq.revokeApproval e (get_eq_some he).1

end

end Queue.Clean

theorem QueueOp.apply_clean {op : QueueOp} (hused : op.AsUsed D) (hop : op.LeavesNoTerms q)
    (hq : q.Clean) : (op.apply D q).Clean := by
  cases op with
  | upsert entry maxEntries => exact hq.settled fun _ h => hq.upsert (fun _ => hused.termless) h
  | replaceLiveAtPath entry maxEntries =>
    refine hq.settled fun _ h => ?_
    obtain ⟨⟨q', _⟩, hreplace, rfl⟩ := map_eq_ok.1 h
    exact hq.replaceLiveAtPath (fun _ => hused.termless) hreplace
  | approve | claimForUpload =>
    exact hq.getD fun _ h => hq.edit (fun _ _ _ => .of_state (by nofun)) h
  | approveUnattended id scopes inputs =>
    refine hq.getD fun _ h => hq.edit (fun _ _ _ => ?_) (Queue.approveUnattended_eq_some h)
    exact .of_state nofun
  | cancel id =>
    refine hq.settled fun _ h => ?_
    obtain ⟨e, _, _, rfl⟩ := Queue.cancel_eq_ok.1 h
    -- the one term that `cancel` leaves is whether somebody made the approval
    exact hq.update fun a ha _ => ⟨rfl, rfl, rfl, rfl, rfl, hop a ha⟩
  | keep id =>
    refine hq.settled fun _ h => ?_
    obtain ⟨e, _, _, rfl⟩ := Queue.keep_eq_ok.1 h
    exact hq.update fun _ _ => .of_state nofun
  | undoKeep id now maxEntries =>
    refine hq.settled fun _ h => ?_
    obtain ⟨e, _, _, rfl⟩ := Queue.undoKeep_eq_ok h
    exact hq.update fun _ _ _ => ⟨rfl, rfl, rfl, rfl, rfl, rfl⟩
  | revokeApproval id reason now => exact hq.revokeApproval
  | holdWithPin id reason pin now => exact hq.holdWithPin
  | releaseInFlight =>
    refine List.forall_mem_map.2 fun e he => ?_
    split
    · exact .of_state nofun
    · exact hq e he
  | setState id state reason =>
    refine hq.setState ?_
    rintro rfl
    simp [QueueOp.AsUsed] at hused
  | noteRefusalVersion id version =>
    refine hq.getD fun _ h => hq.edit (fun e he _ => ?_) h
    exact hq e (Queue.get_eq_some he).1
  | supersede id newHash newSize newModifiedAt now maxEntries =>
    simp only [QueueOp.apply]
    split
    · exact hq
    rename_i q1 offer h
    obtain ⟨_, _, hold⟩ := Option.map_eq_some_iff.1 h
    cases hold
    have hq1 : (q.setState id .superseded (some reasonChanged)).Clean := hq.setState nofun
    refine hq1.settled fun _ h => hq1.upsert ?_ h
    exact fun _ => ⟨rfl, rfl, rfl, rfl, rfl, rfl⟩
  | reofferRefusedForReason reason now =>
    exact Queue.Clean.foldl (fun _ _ hq => hq.returnToWaiting) hq.retire
  | reofferPanickedRefusals currentVersion =>
    refine hq.mapIf fun e he hmoved hpending => ?_
    have hat : e.approvedAt = none := by
      cases hat : e.approvedAt with
      | none => rfl
      | some at' => simp [QueueEntry.offeredAgain, hat] at hpending
    exact hop e he hmoved hat
  | reviveExpired id now =>
    exact hq.getD fun _ h => hq.edit (fun _ _ _ _ => ⟨rfl, rfl, rfl, rfl, rfl, rfl⟩) h
  | expire now ttlDays blockedOnHealth =>
    simp only [QueueOp.apply, Queue.expire]
    split
    · exact hq
    · exact hq.mapIf fun _ _ _ => .of_state nofun
  | clearProjectIgnored projectKey => exact fun e he => hq e (List.mem_filter.1 he).1

def runOps (D : Setup) (ops : List QueueOp) : Queue :=
  Trail.run (QueueOp.apply D) ⟨[]⟩ ops

def AlongOps (D : Setup) (P : Queue → QueueOp → Prop) (ops : List QueueOp) : Prop :=
  Trail.Along (QueueOp.apply D) P ⟨[]⟩ ops

/-- A card that waits carries no term of an old approval, where no operation of the run left one. -/
theorem waiting_card_has_no_terms (D : Setup) (ops : List QueueOp)
    (hops : AlongOps D (fun q op => op.AsUsed D ∧ op.LeavesNoTerms q) ops) :
    ∀ e ∈ (runOps D ops).entries, e.state = .pending → e.Termless :=
  Trail.run_keeps (I := Queue.Clean) (fun _ _ hop => QueueOp.apply_clean hop.1 hop.2) hops
    fun _ he => absurd he List.not_mem_nil

def plainSetup : Setup where
  entryIdFor := fun hash => hash
  asU128 := fun _ => 0
  approvalHoldSecs := 0
  version := "0.24.1"
  entryIdFor_injective := fun _ _ h => h

def offerOf (hash path : String) : QueueEntry where
  entryId := hash
  sessionHash := hash
  projectKey := "project"
  path := path
  sizeBytes := 1
  discoveredAt := 0
  state := .pending

theorem waiting_card_has_no_terms_after_undo :
    (∃ e ∈ (runOps plainSetup
      [.replaceLiveAtPath (offerOf "a" "p") (some 10),
        .approve "a" { scopes := ["scope"], inputs := none, approvedAt := some 5 },
        .cancel "a"]).entries, e.state = .pending) ∧
    ∀ e ∈ (runOps plainSetup
      [.replaceLiveAtPath (offerOf "a" "p") (some 10),
        .approve "a" { scopes := ["scope"], inputs := none, approvedAt := some 5 },
        .cancel "a"]).entries, e.state = .pending → e.Termless :=
  ⟨by decide +kernel, waiting_card_has_no_terms plainSetup _ (by
    simp only [AlongOps, Trail.Along, QueueOp.LeavesNoTerms, and_true]
    decide +kernel)⟩

/-- An approval nobody made, cancelled, leaves its mark on the card; refused by a build that
panicked and offered again by the next, it leaves its scopes too. -/
theorem waiting_card_keeps_terms :
    (∃ ops : List QueueOp, (∀ op ∈ ops, op.AsUsed plainSetup) ∧
      ∃ e ∈ (runOps plainSetup ops).entries, e.state = .pending ∧ e.approvedUnattended = true) ∧
    ∃ ops : List QueueOp, (∀ op ∈ ops, op.AsUsed plainSetup) ∧
      ∃ e ∈ (runOps plainSetup ops).entries,
        e.state = .pending ∧ e.approvedScopes = some ["scope"] ∧ e.approvedUnattended = true :=
  ⟨⟨[.replaceLiveAtPath (offerOf "a" "p") (some 10), .approveUnattended "a" ["scope"] none,
      .cancel "a"], by decide +kernel, by decide +kernel⟩,
    ⟨[.replaceLiveAtPath (offerOf "a" "p") (some 10), .approveUnattended "a" ["scope"] none,
      .claimForUpload "a" 5, .setState "a" .refused (some reasonRedactionPanicked),
      .noteRefusalVersion "a" "0.24.1", .reofferPanickedRefusals "0.24.2"],
      by decide +kernel, by decide +kernel⟩⟩

end TraceCommons.Daemon
