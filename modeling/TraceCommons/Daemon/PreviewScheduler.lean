import TraceCommons.Lib.Table
import TraceCommons.Lib.Trail

/-! # The preview scheduler

Workers take the builds that shells ask for. What runs and what is to be thrown away is kept by
entry, while an entry that was asked for again with another key can be built twice at a time. As
long as an entry is built once at a time, and the key being built is not asked for again while
another one waits, every build that is delivered is the one wanted and none is lost. -/

namespace TraceCommons.Daemon.PreviewScheduler

open List

/-! ## The source -/

structure PreviewJob (κ : Type) where
  entryId : Nat
  key : κ
  rawSessionBytes : Nat
  deriving DecidableEq

inductive RequestState (ω : Type)
  | cached (outcome : ω)
  | queued
  | running

/-- `Inner`, over the keys and the outcomes. -/
structure Inner (κ ω : Type) where
  pending : List (PreviewJob κ) := []
  queued : Finset Nat := ∅
  running : Nat → Option κ := fun _ => none
  cancelled : Finset Nat := ∅
  visible : Finset Nat := ∅
  cache : List (κ × ω) := []

variable {κ ω : Type}

/-- The entry's job, which is the first one, with another key. -/
def rekey (id : Nat) (key : κ) (bytes : Nat) : List (PreviewJob κ) → List (PreviewJob κ)
  | [] => []
  | job :: jobs =>
    if job.entryId = id then ⟨id, key, bytes⟩ :: jobs else job :: rekey id key bytes jobs

namespace Inner

variable [DecidableEq κ] (s : Inner κ ω) (id : Nat)

def request (key : κ) (bytes : Nat) : RequestState ω × Inner κ ω :=
  match s.cache.lookup key with
  | some hit => (.cached hit, s)
  | none =>
    if s.running id = some key then (.running, { s with cancelled := s.cancelled.erase id })
    else
      let cancelled := if (s.running id).isSome then insert id s.cancelled else s.cancelled
      if id ∈ s.queued then
        (.queued, { s with cancelled, pending := rekey id key bytes s.pending })
      else
        (.queued, { s with
          cancelled
          queued := insert id s.queued
          pending := s.pending ++ [⟨id, key, bytes⟩] })

def cancel : Bool × Inner κ ω :=
  let wasQueued : Bool := id ∈ s.queued
  let wasRunning := (s.running id).isSome
  (wasQueued || wasRunning, { s with
    queued := s.queued.erase id
    pending := if wasQueued then s.pending.filter (·.entryId ≠ id) else s.pending
    cancelled := if wasRunning then insert id s.cancelled else s.cancelled })

/-- The first visible job, or else the first. -/
def position : Option Nat :=
  (s.pending.findIdx? (·.entryId ∈ s.visible)).or (if s.pending.isEmpty then none else some 0)

def takeNext : Option (PreviewJob κ × Inner κ ω) := do
  let position ← s.position
  let job ← s.pending[position]?
  return (job, { s with
    pending := s.pending.eraseIdx position
    queued := s.queued.erase job.entryId
    running := Function.update s.running job.entryId (some job.key) })

def previewCacheCap : Nat := 4096

def finish (job : PreviewJob κ) (outcome : ω) : Bool × Inner κ ω :=
  let s := { s with running := Function.update s.running job.entryId none }
  if job.entryId ∈ s.cancelled then
    (false, { s with cancelled := s.cancelled.erase job.entryId })
  else
    let cache :=
      if previewCacheCap ≤ s.cache.length ∧ (s.cache.lookup job.key).isNone then [] else s.cache
    (true, { s with cache := (job.key, outcome) :: cache.filter (·.1 ≠ job.key) })

end Inner

/-! ## The workers and what is wanted -/

/-- The scheduler, the jobs its workers hold, and a record of what happened: the outcomes of the
jobs finished, for each entry the key of the last request that was not answered from the cache with
no cancel after it and whether that was delivered since, and for each delivery what was wanted. -/
structure System (κ ω : Type) extends Inner κ ω where
  building : List (PreviewJob κ) := []
  finished : List (PreviewJob κ × ω) := []
  wanted : Nat → Option (κ × Bool) := fun _ => none
  delivered : List (PreviewJob κ × Option (κ × Bool)) := []

inductive Event (κ ω : Type)
  | request (id : Nat) (key : κ) (bytes : Nat)
  | cancel (id : Nat)
  | setVisible (ids : Finset Nat)
  | takeNext
  | finish (worker : Nat) (outcome : ω)

/-- A job that is finished leaves its worker, and is delivered if `finish` says so. -/
def System.finish [DecidableEq κ] (s : System κ ω) (worker : Nat) (job : PreviewJob κ) (outcome : ω) :
    System κ ω :=
  let (deliver, inner) := s.toInner.finish job outcome
  let s := { s with
    toInner := inner
    building := s.building.eraseIdx worker
    finished := (job, outcome) :: s.finished }
  if deliver then
    { s with
      wanted := Function.update s.wanted job.entryId
        ((s.wanted job.entryId).map fun w => (w.1, w.2 || w.1 = job.key))
      delivered := (job, s.wanted job.entryId) :: s.delivered }
  else s

def step [DecidableEq κ] (s : System κ ω) : Event κ ω → System κ ω
  | .request id key bytes =>
    match s.toInner.request id key bytes with
    | (.cached _, _) => s
    | (_, inner) =>
      { s with toInner := inner, wanted := Function.update s.wanted id (some (key, false)) }
  | .cancel id =>
    { s with toInner := (s.toInner.cancel id).2, wanted := Function.update s.wanted id none }
  | .setVisible ids => { s with visible := ids }
  | .takeNext =>
    match s.toInner.takeNext with
    | none => s
    | some (job, inner) => { s with toInner := inner, building := s.building ++ [job] }
  | .finish worker outcome =>
    match s.building[worker]? with
    | none => s
    | some job => s.finish worker job outcome

/-! ## The queue and the cache -/

/-- An entry has at most one pending job, `queued` are the entries with one, and what is cached was
built under its key. -/
structure Tidy (s : System κ ω) : Prop where
  once : (s.pending.map (·.entryId)).Nodup
  queued : ∀ id, id ∈ s.queued ↔ id ∈ s.pending.map (·.entryId)
  cached : ∀ e ∈ s.cache, ∃ j, (j, e.2) ∈ s.finished ∧ j.key = e.1

theorem rekey_ids (id : Nat) (key : κ) (bytes : Nat) (l : List (PreviewJob κ)) :
    (rekey id key bytes l).map (·.entryId) = l.map (·.entryId) := by
  induction l with
  | nil => rfl
  | cons job l ih =>
    rw [rekey]
    split
    next h => rw [map_cons, map_cons, h]
    · rw [map_cons, map_cons, ih]

/-- With one job an entry, the others are as they were. -/
theorem mem_rekey {id : Nat} {key : κ} {bytes : Nat} {l : List (PreviewJob κ)}
    (h : (l.map (·.entryId)).Nodup) (hid : id ∈ l.map (·.entryId)) {j : PreviewJob κ} :
    j ∈ rekey id key bytes l ↔ j = ⟨id, key, bytes⟩ ∨ j ∈ l ∧ j.entryId ≠ id := by
  induction l with
  | nil => exact absurd hid not_mem_nil
  | cons job l ih =>
    rw [rekey]
    split
    next he =>
      grind
    next he =>
      grind

theorem takeNext_eq [DecidableEq κ] {s s' : Inner κ ω} {job : PreviewJob κ}
    (h : s.takeNext = some (job, s')) :
    ∃ l1 l2, s.pending = l1 ++ job :: l2 ∧ s' = { s with
      pending := l1 ++ l2
      queued := s.queued.erase job.entryId
      running := Function.update s.running job.entryId (some job.key) } := by
  simp only [Inner.takeNext, Option.bind_eq_bind, Option.bind_eq_some_iff] at h
  obtain ⟨i, -, _, hjob, _, _⟩ := h
  obtain ⟨hi, rfl⟩ := List.getElem?_eq_some_iff.1 hjob
  exact ⟨s.pending.take i, s.pending.drop (i + 1), by simp, by rw [eraseIdx_eq_take_drop_succ]⟩

variable [DecidableEq κ]

/-- A request that is neither answered from the cache nor for the key being built leaves the entry
one pending job, with its key. -/
theorem request_queued {s : System κ ω} (h : Tidy s) {id : Nat} {key : κ} (bytes : Nat)
    (hmiss : s.cache.lookup key = none) (hrunning : s.running id ≠ some key) :
    ∃ pending, s.toInner.request id key bytes = (.queued, { s.toInner with
        cancelled := if (s.running id).isSome then insert id s.cancelled else s.cancelled
        queued := insert id s.queued
        pending }) ∧
      (pending.map (·.entryId)).Nodup ∧
      ∀ j, j ∈ pending ↔ j = ⟨id, key, bytes⟩ ∨ j ∈ s.pending ∧ j.entryId ≠ id := by
  simp only [Inner.request, hmiss, if_neg hrunning]
  split
  next hq =>
    refine ⟨rekey id key _ _, by rw [Finset.insert_eq_of_mem hq], ?_, fun j => ?_⟩
    · exact (rekey_ids id key _ _).symm ▸ h.once
    · exact mem_rekey h.once ((h.queued id).1 hq)
  next hq =>
    have hnew : ∀ j ∈ s.pending, j.entryId ≠ id := fun j hj he =>
      hq ((h.queued id).2 (mem_map.2 ⟨j, hj, he⟩))
    refine ⟨_, rfl, Table.append_key h.once hnew, fun j => ?_⟩
    grind

theorem step_tidy (s : System κ ω) (ev : Event κ ω) (h : Tidy s) : Tidy (step s ev) := by
  have hqueued := h.queued
  cases ev with
  | request id key bytes =>
    simp only [step]
    cases hhit : s.cache.lookup key with
    | some hit => simpa [Inner.request, hhit] using h
    | none =>
      by_cases hrunning : s.running id = some key
      · simp only [Inner.request, hhit, if_pos hrunning]
        exact ⟨h.once, h.queued, h.cached⟩
      obtain ⟨_, hreq, honce, hmem⟩ := request_queued h _ hhit hrunning
      rw [hreq]
      refine ⟨honce, fun j => ?_, h.cached⟩
      simp only [mem_map, hmem]
      grind
  | cancel id =>
    by_cases hq : id ∈ s.queued
    · simp only [step, Inner.cancel, hq]
      refine ⟨h.once.sublist (filter_sublist.map _), fun j => ?_, h.cached⟩
      grind
    · simp only [step, Inner.cancel, hq, Finset.erase_eq_of_notMem hq]
      exact ⟨h.once, h.queued, h.cached⟩
  | setVisible ids => exact ⟨h.once, h.queued, h.cached⟩
  | takeNext =>
    simp only [step]
    split
    · exact h
    rename_i job inner htake
    obtain ⟨l1, l2, hpending, rfl⟩ := takeNext_eq htake
    have honce := h.once
    rw [hpending] at honce hqueued
    refine ⟨honce.sublist (((sublist_cons_self job l2).append_left l1).map _), fun j => ?_,
      h.cached⟩
    grind
  | finish worker outcome =>
    simp only [step]
    split
    · exact h
    rename_i job hjob
    have hcached : ∀ e ∈ s.cache, ∃ j, (j, e.2) ∈ (job, outcome) :: s.finished ∧ j.key = e.1 :=
      fun e he => (h.cached e he).imp fun j hj => ⟨.tail _ hj.1, hj.2⟩
    simp only [System.finish, Inner.finish]
    split
    · exact ⟨h.once, h.queued, hcached⟩
    refine ⟨h.once, h.queued, fun e he => ?_⟩
    rcases mem_cons.1 he with rfl | he
    · exact ⟨job, .head _, rfl⟩
    refine hcached e ?_
    have he := (mem_filter.1 he).1
    split at he
    · cases he
    · exact he

/-! ## What is delivered -/

/-- No two jobs of an entry are built at a time, and the key being built is not asked for again
while a job of the entry is pending. -/
def careful (s : System κ ω) : Event κ ω → Bool
  | .takeNext => s.toInner.takeNext.all fun job => s.building.all (·.entryId ≠ job.1.entryId)
  | .request id key _ => s.running id ≠ some key ∨ id ∉ s.queued
  | _ => true

/-- A build whose result is kept is the one wanted, what is pending is wanted, what is wanted is
pending or being built, and what was delivered was wanted. -/
structure Current (s : System κ ω) : Prop where
  building : (s.building.map (·.entryId)).Nodup
  running : ∀ j ∈ s.building, s.running j.entryId = some j.key
  claimed : ∀ id, s.running id ≠ none → ∃ j ∈ s.building, j.entryId = id
  cancelled : ∀ id ∈ s.cancelled, s.running id ≠ none
  live : ∀ j ∈ s.building, j.entryId ∉ s.cancelled →
    (∃ d, s.wanted j.entryId = some (j.key, d)) ∧ j.entryId ∉ s.queued
  pending : ∀ j ∈ s.pending, s.wanted j.entryId = some (j.key, false)
  served : ∀ id k, s.wanted id = some (k, false) →
    (∃ j ∈ s.pending, j.entryId = id ∧ j.key = k) ∨
      ∃ j ∈ s.building, j.entryId = id ∧ j.key = k ∧ id ∉ s.cancelled
  delivered : ∀ e ∈ s.delivered, ∃ d, e.2 = some (e.1.key, d)

theorem step_current (s : System κ ω) (ev : Event κ ω) (hc : careful s ev) (ht : Tidy s)
    (h : Current s) : Current (step s ev) := by
  have hqueued := ht.queued
  have ⟨hb, hr, hcl, hca, hl, hp, hs, hd⟩ := h
  cases ev with
  | request id key bytes =>
    simp only [step]
    cases hhit : s.cache.lookup key with
    | some hit => simpa only [Inner.request, hhit] using h
    | none =>
      by_cases hrunning : s.running id = some key
      · have hnone : id ∉ s.queued := by simpa [careful, hrunning] using hc
        simp only [Inner.request, hhit, if_pos hrunning]
        constructor <;> simp only [Function.update_apply, Finset.mem_erase] <;> grind
      · obtain ⟨pending, hreq, honce, hmem⟩ := request_queued ht bytes hhit hrunning
        rw [hreq]
        have hnew := (hmem ⟨id, key, bytes⟩).2 (.inl rfl)
        constructor <;> simp only [Function.update_apply] <;> grind
  | cancel id =>
    simp only [step, Inner.cancel]
    constructor <;> simp only [Function.update_apply, Finset.mem_erase] <;> grind
  | setVisible ids => exact ⟨hb, hr, hcl, hca, hl, hp, hs, hd⟩
  | takeNext =>
    simp only [step]
    split
    · exact h
    rename_i job inner htake
    have hfree : ∀ j ∈ s.building, j.entryId ≠ job.entryId := by
      simpa [careful, htake] using hc
    obtain ⟨l1, l2, hpending, rfl⟩ := takeNext_eq htake
    have honce := ht.once
    constructor <;> simp only [Function.update_apply, Finset.mem_erase] <;> grind
  | finish worker outcome =>
    simp only [step]
    split
    · exact h
    rename_i job hjob
    obtain ⟨b1, b2, hbuilding, herase⟩ : ∃ b1 b2, s.building = b1 ++ job :: b2 ∧
        s.building.eraseIdx worker = b1 ++ b2 := by
      obtain ⟨hi, rfl⟩ := List.getElem?_eq_some_iff.1 hjob
      exact ⟨s.building.take worker, s.building.drop (worker + 1), by simp,
        eraseIdx_eq_take_drop_succ ..⟩
    simp only [System.finish, Inner.finish, herase]
    split <;> constructor <;> grind

/-- Whatever the workers do, an entry has one pending job and the cache holds what was built under
the key. In a careful run only what is wanted is delivered, and what is wanted and not delivered is
pending or being built, not to be thrown away. -/
theorem previews_wanted (evs : List (Event κ ω)) :
    Tidy (Trail.run step {} evs) ∧
    (Trail.Along step (fun s ev => careful s ev) {} evs →
      (∀ e ∈ (Trail.run step {} evs).delivered, ∃ d, e.2 = some (e.1.key, d)) ∧
      ∀ id k, (Trail.run step {} evs).wanted id = some (k, false) →
        (∃ j ∈ (Trail.run step {} evs).pending, j.entryId = id ∧ j.key = k) ∨
          ∃ j ∈ (Trail.run step {} evs).building, j.entryId = id ∧ j.key = k ∧
            id ∉ (Trail.run step {} evs).cancelled) := by
  have hstart : Tidy ({} : System κ ω) := by constructor <;> simp
  refine ⟨Trail.run_always step_tidy hstart, fun hcareful => ?_⟩
  have hrun : Tidy (Trail.run step {} evs) ∧ Current (Trail.run step {} evs) :=
    Trail.run_keeps (I := fun s => Tidy s ∧ Current s)
      (fun s ev hc h => ⟨step_tidy s ev h.1, step_current s ev hc h.1 h.2⟩) hcareful
      ⟨hstart, by constructor <;> simp⟩
  exact ⟨hrun.2.delivered, hrun.2.served⟩

/-- Two workers build an entry that was asked for with key 1 and then with key 2, and the second
build ends first. -/
def crossed : System Nat Unit :=
  Trail.run step {} [.request 0 1 0, .takeNext, .request 0 2 0, .takeNext, .finish 1 (),
    .finish 0 ()]

/-- One worker, and an entry asked for with key 2 and again with the key being built. -/
def leftover : System Nat Unit :=
  Trail.run step {} [.request 0 1 0, .takeNext, .request 0 2 0, .request 0 1 0, .finish 0 (),
    .takeNext, .finish 0 ()]

/-- The second build takes the mark meant for the first and is thrown away, and the first is
delivered; a job left pending is delivered after the key asked for last. -/
theorem previews_stale_delivered :
    (crossed.delivered = [(⟨0, 1, 0⟩, some (2, false))] ∧ crossed.wanted 0 = some (2, false) ∧
      crossed.pending = [] ∧ crossed.building = []) ∧
    leftover.delivered = [(⟨0, 2, 0⟩, some (1, true)), (⟨0, 1, 0⟩, some (1, false))] := by
  decide +kernel

/-- Two entries built at a time by two workers, the second one finished first. -/
theorem previews_wanted_two :
    let s := Trail.run step ({} : System Nat Unit) [.request 0 1 0, .request 1 1 0, .takeNext,
      .takeNext, .finish 1 ()]
    s.delivered.map (·.1.entryId) = [1] ∧ ∀ e ∈ s.delivered, ∃ d, e.2 = some (e.1.key, d) :=
  ⟨by decide +kernel, ((previews_wanted _).2 (by decide +kernel)).1⟩

end TraceCommons.Daemon.PreviewScheduler
