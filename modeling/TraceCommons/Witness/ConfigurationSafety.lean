import TraceCommons.Witness.Configuration

/-! # Signed witness routing never rolls back

The high water only rises: a save replaces it by a higher version or by the same payload under the
next generation. A document that was answered with is at or below it for good, and a load answers
with the payload it names. -/

namespace TraceCommons.Witness

open Conc Proc

variable {Bytes Payload Digest Keys Url : Type}

/-- The version and payload an answer lets its caller rely on. -/
def Answer.establishes : Answer Payload → Option (Nat × Payload)
  | .installed v p | .loaded v p => some (v, p)
  | _ => none

/-- The version and payload a load returned. -/
def Answer.loads : Answer Payload → Option (Nat × Payload)
  | .loaded v p => some (v, p)
  | _ => none

/-! ## The invariant -/

variable (P : Protocol Bytes Payload Digest Keys Url)

/-- The high water names the payload, or a newer version. -/
def Covers (high : Option (HighWater Digest)) (v : Nat) (p : Payload) : Prop :=
  ∃ h, high = some h ∧ (v < h.version ∨ v = h.version ∧ P.payloadSha256 p = h.payloadSha256)

/-- The high water names exactly this payload. -/
def Names (high : Option (HighWater Digest)) (v : Nat) (p : Payload) : Prop :=
  ∃ h, high = some h ∧ h.version = v ∧ h.payloadSha256 = P.payloadSha256 p

structure Dir.Inv (d : Dir Bytes Payload Digest) : Prop where
  valid : ∀ h, d.high = some h → h.version ≠ 0 ∧ h.cacheGeneration ≠ 0
  cache : ∀ b v, d.cache = some b → documentVersion P b = some v →
    ∃ h, d.high = some h ∧ v ≤ h.version
  covered : ∀ a ∈ d.answers, ∀ v p, a.answer.establishes = some (v, p) → Covers P d.high v p
  ordered : d.answers.Pairwise fun later earlier => ∀ v p v' p',
    earlier.answer.establishes = some (v, p) → later.answer.loads = some (v', p') →
      v ≤ v' ∧ (v' = v → P.payloadSha256 p' = P.payloadSha256 p)
  loaded : ∀ a ∈ d.answers, ∀ v p, a.answer.loads = some (v, p) → Names P a.high v p
  installed : ∀ a ∈ d.answers, ∀ v p, a.answer = .installed v p →
    generation a.high = a.entered + 1

variable {P} {d : Dir Bytes Payload Digest}

namespace Dir.Inv

theorem entered (h : d.Inv P) (n : Nat) : Dir.Inv P { d with entered := n } :=
  ⟨h.1, h.2, h.3, h.4, h.5, h.6⟩

theorem writeCache (h : d.Inv P) {b : Bytes}
    (hb : ∀ v, documentVersion P b = some v → ∃ high, d.high = some high ∧ v ≤ high.version) :
    Dir.Inv P { d with cache := some b } := by
  refine ⟨h.valid, ?_, h.covered, h.ordered, h.loaded, h.installed⟩
  intro b' v he hv
  cases he
  exact hb v hv

theorem lost (h : d.Inv P) : Dir.Inv P { d with cache := none } :=
  ⟨h.valid, nofun, h.covered, h.ordered, h.loaded, h.installed⟩

theorem damage (h : d.Inv P) {m : Damage Bytes} {d' : Dir Bytes Payload Digest}
    (he : d.damage P m = some d') : d'.Inv P := by
  cases m with
  | none =>
    cases he
    exact h
  | lost =>
    cases he
    exact h.lost
  | replaced b =>
    simp only [Dir.damage] at he
    split at he
    next hold =>
      cases he
      refine h.writeCache fun v hv => ?_
      rw [hv] at hold
      obtain ⟨high, hhigh, hle⟩ := (Option.any_eq_true _ _).1 hold
      exact ⟨high, hhigh, of_decide_eq_true hle⟩
    · cases he

end Dir.Inv

theorem damage_keeps {d' : Dir Bytes Payload Digest} {m : Damage Bytes}
    (he : d.damage P m = some d') :
    d'.high = d.high ∧ d'.entered = d.entered ∧ d'.answers = d.answers := by
  cases m with
  | none | lost =>
    cases he
    exact ⟨rfl, rfl, rfl⟩
  | replaced b =>
    simp only [Dir.damage] at he
    split at he
    · cases he
      exact ⟨rfl, rfl, rfl⟩
    · cases he

section Raising

variable [DecidableEq Digest]

/-- A high water that may replace another one. -/
structure Raises (high : Option (HighWater Digest)) (next : HighWater Digest) : Prop where
  valid : next.version ≠ 0 ∧ next.cacheGeneration ≠ 0
  above : ∀ held, high = some held → held.version < next.version ∨ next.samePayload held

theorem samePayload_iff {a b : HighWater Digest} :
    a.samePayload b ↔ a.version = b.version ∧ a.payloadSha256 = b.payloadSha256 :=
  decide_eq_true_iff

theorem Raises.covers {high : Option (HighWater Digest)} {next : HighWater Digest}
    (h : Raises high next) {v : Nat} {p : Payload} (hc : Covers P high v p) :
    Covers P (some next) v p := by
  obtain ⟨held, hheld, hv⟩ := hc
  refine ⟨next, rfl, ?_⟩
  rcases h.above _ hheld with _ | hsame
  · omega
  · obtain ⟨hversion, hdigest⟩ := samePayload_iff.1 hsame
    rw [hversion, hdigest]
    exact hv

theorem Dir.Inv.saveHigh (h : d.Inv P) {next : HighWater Digest} (hr : Raises d.high next) :
    Dir.Inv P { d with high := some next } := by
  refine ⟨?_, ?_, fun a ha v p he => hr.covers (h.covered a ha v p he), h.ordered, h.loaded,
    h.installed⟩
  · intro h' he
    cases he
    exact hr.valid
  · intro b v hb hv
    obtain ⟨held, hheld, hle⟩ := h.cache b v hb hv
    refine ⟨next, rfl, ?_⟩
    rcases hr.above _ hheld with _ | hsame
    · omega
    · rw [(samePayload_iff.1 hsame).1]
      exact hle

end Raising

/-! ## What a process knows under the lock -/

variable (P)

def invariant : Assertion (dirMachine P) where
  holds h := h.now.Inv P
  stable _ _ _ hi hm := hi.damage hm

/-- What depends on nothing that is changed behind the lock's back. -/
def known (F : Option (HighWater Digest) → Nat → Prop) : Assertion (dirMachine P) where
  holds h := F h.now.high h.now.entered
  stable h m s hf hm := by
    obtain ⟨hhigh, hentered, -⟩ := damage_keeps hm
    rw [Hist.push_now, hhigh, hentered]
    exact hf

/-- The high water is still the one the lock was taken over. -/
def untouched (high : Option (HighWater Digest)) : Assertion (dirMachine P) :=
  known P fun h entered => h = high ∧ entered = generation high

/-- What must be known for an answer to be given. -/
def ready (a : Answer Payload) : Assertion (dirMachine P) :=
  known P fun high entered => match a with
    | .installed v p => Names P high v p ∧ generation high = entered + 1
    | .loaded v p => Names P high v p
    | _ => True

abbrev DirTriple {α : Type} (F : Assertion (dirMachine P)) (x : DirM Bytes Payload Digest α)
    (Q : α → Assertion (dirMachine P)) : Prop :=
  Triple (invariant P) F x Q

variable {P} {cached : Except ErrorLabel (Option (CachedDocument Payload Digest Url))}

section Rules

variable {F : Assertion (dirMachine P)}

/-- `?` keeps what was known of a good reply. -/
theorem orFail_triple {α : Type} {r : Except ErrorLabel α} {Q : α → Assertion (dirMachine P)}
    (h : ∀ a, r = .ok a → ∀ h, F h → Q a h) : DirTriple P F (orFail r) Q := by
  cases r with
  | ok a => exact .pure fun hist _ hf => h a rfl _ hf
  | error e => exact .raise

theorem installLock_triple : DirTriple P F installLock
    fun _ => known P fun high entered => entered = generation high := by
  refine .bind (Q := fun _ => known P fun high entered => entered = generation _)
    (.call fun h io r s hi _ he => ?_) fun r => orFail_triple fun _ _ _ hq => hq
  cases he
  exact ⟨hi.entered _, rfl⟩

variable {high : Option (HighWater Digest)}

theorem saveHighWater_triple [DecidableEq Digest] {entered : Nat} {next : HighWater Digest}
    (hr : Raises high next) :
    DirTriple P (known P fun h g => h = high ∧ g = entered) (saveHighWater next)
      fun _ => known P fun h g => h = some next ∧ g = entered := by
  refine .bind (Q := fun r => known P fun h g => r = .ok () → h = some _ ∧ g = entered)
    (.call fun h io r s hi hk he => ?_)
    fun r => orFail_triple fun _ hok _ hq => hq hok
  obtain ⟨hhigh, hentered⟩ := hk
  cases he
  cases io with
  | done => exact ⟨hi.saveHigh (hhigh ▸ hr), fun _ => ⟨rfl, hentered⟩⟩
  | failedOld => exact ⟨hi, nofun⟩
  | failedNew => exact ⟨hi.saveHigh (hhigh ▸ hr), nofun⟩

theorem writeCache_triple {high : HighWater Digest} {entered : Nat} {b : Bytes}
    (hb : ∀ v, documentVersion P b = some v → v ≤ high.version) :
    DirTriple P (known P fun h g => h = some high ∧ g = entered) (writeCache b)
      fun _ => known P fun h g => h = some high ∧ g = entered := by
  refine .bind (Q := fun _ => known P fun h g => h = some _ ∧ g = entered)
    (.call fun h io r s hi hk he => ?_) fun r => orFail_triple fun _ _ _ hq => hq
  have hnew := hi.writeCache (b := b) fun v hv => ⟨high, hk.1, hb v hv⟩
  cases he
  cases io with
  | done | failedNew => exact ⟨hnew, hk⟩
  | failedOld => exact ⟨hi, hk⟩

/-! ## Documents -/

theorem verifiedDocument_spec {bytes : Bytes} {keys : Keys} {d : CachedDocument Payload Digest Url}
    (h : verifiedDocument P bytes keys = .ok d) :
    documentVersion P bytes = some d.config.version ∧
      d.highWater = ⟨d.config.version, P.payloadSha256 d.payload, 1⟩ := by
  unfold verifiedDocument verifySignedConfiguration at h
  unfold documentVersion
  cases henv : P.readEnvelope _ with
  | error e => simp [henv] at h
  | ok payload =>
    cases hsig : P.signatureVerifies keys bytes with
    | false => simp [henv, hsig] at h
    | true =>
      have hsigned : P.signed bytes := (P.signed_iff bytes).2 ⟨keys, hsig⟩
      cases hpay : P.readPayload payload with
      | error e => simp [henv, hsig, hpay, Except.map] at h
      | ok config =>
        simp only [henv, hsig, hpay, Except.map, if_true] at h
        split at h
        · cases h
          exact ⟨by simp [hsigned, hpay], rfl⟩
        · cases h

/-- A verified cache is at or below the high water. -/
def CachedBelow (cached : Except ErrorLabel (Option (CachedDocument Payload Digest Url)))
    (high : Option (HighWater Digest)) : Prop :=
  ∀ d, cached = .ok (some d) → ∃ h, high = some h ∧ d.config.version ≤ h.version

theorem cachedDocument_spec {keys : Keys} {r : Except ErrorLabel (Option Bytes)}
    {d : CachedDocument Payload Digest Url} (h : cachedDocument P keys r = .ok (some d)) :
    ∃ b, r = .ok (some b) ∧ verifiedDocument P b keys = .ok d := by
  cases r with
  | error e => cases h
  | ok c =>
    cases c with
    | none => cases h
    | some b =>
      simp only [cachedDocument] at h
      cases hdoc : verifiedDocument P b keys with
      | error e => simp [hdoc, Except.map] at h
      | ok doc =>
        simp only [hdoc, Except.map, Except.ok.injEq, Option.some.injEq] at h
        exact ⟨b, rfl, h ▸ hdoc⟩

theorem readCache_triple (keys : Keys) :
    DirTriple P (known P fun high entered => entered = generation high) (call .readCache)
      fun r => known P fun high entered => entered = generation high ∧
        CachedBelow (cachedDocument P keys r) high := by
  refine .call fun h io r s hi hk he => ?_
  cases he
  refine ⟨hi, hk, fun d hd => ?_⟩
  obtain ⟨b, hb, hdoc⟩ := cachedDocument_spec hd
  cases io with
  | done => exact hi.cache b _ (Except.ok.inj hb) (verifiedDocument_spec hdoc).1
  | failedOld | failedNew => cases hb

theorem readHighWater_triple :
    DirTriple P (known P fun high entered => entered = generation high ∧ CachedBelow cached high)
      readHighWater fun high => (untouched P high).and
        (.lift (CachedBelow cached high ∧
          ∀ h, high = some h → h.version ≠ 0 ∧ h.cacheGeneration ≠ 0)) := by
  refine .bind (Q := fun r => known P fun high entered =>
      entered = generation high ∧ CachedBelow cached high ∧
        (∀ h, high = some h → h.version ≠ 0 ∧ h.cacheGeneration ≠ 0) ∧
        ∀ high', r = .ok high' → high' = high)
    (.call fun h io r s hi hk he => ?_) fun r => orFail_triple fun high hr h hq => ?_
  · cases he
    refine ⟨hi, hk.1, hk.2, hi.valid, fun high' hr => ?_⟩
    cases io with
    | done =>
      cases hr
      rfl
    | failedOld | failedNew => cases hr
  · obtain ⟨hentered, hbelow, hvalid, hsame⟩ := hq
    have hread : r = .ok high := by
      cases r with
      | error e => cases hr
      | ok high' =>
        cases high' with
        | none => exact hr
        | some h' =>
          simp only [checkedHigh] at hr
          split at hr
          · cases hr
          · exact hr
    obtain rfl := hsame _ hread
    exact ⟨⟨rfl, hentered⟩, hbelow, hvalid⟩

theorem nextGeneration_eq_some {g : Nat} (h : nextGeneration high = some g) :
    g = generation high + 1 := by
  cases high with
  | none =>
    cases h
    rfl
  | some held =>
    simp only [nextGeneration] at h
    split at h
    · cases h
      rfl
    · cases h

/-- The migration has nothing to do: without a high water there is no verified cache. -/
theorem migrate_triple (hbelow : CachedBelow cached high) :
    DirTriple P (untouched P high) (migrate cached high)
      fun high' => (untouched P high).and (.lift (high' = high)) := by
  cases high with
  | some h => exact .pure fun _ _ hp => ⟨hp, rfl⟩
  | none =>
    cases cached with
    | error e => exact .raise
    | ok cached =>
      cases cached with
      | none => exact .pure fun _ _ hp => ⟨hp, rfl⟩
      | some d =>
        obtain ⟨h, hh, -⟩ := hbelow d rfl
        cases hh

end Rules

/-! ## The calls -/

section Calls

variable [DecidableEq Digest]

variable {high : Option (HighWater Digest)}

theorem publish_triple {bytes : Bytes} {payload : Payload} {next : HighWater Digest}
    (hr : Raises high next) (hgen : next.cacheGeneration = generation high + 1)
    (hdigest : next.payloadSha256 = P.payloadSha256 payload)
    (hbytes : documentVersion P bytes = some next.version) :
    DirTriple P (untouched P high) (publish bytes payload next.version next)
      fun a => ready P a := by
  refine .bind (saveHighWater_triple hr) fun _ => ?_
  refine .bind (writeCache_triple fun v hv => ?_) fun _ => .pure fun h _ hk => ?_
  · rw [hbytes] at hv
    exact Nat.le_of_eq (Option.some.inj hv).symm
  obtain ⟨hhigh, hentered⟩ := hk
  refine ⟨⟨next, hhigh, rfl, hdigest⟩, ?_⟩
  rw [hhigh, hentered]
  exact hgen

theorem decideInstall_triple {bytes : Bytes} {keys : Keys}
    {incoming : CachedDocument Payload Digest Url}
    (hdoc : verifiedDocument P bytes keys = .ok incoming)
    (hvalid : ∀ h, high = some h → h.version ≠ 0 ∧ h.cacheGeneration ≠ 0) :
    DirTriple P (untouched P high) (decideInstall bytes incoming cached high)
      fun a => ready P a := by
  obtain ⟨hbytes, hwater⟩ := verifiedDocument_spec hdoc
  have hpos := incoming.config.versionPositive
  have hfresh : ∀ g, nextGeneration high = some g →
      (∀ held, high = some held → held.version < incoming.config.version) →
      DirTriple P (untouched P high)
        (publish bytes incoming.payload incoming.config.version
          { incoming.highWater with cacheGeneration := g }) fun a => ready P a := by
    intro g hg habove
    have hgen := nextGeneration_eq_some hg
    rw [hwater]
    refine publish_triple ⟨⟨Nat.ne_of_gt hpos, ?_⟩, fun held hh => .inl (habove _ hh)⟩ hgen rfl hbytes
    dsimp only
    omega
  unfold decideInstall
  split
  · exact .raise
  cases high with
  | none =>
    cases hg : nextGeneration _ with
    | none => exact .raise
    | some g => exact hfresh g hg nofun
  | some held =>
    have hversion : incoming.highWater.version = incoming.config.version := by rw [hwater]
    dsimp only
    split
    · exact .pure fun _ _ _ => trivial
    split
    next heq =>
      split
      · exact .pure fun _ _ _ => trivial
      rename_i hsame
      split
      · exact .pure fun _ _ _ => trivial
      cases hg : nextGeneration _ with
      | none => exact .raise
      | some g =>
        have hgen := nextGeneration_eq_some hg
        have hdig := (samePayload_iff.1 (Decidable.not_not.1 hsame)).2
        rw [hwater] at hdig
        have hv := hvalid _ rfl
        refine publish_triple ⟨⟨hv.1, ?_⟩, fun h' hh => .inr ?_⟩ hgen hdig.symm ?_
        · dsimp only
          omega
        · cases hh
          exact samePayload_iff.2 ⟨rfl, rfl⟩
        · rw [hbytes, ← hversion, heq]
    next hne =>
      cases hg : nextGeneration _ with
      | none => exact .raise
      | some g =>
        refine hfresh g hg fun held' hh => ?_
        cases hh
        omega

theorem install_triple {F : Assertion (dirMachine P)} (bytes : Bytes) (keys : Keys) (url : Url) :
    DirTriple P F (install P bytes keys url) fun a => ready P a := by
  unfold install
  split
  · exact .raise
  split
  · exact .raise
  rename_i incoming hdoc
  split
  · exact .raise
  refine .bind installLock_triple fun _ => ?_
  refine .bind (readCache_triple keys) fun r => ?_
  refine .bind readHighWater_triple fun high => .lift fun hknown => ?_
  refine .bind (migrate_triple hknown.1) fun high' => .lift fun he => ?_
  rw [he]
  exact decideInstall_triple hdoc hknown.2

theorem readPair_triple {cached : Option (CachedDocument Payload Digest Url)}
    (hbelow : CachedBelow (.ok cached) high)
    (hdoc : ∀ d, cached = some d → d.highWater = ⟨d.config.version, P.payloadSha256 d.payload, 1⟩) :
    DirTriple P (untouched P high) (readPair high cached) fun a => ready P a := by
  cases high with
  | none =>
    cases cached with
    | none => exact .pure fun _ _ _ => trivial
    | some d =>
      obtain ⟨h, hh, -⟩ := hbelow d rfl
      cases hh
  | some held =>
    cases cached with
    | none => exact .raise
    | some d =>
      simp only [readPair]
      split
      next hsame =>
        obtain ⟨hversion, hdigest⟩ := samePayload_iff.1 hsame
        rw [hdoc d rfl] at hversion hdigest
        exact .pure fun h _ hk => ⟨held, hk.1, hversion, hdigest⟩
      · exact .raise

theorem loadVerified_triple {F : Assertion (dirMachine P)} (keys : Keys) :
    DirTriple P F (loadVerified P keys) fun a => ready P a := by
  refine .bind installLock_triple fun _ => ?_
  refine .bind (readCache_triple keys) fun r => ?_
  refine .bind (Q := fun cached => (known P fun high entered =>
      entered = generation high ∧ CachedBelow (.ok cached) high).and
        (.lift (cachedDocument P keys r = .ok cached)))
    (orFail_triple fun cached hr h hk => ?_) fun cached => .lift fun hcached => ?_
  · rw [hr] at hk
    exact ⟨hk, hr⟩
  refine .bind readHighWater_triple fun high => .lift fun hknown => ?_
  refine readPair_triple hknown.1 fun d hd => ?_
  subst hd
  obtain ⟨b, -, hdoc⟩ := cachedDocument_spec hcached
  exact (verifiedDocument_spec hdoc).2

theorem body_triple {F : Assertion (dirMachine P)} (r : Request Bytes Keys Url) :
    DirTriple P F (r.body P) fun a => ready P a := by
  cases r with
  | install bytes keys url => exact install_triple _ _ url
  | load keys => exact loadVerified_triple _

end Calls

/-! ## Answers -/

theorem Covers.le_of_names {high : Option (HighWater Digest)} {v v' : Nat} {p p' : Payload}
    (hc : Covers P high v p) (hn : Names P high v' p') :
    v ≤ v' ∧ (v' = v → P.payloadSha256 p' = P.payloadSha256 p) := by
  obtain ⟨h, rfl, hv⟩ := hc
  obtain ⟨h', he, rfl, hdigest⟩ := hn
  cases he
  rcases hv with _ | ⟨rfl, hp⟩
  · omega
  · exact ⟨Nat.le_refl _, fun _ => hdigest.symm.trans hp.symm⟩

theorem Names.covers {high : Option (HighWater Digest)} {v : Nat} {p : Payload}
    (h : Names P high v p) : Covers P high v p := by
  obtain ⟨h, hh, rfl, hdigest⟩ := h
  exact ⟨h, hh, .inr ⟨rfl, hdigest.symm⟩⟩

/-- An answer that is ready keeps the invariant. -/
theorem Dir.Inv.answer (h : d.Inv P) {a : Answer Payload}
    (hest : ∀ v p, a.establishes = some (v, p) → Names P d.high v p)
    (hgen : ∀ v p, a = .installed v p → generation d.high = d.entered + 1) :
    Dir.Inv P { d with answers := ⟨a, d.high, d.entered⟩ :: d.answers } := by
  have hload : ∀ v p, a.loads = some (v, p) → a.establishes = some (v, p) := by
    intro v p hl
    cases a <;> first | exact hl | cases hl
  refine ⟨h.valid, h.cache, ?_, List.pairwise_cons.2 ⟨?_, h.ordered⟩, ?_, ?_⟩
  · exact List.forall_mem_cons.2 ⟨fun v p he => (hest v p he).covers, h.covered⟩
  · intro x hx v p v' p' he hl
    exact (h.covered x hx v p he).le_of_names (hest v' p' (hload v' p' hl))
  · exact List.forall_mem_cons.2 ⟨fun v p hl => hest v p (hload v p hl), h.loaded⟩
  · exact List.forall_mem_cons.2 ⟨hgen, h.installed⟩

theorem answer_triple (a : Answer Payload) :
    DirTriple P (ready P a) (call (Op.answer a)) fun _ => .top := by
  refine .call fun h io r s hi hk he => ?_
  cases he
  refine ⟨hi.answer ?_ ?_, trivial⟩
  · intro v p hest
    cases a <;> cases hest
    · exact hk.1
    · exact hk
  · intro v p hinst
    cases hinst
    exact hk.2

/-! ## Runs -/

variable {es : List (Event (dirMachine P) (Request Bytes Keys Url))}
  {c : DirConfig Bytes Payload Digest}

section Runs

variable [DecidableEq Digest]

theorem serve_triple (r : Request Bytes Keys Url) :
    DirTriple P .top (serve P r) fun _ => .top := by
  refine .bind (Q := fun result => ready P _) ?_
    fun result => answer_triple _
  exact (body_triple r).attempt_ok (fun _ _ _ hq => hq) fun _ _ _ => trivial

theorem serve_safe (r : Request Bytes Keys Url) (h : Hist (Dir Bytes Payload Digest))
    (hi : invariant P h) : (serve P r ()).Safe (invariant P) (fun _ _ => True) h :=
  (serve_triple r () h hi trivial).mono (fun _ _ _ _ => trivial) hi

omit [DecidableEq Digest] in
theorem Dir.Inv.empty : Dir.Inv P ({} : Dir Bytes Payload Digest) :=
  ⟨nofun, nofun, nofun, List.Pairwise.nil, nofun, nofun⟩

theorem run_inv (h : run P es = some c) : c.hist.now.Inv P := by
  have hempty : (⟨⟨{}, []⟩, none⟩ : DirConfig Bytes Payload Digest).Good (invariant P) :=
    ⟨Dir.Inv.empty, fun _ hp => nomatch hp⟩
  exact (hempty.run serve_safe h).1

end Runs

/-! ## Repair -/

theorem alone_orFail {α : Type} (io : Io) (r : Except ErrorLabel α) :
    (orFail r : DirM Bytes Payload Digest α).alone (dirMachine P) io () d = some ((r, ()), d) := by
  cases r <;> rfl

@[simp] theorem alone_installLock :
    (installLock : DirM Bytes Payload Digest Unit).alone (dirMachine P) .done () d =
      some ((.ok (), ()), { d with entered := generation d.high }) := rfl

@[simp] theorem alone_saveHighWater (h : HighWater Digest) :
    (saveHighWater h : DirM Bytes Payload Digest Unit).alone (dirMachine P) .done () d =
      some ((.ok (), ()), { d with high := some h }) := rfl

@[simp] theorem alone_writeCache (b : Bytes) :
    (writeCache b : DirM Bytes Payload Digest Unit).alone (dirMachine P) .done () d =
      some ((.ok (), ()), { d with cache := some b }) := rfl

theorem alone_readHighWater (h : d.Inv P) :
    (readHighWater : DirM Bytes Payload Digest _).alone (dirMachine P) .done () d =
      some ((.ok d.high, ()), d) := by
  have hread : checkedHigh (.ok d.high) = .ok d.high := by
    cases hh : d.high with
    | none => rfl
    | some high =>
      have hv := h.valid _ hh
      simp [checkedHigh, hv.1, hv.2]
  simp [readHighWater, alone_orFail, Dir.exec, Io.result, hread]

section Repair

variable [DecidableEq Digest]

variable {incoming : CachedDocument Payload Digest Url} {held : HighWater Digest} {bytes : Bytes}

/-- The decision on a payload the high water names. -/
theorem alone_decideInstall (hbelow : CachedBelow cached (some held))
    (hwater : ∀ doc, cached = .ok (some doc) → doc.highWater.version = doc.config.version)
    (hsame : incoming.highWater.samePayload held) :
    (decideInstall bytes incoming cached (some held)).alone (dirMachine P) .done () d =
      if cachedIs cached held then some ((.ok .notNewer, ()), d)
      else if held.cacheGeneration + 1 < 2 ^ 64 then
        some ((.ok (.installed held.version incoming.payload), ()), { d with
            high := some { held with cacheGeneration := held.cacheGeneration + 1 }
            cache := some bytes })
      else some ((.error .store, ()), d) := by
  have hconsistent : inconsistent cached (some held) incoming = false := by
    unfold inconsistent
    split
    next doc =>
      obtain ⟨_, hh, hle⟩ := hbelow doc rfl
      cases hh
      have hnot : ¬ held.version < doc.highWater.version := by
        rw [hwater doc rfl]
        exact Nat.not_lt.2 hle
      simp [hnot]
    · rfl
  have hversion := (samePayload_iff.1 hsame).1
  unfold decideInstall
  simp only [hconsistent, hversion, Nat.lt_irrefl, if_false, if_true, hsame, not_true_eq_false,
    Bool.false_eq_true]
  by_cases hcached : cachedIs cached held
  · simp [hcached]
  simp only [hcached, if_false, nextGeneration, Bool.false_eq_true]
  by_cases hgen : held.cacheGeneration + 1 < 2 ^ 64
  · simp only [hgen, if_true, publish, alone_bind, alone_saveHighWater, alone_writeCache,
      alone_pure]
  · simp only [hgen, if_false, alone_raise]

variable {keys : Keys}

/-- `install` by itself on a payload the high water names. -/
theorem alone_installLocked (h : d.Inv P)
    (hhigh : d.high = some held) (hsame : incoming.highWater.samePayload held) :
    (installLocked P bytes keys incoming).alone (dirMachine P) .done () d =
      if cachedIs (cachedDocument P keys (.ok d.cache)) held then
        some ((.ok .notNewer, ()), { d with entered := held.cacheGeneration })
      else if held.cacheGeneration + 1 < 2 ^ 64 then
        some ((.ok (.installed held.version incoming.payload), ()), { d with
            entered := held.cacheGeneration
            high := some { held with cacheGeneration := held.cacheGeneration + 1 }
            cache := some bytes })
      else some ((.error .store, ()), { d with entered := held.cacheGeneration }) := by
  have hbelow : CachedBelow (cachedDocument P keys (.ok d.cache)) (some held) := by
    intro _ hdoc
    obtain ⟨b, hb, hverified⟩ := cachedDocument_spec hdoc
    rw [← hhigh]
    exact h.cache b _ (Except.ok.inj hb) (verifiedDocument_spec hverified).1
  have hwater : ∀ doc, cachedDocument P keys (.ok d.cache) = .ok (some doc) →
      doc.highWater.version = doc.config.version := by
    intro _ hdoc
    obtain ⟨b, -, hverified⟩ := cachedDocument_spec hdoc
    rw [(verifiedDocument_spec hverified).2]
  have hread := alone_readHighWater (P := P) (h.entered (generation d.high))
  have hlocked : (installLocked P bytes keys incoming).alone (dirMachine P) .done () d =
      (decideInstall bytes incoming (cachedDocument P keys (.ok d.cache)) (some held)).alone
        (dirMachine P) .done () { d with entered := generation d.high } := by
    simp only [installLocked, alone_bind, alone_installLock, alone_call, Option.map_some,
      Dir.exec, Io.result, hread]
    simp [hhigh, migrate]
  rw [hlocked, alone_decideInstall hbelow hwater hsame, hhigh]
  rfl

theorem alone_install {url : Url} (hurl : P.isCommonsEnrollment url)
    (hdoc : verifiedDocument P bytes keys = .ok incoming)
    (hnames : incoming.config.namesWitness P url) :
    (install P bytes keys url).alone (dirMachine P) .done () d =
      (installLocked P bytes keys incoming).alone (dirMachine P) .done () d := by
  simp [install, hurl, hdoc, hnames]

/-- `load_verified` by itself on a cache that holds the payload of the high water. -/
theorem alone_loadVerified (h : d.Inv P)
    {doc : CachedDocument Payload Digest Url} (hhigh : d.high = some held)
    (hcache : cachedDocument P keys (.ok d.cache) = .ok (some doc))
    (hsame : held.samePayload doc.highWater) :
    (loadVerified P keys).alone (dirMachine P) .done () d =
      some ((.ok (.loaded doc.config.version doc.payload), ()),
        { d with entered := generation d.high }) := by
  have hread := alone_readHighWater (P := P) (h.entered (generation d.high))
  simp only [loadVerified, alone_bind, alone_installLock, alone_call, Option.map_some,
    Dir.exec, Io.result, hcache, alone_orFail, hread]
  simp [hhigh, readPair, hsame]

theorem alone_serve {d' : Dir Bytes Payload Digest} {r : Request Bytes Keys Url}
    {result : Except ErrorLabel (Answer Payload)}
    (h : (r.body P).alone (dirMachine P) .done () d = some ((result, ()), d')) :
    (serve P r).alone (dirMachine P) .done () d = some ((.ok (), ()),
      { d' with answers := ⟨.ofResult result, d'.high, d'.entered⟩ :: d'.answers }) := by
  simp [serve, h, Dir.exec]

/-- A process that takes the lock, is not disturbed, and leaves. -/
def session (P : Protocol Bytes Payload Digest Keys Url) (r : Request Bytes Keys Url) (n : Nat) :
    List (Event (dirMachine P) (Request Bytes Keys Url)) :=
  .start r :: List.replicate n (.call Io.done) ++ [.stop]

theorem run_session (h : run P es = some c) (hidle : c.running = none)
    {r : Request Bytes Keys Url} {result : Except ErrorLabel Unit × Unit}
    (halone : (serve P r).alone (dirMachine P) .done () c.hist.now = some (result, d)) :
    ∃ n c', run P (es ++ session P r n) = some c' ∧ c'.running = none ∧ c'.hist.now = d := by
  obtain ⟨⟨now, past⟩, _⟩ := c
  cases hidle
  have hprog : ((fun r => serve P r ()) r).alone (dirMachine P) Io.done now = some (result, d) :=
    halone
  obtain ⟨n, past', hrun⟩ : ∃ n past', Config.run (dirMachine P) (fun r => serve P r ())
      ⟨⟨now, past⟩, none⟩ (session P r n) = some ⟨⟨d, past'⟩, none⟩ :=
    Config.run_session (i := r) hprog
  refine ⟨n, ⟨⟨d, past'⟩, none⟩, ?_, rfl, rfl⟩
  rw [run, Config.run, List.foldlM_append]
  rw [run, Config.run] at h
  rw [h]
  exact hrun

variable {url : Url}

/-- After an install of the payload the high water names, the cache holds a document with it. -/
theorem alone_install_restores (h : d.Inv P) (hurl : P.isCommonsEnrollment url)
    (hdoc : verifiedDocument P bytes keys = .ok incoming)
    (hnames : incoming.config.namesWitness P url) (hhigh : d.high = some held)
    (hsame : incoming.highWater.samePayload held) (hgen : held.cacheGeneration + 1 < 2 ^ 64) :
    ∃ result d' held' doc, (install P bytes keys url).alone (dirMachine P) .done () d =
        some ((result, ()), d') ∧ d'.high = some held' ∧
      cachedDocument P keys (.ok d'.cache) = .ok (some doc) ∧
      held'.samePayload doc.highWater ∧ held.samePayload doc.highWater := by
  rw [alone_install hurl hdoc hnames, alone_installLocked h hhigh hsame]
  split
  next hcached =>
    unfold cachedIs at hcached
    split at hcached
    next doc hread =>
      have hboth : held.samePayload doc.highWater := by
        rw [samePayload_iff] at hcached ⊢
        exact ⟨hcached.1.symm, hcached.2.symm⟩
      exact ⟨_, _, held, doc, rfl, hhigh, hread, hboth, hboth⟩
    · cases hcached
  next hnot =>
    obtain ⟨hversion, hdigest⟩ := samePayload_iff.1 hsame
    have hboth : held.samePayload incoming.highWater :=
      samePayload_iff.2 ⟨hversion.symm, hdigest.symm⟩
    refine ⟨_, _, _, incoming, rfl, rfl, ?_, hboth, hboth⟩
    simp [cachedDocument, hdoc, Except.map]

/-- Installing the payload the high water names leaves a cache that a load returns. -/
theorem repair (h : run P es = some c) (hidle : c.running = none)
    (hinj : Function.Injective P.payloadSha256) (hurl : P.isCommonsEnrollment url)
    (hdoc : verifiedDocument P bytes keys = .ok incoming)
    (hnames : incoming.config.namesWitness P url) (hhigh : c.hist.now.high = some held)
    (hsame : incoming.highWater.samePayload held) (hgen : held.cacheGeneration + 1 < 2 ^ 64) :
    ∃ n m c' a rest, run P (es ++ session P (.install bytes keys url) n ++
        session P (.load keys) m) = some c' ∧ c'.hist.now.answers = a :: rest ∧
      a.answer = .loaded incoming.config.version incoming.payload := by
  obtain ⟨_, d', _, doc, hinstall, hhigh', hcache, hsame', hboth⟩ :=
    alone_install_restores (run_inv h) hurl hdoc hnames hhigh hsame hgen
  obtain ⟨n, c1, hrun, hidle1, hnow1⟩ := run_session h hidle
    (alone_serve (r := .install _ _ url) hinstall)
  have hload := alone_loadVerified (d := c1.hist.now) (run_inv hrun) (by rw [hnow1]; exact hhigh')
    (by rw [hnow1]; exact hcache) hsame'
  obtain ⟨m, c2, hrun2, -, hnow⟩ := run_session hrun hidle1 (alone_serve (r := .load _) hload)
  obtain ⟨b, -, hverified⟩ := cachedDocument_spec hcache
  obtain ⟨hversion, hdigest⟩ := samePayload_iff.1 hsame
  obtain ⟨hv, hd⟩ := samePayload_iff.1 hboth
  rw [(verifiedDocument_spec hverified).2] at hv hd
  rw [(verifiedDocument_spec hdoc).2] at hversion hdigest
  refine ⟨n, m, c2, _, _, hrun2, by rw [hnow], ?_⟩
  have hpayload : doc.payload = incoming.payload := hinj (hd.symm.trans hdigest.symm)
  have hver : doc.config.version = incoming.config.version := hv.symm.trans hversion.symm
  rw [← hpayload, ← hver]
  rfl

end Repair

/-! ## The laws -/

/-- Over any calls, failures, crashes and damage to the cache: what was answered with is never
rolled back and its payload never exchanged, a load returns the payload the high water names, an
installation raises the generation by one, and a payload the high water names can be put back
while the generation has not run out. -/
theorem routing_never_rolls_back [DecidableEq Digest]
    (P : Protocol Bytes Payload Digest Keys Url) (hinj : Function.Injective P.payloadSha256)
    (es : List (Event (dirMachine P) (Request Bytes Keys Url)))
    (c : DirConfig Bytes Payload Digest) (h : run P es = some c) :
    (c.hist.now.answers.Pairwise fun later earlier => ∀ v p v' p',
      earlier.answer.establishes = some (v, p) → later.answer.loads = some (v', p') →
        v ≤ v' ∧ (v' = v → p' = p)) ∧
    (∀ a ∈ c.hist.now.answers, ∀ v p, a.answer.loads = some (v, p) →
      ∃ high, a.high = some high ∧ high.version = v ∧
        high.payloadSha256 = P.payloadSha256 p) ∧
    (∀ a ∈ c.hist.now.answers, ∀ v p, a.answer = .installed v p →
      generation a.high = a.entered + 1) ∧
    ∀ bytes keys url incoming held, c.running = none → P.isCommonsEnrollment url →
      verifiedDocument P bytes keys = .ok incoming → incoming.config.namesWitness P url →
      c.hist.now.high = some held → incoming.highWater.samePayload held →
      held.cacheGeneration + 1 < 2 ^ 64 →
      ∃ n m c' a rest, run P (es ++ session P (.install bytes keys url) n ++
          session P (.load keys) m) = some c' ∧ c'.hist.now.answers = a :: rest ∧
        a.answer = .loaded incoming.config.version incoming.payload := by
  have hi := run_inv h
  refine ⟨hi.ordered.imp fun hle v p v' p' he hl => ?_, hi.loaded, hi.installed, ?_⟩
  · obtain ⟨hv, hp⟩ := hle v p v' p' he hl
    exact ⟨hv, fun heq => hinj (hp heq)⟩
  · intro _ _ _ _ _ hidle hurl hdoc hnames hhigh hsame hgen
    exact repair h hidle hinj hurl hdoc hnames hhigh hsame hgen

/-- A protocol whose documents are a version and whether the signature on it is good. -/
def versioned : Protocol (Nat × Bool) Nat Nat Unit Unit where
  readEnvelope bytes := .ok bytes.1
  signatureVerifies _ bytes := bytes.2
  signed bytes := bytes.2
  signed_iff _ := ⟨fun h => ⟨(), h⟩, fun ⟨_, h⟩ => h⟩
  readPayload v :=
    if h : 0 < v then .ok ⟨v, [()], true, h⟩ else .error (.document "witness-configuration-invalid")
  payloadSha256 := id
  isCommonsEnrollment _ := true
  sameUrl _ _ := true

def document (v : Nat) (h : 0 < v) : CachedDocument Nat Nat Unit :=
  ⟨v, ⟨v, [()], true, h⟩, ⟨v, v, 1⟩⟩

def installs (v n : Nat) : List (Event (dirMachine versioned) (Request (Nat × Bool) Unit Unit)) :=
  session versioned (.install (v, true) () ()) n

def loads (n : Nat) : List (Event (dirMachine versioned) (Request (Nat × Bool) Unit Unit)) :=
  session versioned (.load ()) n

/-- Two versions are installed; the cache is replaced by a newer one with a bad signature, then by
the older one, and loaded each time. -/
def replacedTwice : List (Event (dirMachine versioned) (Request (Nat × Bool) Unit Unit)) :=
  installs 1 6 ++ installs 2 6 ++ [.move (.replaced (3, false))] ++ loads 3 ++
    [.move (.replaced (1, true))] ++ loads 4

/-- Neither replacement is returned, and the newest document can be put back. -/
theorem routing_never_rolls_back_installed :
    ∃ c, run versioned replacedTwice = some c ∧
      c.hist.now.answers.map (·.answer) = [.failed .store,
        .failed (.document "witness-configuration-signature-invalid"), .installed 2 2,
        .installed 1 1] ∧
      ∃ n m c' a rest, run versioned (replacedTwice ++ installs 2 n ++ loads m) = some c' ∧
        c'.hist.now.answers = a :: rest ∧ a.answer = .loaded 2 2 := by
  obtain ⟨c, hc⟩ : ∃ c, run versioned replacedTwice = some c := ⟨_, rfl⟩
  have hfacts : c.running = none ∧ c.hist.now.high = some ⟨2, 2, 2⟩ ∧
      c.hist.now.answers.map (·.answer) = [.failed .store,
        .failed (.document "witness-configuration-signature-invalid"), .installed 2 2,
        .installed 1 1] := by
    cases hc
    exact ⟨rfl, rfl, rfl⟩
  refine ⟨c, hc, hfacts.2.2, ?_⟩
  exact (routing_never_rolls_back versioned (fun _ _ h => h) _ c hc).2.2.2 (2, true) () ()
    (document 2 Nat.two_pos) ⟨2, 2, 2⟩ hfacts.1 rfl rfl rfl hfacts.2.1 rfl (by decide)

theorem install_lost {es : List (Event (dirMachine versioned) (Request (Nat × Bool) Unit Unit))}
    {c : DirConfig (Nat × Bool) Nat Nat} (hrun : run versioned es = some c)
    (hidle : c.running = none) (hcache : c.hist.now.cache = none) {g : Nat}
    (hhigh : c.hist.now.high = some ⟨1, 1, g⟩) :
    ∃ n c', run versioned (es ++ installs 1 n) = some c' ∧
      c'.running = none ∧ if g + 1 < 2 ^ 64 then c'.hist.now.high = some ⟨1, 1, g + 1⟩ else
        c'.hist.now.cache = none ∧ c'.hist.now.high = some ⟨1, 1, g⟩ := by
  have hdoc : verifiedDocument versioned (1, true) () = .ok (document 1 Nat.one_pos) := rfl
  have hurl : versioned.isCommonsEnrollment () := rfl
  have hinstall := (alone_install (d := c.hist.now) hurl hdoc rfl).trans
    (alone_installLocked (run_inv hrun) hhigh rfl)
  have hnot : ¬ cachedIs (cachedDocument versioned () (.ok none)) ⟨1, 1, g⟩ :=
    Bool.false_ne_true
  rw [hcache, if_neg hnot] at hinstall
  split at hinstall
  next hg =>
    obtain ⟨n, c', hrun', hidle', hnow⟩ := run_session hrun hidle
      (alone_serve (r := .install (1, true) () ()) hinstall)
    refine ⟨n, c', hrun', hidle', ?_⟩
    rw [if_pos hg, hnow]
  next hg =>
    obtain ⟨n, c', hrun', hidle', hnow⟩ := run_session hrun hidle
      (alone_serve (r := .install (1, true) () ()) hinstall)
    refine ⟨n, c', hrun', hidle', ?_⟩
    rw [if_neg hg, hnow]
    exact ⟨rfl, hhigh⟩

/-- Losing the cache and installing again takes the generation to every `u64`. -/
theorem generation_reached (n : Nat) (hn : n + 1 < 2 ^ 64) :
    ∃ es c, run versioned es = some c ∧ c.running = none ∧ c.hist.now.cache = none ∧
      c.hist.now.high = some ⟨1, 1, n + 1⟩ := by
  induction n with
  | zero => exact ⟨installs 1 6 ++ [.move .lost], _, rfl, rfl, rfl, rfl⟩
  | succ n ih =>
    obtain ⟨es, c, hrun, hidle, hcache, hhigh⟩ := ih (by omega)
    obtain ⟨m, c1, hrun1, hidle1, hnext⟩ := install_lost hrun hidle hcache hhigh
    rw [if_pos hn] at hnext
    refine ⟨es ++ installs 1 m ++ [.move .lost],
      { c1 with hist := c1.hist.push { c1.hist.now with cache := none } }, ?_, hidle1, rfl, hnext⟩
    rw [run, Config.run] at hrun1
    rw [run, Config.run, List.foldlM_append, hrun1]
    rfl

/-- At the last generation a lost cache cannot be put back: the install and the load after it
fail. -/
theorem repair_ends_with_generation :
    ∃ es c n m c' a rest, run versioned es = some c ∧ c.running = none ∧
      c.hist.now.high = some ⟨1, 1, 2 ^ 64 - 1⟩ ∧
      run versioned (es ++ installs 1 n ++ loads m) = some c' ∧
      c'.hist.now.answers = a :: rest ∧ a.answer = .failed .store := by
  obtain ⟨es, c, hrun, hidle, hcache, hhigh⟩ := generation_reached (2 ^ 64 - 2) (by decide)
  obtain ⟨n, c1, hrun1, hidle1, hlast⟩ := install_lost hrun hidle hcache hhigh
  have hload : ((Request.load ()).body versioned).alone (dirMachine versioned) .done ()
      c1.hist.now = some ((.error .store, ()), { c1.hist.now with entered := 2 ^ 64 - 1 }) := by
    have hread := alone_readHighWater (P := versioned)
      ((run_inv hrun1).entered (generation c1.hist.now.high))
    have hcached : cachedDocument versioned () (.ok c1.hist.now.cache) = .ok none := by
      rw [hlast.1]
      rfl
    simp only [Request.body, loadVerified, alone_bind, alone_installLock, alone_call,
      Option.map_some, Dir.exec, Io.result, hcached, alone_orFail, hread]
    simp only [hlast.2, readPair, alone_raise, generation, Nat.reducePow, Nat.reduceSub,
      Nat.reduceAdd]
  obtain ⟨m, c2, hrun2, -, hnow⟩ := run_session hrun1 hidle1 (alone_serve hload)
  exact ⟨es, c, n, m, c2, _, _, hrun, hidle, hhigh, hrun2, by rw [hnow], rfl⟩

end TraceCommons.Witness
