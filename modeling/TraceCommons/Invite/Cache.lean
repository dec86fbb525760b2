import TraceCommons.Lib.Trail

/-! # The invite cache

An issuer answers invite lookups from a cache. An admin change commits in the database and is then
noted in the cache; a refresh reads every live grant in one query and later replaces the whole
cache by what it read. A cache that was not loaded for too long refuses. -/

namespace TraceCommons.Invite

/-- An invite, whose hash is its key; what it grants is one value here. -/
structure InviteEntry (Grant : Type) where
  grant : Grant
  expiresAt : Option Nat
  revokedAt : Option Nat
  deriving DecidableEq

def InviteEntry.isLive {Grant : Type} (now : Nat) (e : InviteEntry Grant) : Bool :=
  e.revokedAt.isNone && e.expiresAt.all (now < ·)

/-- The table by its primary key, or the cache. -/
abbrev Entries (Hash Grant : Type) := Hash → Option (InviteEntry Grant)

variable {Hash Grant : Type}

def Entries.live (entries : Entries Hash Grant) (now : Nat) : Entries Hash Grant :=
  fun hash => (entries hash).filter (·.isLive now)

structure InviteCache (Hash Grant : Type) where
  entries : Entries Hash Grant
  loadedAt : Int

/-- A cache that was never loaded is stale. -/
def InviteCache.new (now maxStale : Nat) : InviteCache Hash Grant :=
  ⟨fun _ => none, now - maxStale - 1⟩

/-- The age of a stale cache, or the live entry. -/
def InviteCache.lookup (cache : InviteCache Hash Grant) (maxStale now : Nat) (hash : Hash) :
    Except Nat (Option (InviteEntry Grant)) :=
  if maxStale < now - cache.loadedAt then .error (now - cache.loadedAt).toNat
  else .ok (cache.entries.live now hash)

inductive Change (Hash Grant : Type)
  | write (hash : Hash) (grant : Grant) (expiresAt : Option Nat)
  | revoke (hash : Hash)
  deriving DecidableEq

def Change.hash : Change Hash Grant → Hash
  | write hash .. | revoke hash => hash

variable [DecidableEq Hash]

/-- `note_write` and `note_revoke`. -/
def Change.note (entries : Entries Hash Grant) : Change Hash Grant → Entries Hash Grant
  | write hash grant expiresAt => Function.update entries hash (some ⟨grant, expiresAt, none⟩)
  | revoke hash => Function.update entries hash none

/-- `insert_invite_grant`, which leaves a hash that is there, and `revoke_invite_grant`. -/
def Change.commit (now : Nat) (grants : Entries Hash Grant) :
    Change Hash Grant → Option (Entries Hash Grant)
  | write hash grant expiresAt =>
    if (grants hash).isSome then none
    else some (Function.update grants hash (some ⟨grant, expiresAt, none⟩))
  | revoke hash => some (Function.update grants hash ((grants hash).map fun entry =>
      if entry.revokedAt.isNone then { entry with revokedAt := some now } else entry))

/-- The clock, the table, the cache, what a refresh has read and not installed, and the changes
that are committed and not noted. -/
structure Registry (Hash Grant : Type) where
  now : Nat
  grants : Entries Hash Grant
  cache : InviteCache Hash Grant
  refresh : Option (Entries Hash Grant)
  unnoted : List (Change Hash Grant)

inductive Event (Hash Grant : Type)
  | tick
  | commit (change : Change Hash Grant)
  | note (i : Nat)
  | read
  | install

def step (s : Registry Hash Grant) : Event Hash Grant → Registry Hash Grant
  | .tick => { s with now := s.now + 1 }
  | .commit change =>
    match change.commit s.now s.grants with
    | none => s
    | some grants => { s with grants, unnoted := s.unnoted ++ [change] }
  | .note i =>
    match s.unnoted[i]? with
    | none => s
    | some change => { s with
      cache.entries := change.note s.cache.entries
      unnoted := s.unnoted.eraseIdx i }
  -- `list_invite_grants`
  | .read => { s with refresh := some (s.grants.live s.now) }
  -- `replace_all`
  | .install =>
    match s.refresh with
    | none => s
    | some entries => { s with cache := ⟨entries, s.now⟩, refresh := none }

/-! ## The table through the cache -/

def Change.Done (grants : Entries Hash Grant) : Change Hash Grant → Prop
  | write hash grant expiresAt => grants hash = some ⟨grant, expiresAt, none⟩
  | revoke hash => ∀ entry ∈ grants hash, entry.revokedAt.isSome

/-- The entries show the invite as the table has it, from now on. -/
def Shows (k : Hash) (s : Registry Hash Grant) (entries : Entries Hash Grant) : Prop :=
  ∀ t, s.now ≤ t → entries.live t k = s.grants.live t k

/-- A change of the invite is noted, and what a refresh has read of it is installed, only while it
is still what the table has. -/
def Current (k : Hash) (s : Registry Hash Grant) : Event Hash Grant → Prop
  | .note i => ∀ change ∈ s.unnoted[i]?, change.hash = k → change.Done s.grants
  | .install => ∀ entries ∈ s.refresh, Shows k s entries
  | _ => True

def Fresh (maxStale : Nat) (k : Hash) (s : Registry Hash Grant) : Prop :=
  maxStale < s.now - s.cache.loadedAt ∨ Shows k s s.cache.entries

variable {change : Change Hash Grant} {k : Hash} {s : Registry Hash Grant}
  {ev : Event Hash Grant} {maxStale : Nat}

theorem Change.Done.live (h : change.Done s.grants) (entries : Entries Hash Grant) (t : Nat) :
    (change.note entries).live t change.hash = s.grants.live t change.hash := by
  cases change with
  | write hash grant expiresAt =>
    simp only [Entries.live, Change.note, Change.hash, Function.update_self]
    rw [show s.grants hash = some ⟨grant, expiresAt, none⟩ from h]
  | revoke hash =>
    simp only [Entries.live, Change.note, Change.hash, Function.update_self]
    refine (Option.filter_eq_none_iff.2 fun e he => ?_).symm
    simp [InviteEntry.isLive, Option.isSome_iff_ne_none.1 (h e he)]

/-- While the table keeps its row, the cache goes on showing it. -/
theorem step_fresh (hc : Current k s ev) (hsame : (step s ev).grants k = s.grants k)
    (hf : Fresh maxStale k s) : Fresh maxStale k (step s ev) := by
  cases ev with
  | tick =>
    refine hf.imp (fun hstale => ?_) fun hshows t ht => hshows t (Nat.le_of_succ_le ht)
    simp only [step]
    omega
  | commit change =>
    simp only [step] at hsame ⊢
    split
    · exact hf
    rename_i hcommit
    rw [hcommit] at hsame
    refine hf.imp id fun hshows t ht => (hshows t ht).trans ?_
    exact congrArg _ hsame.symm
  | note i =>
    simp only [step]
    split
    · exact hf
    rename_i change hi
    by_cases hk : change.hash = k
    · subst hk
      exact .inr fun t _ => (hc _ hi rfl).live _ t
    refine hf.imp id fun hshows t ht => Eq.trans ?_ (hshows t ht)
    refine congrArg (Option.filter _) ?_
    cases change <;> exact Function.update_of_ne (Ne.symm hk) ..
  | read => exact hf
  | install =>
    simp only [step]
    split
    · exact hf
    · rename_i entries he
      exact .inr (hc _ he)

def Event.Writes (k : Hash) (ev : Event Hash Grant) : Prop :=
  ∃ grant expiresAt, ev = .commit (.write k grant expiresAt)

/-- A row that is there is not written over, and a revoked one stays as it is. -/
def Keeps (k : Hash) (row : Option (InviteEntry Grant)) (ev : Event Hash Grant) : Prop :=
  (ev.Writes k → row.isSome) ∧ (ev = .commit (.revoke k) → ∀ entry ∈ row, entry.revokedAt.isSome)

theorem grants_step (h : Keeps k (s.grants k) ev) : (step s ev).grants k = s.grants k := by
  cases ev with
  | tick | read => rfl
  | note | install =>
    simp only [step]
    split <;> rfl
  | commit change =>
    simp only [step]
    split
    · rfl
    rename_i grants hcommit
    cases change with
    | write hash grant expiresAt =>
      simp only [Change.commit] at hcommit
      split at hcommit <;> cases hcommit
      rename_i hnone
      refine Function.update_of_ne ?_ ..
      rintro rfl
      exact hnone (h.1 ⟨grant, expiresAt, rfl⟩)
    | revoke hash =>
      cases hcommit
      by_cases hk : k = hash
      · subst hk
        cases he : s.grants k with
        | none => simp
        | some e => simp [Option.isSome_iff_ne_none.1 (h.2 rfl e he)]
      · exact Function.update_of_ne hk ..

/-- A lookup while the cache shows the row and the table keeps it. -/
theorem lookup_of_keeps {es : List (Event Hash Grant)} {r : Option (InviteEntry Grant)}
    (hc : Trail.Along step (Current k) s es) (hf : Fresh maxStale k s)
    (hkeep : ∀ ev ∈ es, Keeps k (s.grants k) ev) :
    (Trail.run step s es).cache.lookup maxStale (Trail.run step s es).now k = .ok r →
      r = s.grants.live (Trail.run step s es).now k := by
  induction es generalizing s with
  | nil =>
    intro hr
    unfold InviteCache.lookup at hr
    split at hr <;> cases hr
    rename_i hage
    exact hf.resolve_left hage _ le_rfl
  | cons ev es ih =>
    have hsame := grants_step (hkeep ev (.head _))
    have hrest := ih hc.2 (step_fresh hc.1 hsame hf) fun ev' h => hsame ▸ hkeep ev' (.tail _ h)
    rw [Entries.live, hsame] at hrest
    exact hrest

/-- A lookup after a revocation was noted does not return the invite, and one after a write was
noted returns it while it is live. -/
theorem invite_cache_fresh (k : Hash) (maxStale : Nat) (s : Registry Hash Grant) (i : Nat)
    (es : List (Event Hash Grant)) (hcurrent : Trail.Along step (Current k) s (.note i :: es)) :
    let s' := Trail.run step s (.note i :: es)
    ∀ r, s'.cache.lookup maxStale s'.now k = .ok r →
      (s.unnoted[i]? = some (.revoke k) → (∀ ev ∈ es, ¬ ev.Writes k) → r = none) ∧
      ∀ grant expiresAt, s.unnoted[i]? = some (.write k grant expiresAt) →
        .commit (.revoke k) ∉ es → InviteEntry.isLive s'.now ⟨grant, expiresAt, none⟩ →
        r = some ⟨grant, expiresAt, none⟩ := by
  intro s' r hr
  have hnote : (step s (.note i)).grants = s.grants := by
    simp only [step]
    split <;> rfl
  have hlookup : ∀ change, s.unnoted[i]? = some change → change.hash = k →
      (∀ ev ∈ es, Keeps k (s.grants k) ev) → r = s.grants.live s'.now k := by
    rintro change hi rfl hkeep
    rw [← hnote] at hkeep ⊢
    refine lookup_of_keeps hcurrent.2 (.inr ?_) hkeep hr
    simp only [step, hi]
    exact fun t _ => (hcurrent.1 _ hi rfl).live _ t
  refine ⟨fun hi hes => ?_, fun grant expiresAt hi hes hlive => ?_⟩
  · have hdone := hcurrent.1 _ hi rfl
    rw [hlookup _ hi rfl fun ev hev => ⟨fun h => absurd h (hes ev hev), fun _ => hdone⟩]
    refine (hdone.live s.cache.entries _).symm.trans ?_
    simp [Entries.live, Change.note, Change.hash]
  · have hdone : s.grants k = some ⟨grant, expiresAt, none⟩ := hcurrent.1 _ hi rfl
    have hkeep : ∀ ev ∈ es, Keeps k (s.grants k) ev := fun ev hev =>
      ⟨fun _ => hdone ▸ rfl, fun h => absurd (h ▸ hev) hes⟩
    rw [hlookup _ hi rfl hkeep, Entries.live, hdone]
    exact if_pos hlive

/-- A refresh that read the grants before a revocation puts the invite back after it was noted, and
a refresh that read them before a write takes the new invite away. -/
theorem invite_cache_stale_refresh :
    let s : Registry Unit Unit := ⟨0, fun _ => some ⟨(), none, none⟩, .new 0 5, none, []⟩
    let s' := Trail.run step s [.read, .commit (.revoke ()), .note 0, .install]
    let t : Registry Unit Unit := ⟨0, fun _ => none, .new 0 5, none, []⟩
    let t' := Trail.run step t [.read, .commit (.write () () none), .note 0, .install]
    s'.cache.lookup 5 s'.now () = .ok (some ⟨(), none, none⟩) ∧
      t'.cache.lookup 5 t'.now () = .ok none := by
  exact ⟨rfl, rfl⟩

/-- A refresh between the commit of a write and its note does no harm. -/
theorem invite_cache_fresh_noted :
    let s : Registry Unit Unit := Trail.run step ⟨0, fun _ => none, .new 0 5, none, []⟩
      [.commit (.write () () none), .read, .install]
    let s' := Trail.run step s [.note 0, .tick]
    ∀ r, s'.cache.lookup 5 s'.now () = .ok r → r = some ⟨(), none, none⟩ := by
  intro s s' r hr
  refine (invite_cache_fresh () 5 s 0 [.tick] ⟨?_, trivial, trivial⟩ r hr).2 () none rfl ?_ rfl
  · rintro change hi -
    cases hi
    rfl
  · simp

end TraceCommons.Invite
