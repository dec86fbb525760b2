import Mathlib

/-! # Transactions at READ COMMITTED

A database is a finite map from keys to rows. A transaction is a tree of statements. Each
statement sees the rows committed when it runs under the transaction's own writes, takes its
locks when no other open transaction holds a conflicting one, and keeps them to the end of the
transaction. A commit applies the writes at once. A statement that waits and then looks again is
two statements. Beside the rows there is a state outside, which changes as soon as a statement
says so.

What is proved of a transaction rests on what the others can commit while it holds its locks: an
assertion about a transaction in progress is one that no such commit breaks. -/

namespace TraceCommons.ReadCommitted

open List

/-! ## Locks -/

/-- The row locks, weakest first. -/
inductive Mode
  | keyShare | share | noKeyUpdate | update
  deriving DecidableEq

def Mode.conflicts : Mode → Mode → Bool
  | .update, _ | _, .update => true
  | .keyShare, _ | _, .keyShare => false
  | .share, .share => false
  | _, _ => true

theorem Mode.conflicts_comm (m n : Mode) : m.conflicts n = n.conflicts m := by
  cases m <;> cases n <;> rfl

/-- The locks a writer of the row takes. -/
def Mode.writes : Mode → Bool
  | .noKeyUpdate | .update => true
  | .keyShare | .share => false

theorem Mode.conflicts_of_writes {m n : Mode} (hm : m.writes) (hn : n.writes) :
    m.conflicts n := by
  revert hm hn
  cases m <;> cases n <;> decide

inductive Lock (κ α : Type)
  | row (k : κ) (m : Mode)
  | advisory (a : α)
  deriving DecidableEq

variable {κ α ε : Type} [DecidableEq κ] [DecidableEq α] {β : κ → Type}

def Lock.conflicts : Lock κ α → Lock κ α → Bool
  | .row k m, .row k' m' => k = k' && m.conflicts m'
  | .advisory a, .advisory b => a = b
  | _, _ => false

omit [DecidableEq α] in
@[simp] theorem Lock.conflicts_row [DecidableEq α] (k k' : κ) (m m' : Mode) :
    (Lock.row k m : Lock κ α).conflicts (.row k' m') = (k = k' && m.conflicts m') := rfl

theorem Lock.conflicts_comm (l l' : Lock κ α) : l.conflicts l' = l'.conflicts l := by
  cases l <;> cases l' <;> simp only [Lock.conflicts, Mode.conflicts_comm, eq_comm]

/-- Two transactions can hold these at once. -/
def Compatible (ls ls' : List (Lock κ α)) : Prop :=
  ∀ l ∈ ls, ∀ l' ∈ ls', l.conflicts l' = false

variable {ls ls' : List (Lock κ α)}

theorem Compatible.symm (h : Compatible ls ls') : Compatible ls' ls :=
  fun l hl l' hl' => (l.conflicts_comm l').trans (h l' hl' l hl)

theorem Compatible.append {ls1 ls2 : List (Lock κ α)} (h1 : Compatible ls1 ls)
    (h2 : Compatible ls2 ls) : Compatible (ls1 ++ ls2) ls :=
  fun l hl => (mem_append.1 hl).elim (h1 l) (h2 l)

/-- One advisory lock has one holder. -/
theorem Compatible.advisory (h : Compatible ls ls') {a : α} (ha : .advisory a ∈ ls) :
    .advisory a ∉ ls' :=
  fun ha' => by simpa [Lock.conflicts] using h _ ha _ ha'

variable {k : κ}

theorem Compatible.row (h : Compatible ls ls') {m m' : Mode} (hk : .row k m ∈ ls)
    (hk' : .row k m' ∈ ls') : m.conflicts m' = false := by
  simpa using h _ hk _ hk'

/-! ## Rows -/

structure Write (β : κ → Type) where
  key : κ
  row : Option (β key)

def Write.apply (w : Write β) (db : AList β) : AList β :=
  match w.row with
  | some r => db.insert w.key r
  | none => db.erase w.key

/-- The rows a transaction sees: those committed, under its own writes. -/
def view (db : AList β) (ws : List (Write β)) : AList β :=
  ws.foldl (fun db w => w.apply db) db

@[simp] theorem view_nil (db : AList β) : view db [] = db := rfl

theorem view_append (db : AList β) (ws ws' : List (Write β)) :
    view db (ws ++ ws') = view (view db ws) ws' :=
  foldl_append

theorem Write.lookup_self (w : Write β) (db : AList β) :
    (w.apply db).lookup w.key = w.row := by
  obtain ⟨k, r⟩ := w
  cases r <;> simp [Write.apply]

theorem Write.lookup_ne (w : Write β) (db : AList β) (h : k ≠ w.key) :
    (w.apply db).lookup k = db.lookup k := by
  obtain ⟨k', r⟩ := w
  cases r with
  | none => exact AList.lookup_erase_ne h
  | some r => exact AList.lookup_insert_ne h

@[simp] theorem lookup_put (db : AList β) (k : κ) (r : Option (β k)) :
    ((⟨k, r⟩ : Write β).apply db).lookup k = r :=
  Write.lookup_self ⟨k, r⟩ db

/-- A row the writes do not touch is the committed one. -/
theorem lookup_view_of_notMem {ws : List (Write β)} (h : ∀ w ∈ ws, w.key ≠ k) (db : AList β) :
    (view db ws).lookup k = db.lookup k := by
  induction ws generalizing db with
  | nil => rfl
  | cons w ws ih =>
    have htail := ih (fun w' hw' => h w' (.tail w hw')) (w.apply db)
    exact htail.trans (w.lookup_ne db (h w (.head _)).symm)

/-- A row the writes do touch is as they left it, whatever was committed. -/
theorem lookup_view_of_mem {ws : List (Write β)} (h : ∃ w ∈ ws, w.key = k) (db db' : AList β) :
    (view db ws).lookup k = (view db' ws).lookup k := by
  induction ws generalizing db db' with
  | nil => exact absurd h (by simp)
  | cons w ws ih =>
    by_cases hk : ∃ w' ∈ ws, w'.key = k
    · exact ih hk _ _
    obtain ⟨w', hw', rfl⟩ := h
    obtain rfl : w' = w := (mem_cons.1 hw').resolve_right fun hmem => hk ⟨w', hmem, rfl⟩
    have hout : ∀ x ∈ ws, x.key ≠ w'.key := fun x hx he => hk ⟨x, hx, he⟩
    change (view (w'.apply db) ws).lookup w'.key = (view (w'.apply db') ws).lookup w'.key
    rw [lookup_view_of_notMem hout, lookup_view_of_notMem hout, Write.lookup_self,
      Write.lookup_self]

/-- A transaction sees a row others committed only where it has not written it. -/
theorem lookup_view_cases (ws : List (Write β)) (k : κ) (db db' : AList β) :
    ((∃ w ∈ ws, w.key = k) ∧ (view db' ws).lookup k = (view db ws).lookup k) ∨
      ((∀ w ∈ ws, w.key ≠ k) ∧ (view db' ws).lookup k = db'.lookup k ∧
        (view db ws).lookup k = db.lookup k) := by
  by_cases h : ∃ w ∈ ws, w.key = k
  · exact .inl ⟨h, lookup_view_of_mem h _ _⟩
  · have hno : ∀ w ∈ ws, w.key ≠ k := fun w hw he => h ⟨w, hw, he⟩
    exact .inr ⟨hno, lookup_view_of_notMem hno _, lookup_view_of_notMem hno _⟩

variable {ks : List κ}

/-- Writes to other rows may be left out. -/
theorem lookup_view_filter (hk : k ∉ ks) (ws : List (Write β)) (db : AList β) :
    (view db (ws.filter fun x => x.key ∉ ks)).lookup k = (view db ws).lookup k := by
  by_cases h : ∃ w ∈ ws, w.key = k
  · induction ws generalizing db with
    | nil => rfl
    | cons w ws ih =>
      by_cases htail : ∃ w' ∈ ws, w'.key = k
      · by_cases hw : w.key ∈ ks
        · rw [filter_cons_of_neg (by simpa using hw), ih db htail]
          exact lookup_view_of_mem htail _ _
        · rw [filter_cons_of_pos (by simpa using hw)]
          exact ih _ htail
      · obtain ⟨w', hw', rfl⟩ := h
        obtain rfl : w' = w :=
          (mem_cons.1 hw').resolve_right fun hmem => htail ⟨w', hmem, rfl⟩
        have hout : ∀ x ∈ ws, x.key ≠ w'.key := fun x hx he => htail ⟨x, hx, he⟩
        rw [filter_cons_of_pos (by simpa using hk)]
        change (view (w'.apply db) (ws.filter fun x => x.key ∉ ks)).lookup w'.key =
          (view (w'.apply db) ws).lookup w'.key
        rw [lookup_view_of_notMem hout,
          lookup_view_of_notMem fun x hx => hout x (mem_filter.1 hx).1]
  · have hout : ∀ w ∈ ws, w.key ≠ k := fun w hw he => h ⟨w, hw, he⟩
    rw [lookup_view_of_notMem hout, lookup_view_of_notMem fun x hx => hout x (mem_filter.1 hx).1]

/-! ## Transactions -/

/-- What a statement takes and writes, and the state outside after it. -/
structure Effect (β : κ → Type) (α ε : Type) where
  locks : List (Lock κ α)
  writes : List (Write β)
  out : ε

/-- The rest of a transaction. Its answer is told to the state outside as it ends. -/
inductive Tx (β : κ → Type) (α ε : Type) : Type
  | commit (post : ε → ε)
  | rollback (post : ε → ε)
  | stmt (eff : AList β → ε → Effect β α ε) (next : AList β → ε → Tx β α ε)

/-- The lock of a write: a row that comes or goes is locked against everybody. -/
def Write.lock (db : AList β) (w : Write β) : Lock κ α :=
  .row w.key (if (db.lookup w.key).isSome && w.row.isSome then .noKeyUpdate else .update)

/-- The locks of a statement, those of its writes included. -/
def Effect.allLocks (e : Effect β α ε) (db : AList β) : List (Lock κ α) :=
  e.locks ++ e.writes.map (Write.lock db)

/-- What everybody shares. -/
structure World (β : κ → Type) (ε : Type) where
  db : AList β
  out : ε

/-- What an open transaction has so far. -/
structure Local (β : κ → Type) (α : Type) where
  locks : List (Lock κ α)
  writes : List (Write β)

def Local.empty : Local β α := ⟨[], []⟩

def Local.view (l : Local β α) (w : World β ε) : AList β := ReadCommitted.view w.db l.writes

def Local.after (l : Local β α) (w : World β ε) (e : Effect β α ε) : Local β α :=
  ⟨l.locks ++ e.allLocks (l.view w), l.writes ++ e.writes⟩

def Local.commit (l : Local β α) (w : World β ε) (post : ε → ε) : World β ε :=
  ⟨l.view w, post w.out⟩

/-- What it has but for its writes to some rows. -/
def Local.without (ks : List κ) (l : Local β α) : Local β α :=
  ⟨l.locks, l.writes.filter fun x => x.key ∉ ks⟩

omit [DecidableEq α] in
theorem Local.lookup_without (hk : k ∉ ks) (l : Local β α) (w : World β ε) :
    ((l.without ks).view w).lookup k = (l.view w).lookup k :=
  lookup_view_filter hk _ _

omit [DecidableEq α] in
@[simp] theorem Local.without_nil (l : Local β α) : l.without [] = l := by
  simp [Local.without]

omit [DecidableEq α] in
/-- A row left out is the committed one. -/
theorem Local.lookup_without_mem (hk : k ∈ ks) (l : Local β α) (w : World β ε) :
    ((l.without ks).view w).lookup k = w.db.lookup k := by
  refine lookup_view_of_notMem (fun x hx he => ?_) _
  have hnot := of_decide_eq_true (mem_filter.1 hx).2
  exact hnot (he ▸ hk)

/-- Every row it has written is locked. -/
def Local.Locked (l : Local β α) : Prop :=
  ∀ x ∈ l.writes, ∃ m : Mode, m.writes ∧ .row x.key m ∈ l.locks

omit [DecidableEq α] in
theorem Write.lock_writes (db : AList β) (x : Write β) :
    ∃ m : Mode, m.writes ∧ (x.lock db : Lock κ α) = .row x.key m := by
  unfold Write.lock
  split
  · exact ⟨.noKeyUpdate, rfl, rfl⟩
  · exact ⟨.update, rfl, rfl⟩

/-- The rows that change are locked. -/
def RowsLocked (ls : List (Lock κ α)) (db db' : AList β) : Prop :=
  ∀ k, db'.lookup k ≠ db.lookup k → ∃ m : Mode, m.writes ∧ .row k m ∈ ls

variable {w w' : World β ε} {l : Local β α}

/-- Against the commits of others, a row is as the transaction left it and nobody else changed it,
or the transaction did not change it and sees it as it now is. -/
theorem Local.merge (hl : l.Locked) (hc : Compatible l.locks ls) (hg : RowsLocked ls w.db w'.db)
    (k : κ) :
    ((l.view w).lookup k = w.db.lookup k ∧ (l.view w').lookup k = w'.db.lookup k) ∨
      (w'.db.lookup k = w.db.lookup k ∧ (l.view w').lookup k = (l.view w).lookup k) := by
  obtain ⟨⟨x, hx, hk⟩, hv⟩ | ⟨-, hv', hv⟩ := lookup_view_cases _ k _ _
  · refine .inr ⟨?_, hv⟩
    by_contra hne
    obtain ⟨m, hm, hlock⟩ := hl x hx
    obtain ⟨n, hn, hlock'⟩ := hg k hne
    rw [hk] at hlock
    exact Bool.noConfusion ((Mode.conflicts_of_writes hm hn).symm.trans (hc.row hlock hlock'))
  · exact .inl ⟨hv, hv'⟩

structure Session (β : κ → Type) (α ε : Type) where
  loc : Local β α
  rest : Tx β α ε

structure State (β : κ → Type) (α ε : Type) where
  world : World β ε
  sessions : AList fun _ : Nat => Session β α ε

/-- A session begins a transaction, runs its next statement or its end, or is lost. -/
inductive Event (ι : Type)
  | start (i : Nat) (t : ι)
  | step (i : Nat)
  | lose (i : Nat)

namespace State

variable {ι : Type} (prog : ι → Tx β α ε)

/-- No other session holds a conflicting lock. -/
def free (s : State β α ε) (i : Nat) (ls : List (Lock κ α)) : Bool :=
  s.sessions.entries.all fun e =>
    e.1 = i || ls.all fun l => e.2.loc.locks.all fun l' => !l.conflicts l'

def stepSession (s : State β α ε) (i : Nat) (x : Session β α ε) : Option (State β α ε) :=
  match x.rest with
  | .commit post => some ⟨x.loc.commit s.world post, s.sessions.erase i⟩
  | .rollback post => some ⟨⟨s.world.db, post s.world.out⟩, s.sessions.erase i⟩
  | .stmt eff next =>
    let e := eff (x.loc.view s.world) s.world.out
    if s.free i (e.allLocks (x.loc.view s.world)) then
      some ⟨⟨s.world.db, e.out⟩, s.sessions.insert i
        ⟨x.loc.after s.world e, next (x.loc.view s.world) s.world.out⟩⟩
    else none

def step (s : State β α ε) : Event ι → Option (State β α ε)
  | .start i t => if i ∈ s.sessions then none
    else some { s with sessions := s.sessions.insert i ⟨.empty, prog t⟩ }
  | .step i => (s.sessions.lookup i).bind (s.stepSession i)
  | .lose i => some { s with sessions := s.sessions.erase i }

def run (s : State β α ε) (es : List (Event ι)) : Option (State β α ε) :=
  es.foldlM (step prog) s

end State

/-! ## What the transactions promise each other -/

/-- An invariant of the shared state, and what a holder of the locks may change. -/
structure Protocol (β : κ → Type) (α ε : Type) where
  inv : World β ε → Prop
  guar : List (Lock κ α) → World β ε → World β ε → Prop
  refl : ∀ ls w, guar ls w w

variable {P : Protocol β α ε}

/-- What somebody else may do while these locks are held. -/
def Protocol.Rely (P : Protocol β α ε) (ls : List (Lock κ α)) (w w' : World β ε) : Prop :=
  P.inv w' ∧ ∃ ls', Compatible ls ls' ∧ P.guar ls' w w'

/-- Whatever the others do before it, the next statement and the end keep the protocol. -/
def Tx.Safe (P : Protocol β α ε) : Tx β α ε → Local β α → World β ε → Prop
  | .commit post, l, w => ∀ w', Relation.ReflTransGen (P.Rely l.locks) w w' →
      P.inv (l.commit w' post) ∧ P.guar l.locks w' (l.commit w' post)
  | .rollback post, l, w => ∀ w', Relation.ReflTransGen (P.Rely l.locks) w w' →
      P.inv ⟨w'.db, post w'.out⟩ ∧ P.guar l.locks w' ⟨w'.db, post w'.out⟩
  | .stmt eff next, l, w => ∀ w', Relation.ReflTransGen (P.Rely l.locks) w w' →
      let e := eff (l.view w') w'.out
      (P.inv ⟨w'.db, e.out⟩ ∧ P.guar (l.after w' e).locks w' ⟨w'.db, e.out⟩) ∧
        (next (l.view w') w'.out).Safe P (l.after w' e) ⟨w'.db, e.out⟩

theorem Tx.Safe.rely {t : Tx β α ε} (h : t.Safe P l w) (hr : P.Rely l.locks w w') :
    t.Safe P l w' := by
  cases t with
  | commit | rollback | stmt => exact fun w1 h1 => h w1 (.head hr h1)

/-! ## Runs -/

namespace State

variable {ι : Type} {prog : ι → Tx β α ε} {s s' : State β α ε}

/-- The invariant holds, the locks are compatible and every open transaction keeps the protocol. -/
structure Good (P : Protocol β α ε) (s : State β α ε) : Prop where
  inv : P.inv s.world
  locks : ∀ i j x y, i ≠ j → s.sessions.lookup i = some x → s.sessions.lookup j = some y →
    Compatible x.loc.locks y.loc.locks
  safe : ∀ i x, s.sessions.lookup i = some x → x.rest.Safe P x.loc s.world

theorem free_compatible {i : Nat} {ls : List (Lock κ α)} (h : s.free i ls) {j : Nat}
    {y : Session β α ε} (hij : i ≠ j) (hy : s.sessions.lookup j = some y) :
    Compatible ls y.loc.locks := by
  have hmem := AList.mem_lookup_iff.1 (Option.mem_def.2 hy)
  have hall := all_eq_true.1 h _ hmem
  simp only [hij.symm] at hall
  intro l hl l' hl'
  simpa using all_eq_true.1 (all_eq_true.1 hall l hl) l' hl'

/-- A session that ends takes its locks with it. -/
theorem Good.ended (hg : s.Good P) {i : Nat} {x : Session β α ε} (hx : s.sessions.lookup i = some x)
    (hi : P.inv w) (hu : P.guar x.loc.locks s.world w) :
    Good P ⟨w, s.sessions.erase i⟩ := by
  have hkeep : ∀ {j y}, (s.sessions.erase i).lookup j = some y →
      i ≠ j ∧ s.sessions.lookup j = some y := by
    intro j y hy
    by_cases hij : j = i
    · rw [hij, AList.lookup_erase] at hy
      cases hy
    · rw [AList.lookup_erase_ne hij] at hy
      exact ⟨fun h => hij h.symm, hy⟩
  refine ⟨hi, fun j k y z hjk hy hz => hg.locks j k y z hjk (hkeep hy).2 (hkeep hz).2, ?_⟩
  intro j y hy
  obtain ⟨hij, hy⟩ := hkeep hy
  exact (hg.safe j y hy).rely ⟨hi, _, (hg.locks i j x y hij hx hy).symm, hu⟩

theorem Good.stepSession (hg : s.Good P) {i : Nat} {x : Session β α ε}
    (hx : s.sessions.lookup i = some x) (h : s.stepSession i x = some s') :
    s'.Good P ∧ ∃ ls, P.guar ls s.world s'.world := by
  have hsafe := hg.safe i x hx
  obtain ⟨l, t⟩ := x
  cases t with
  | commit | rollback =>
    cases h
    obtain ⟨hi, hu⟩ := hsafe _ .refl
    exact ⟨hg.ended hx hi hu, _, hu⟩
  | stmt eff next =>
    simp only [State.stepSession] at h
    split at h <;> cases h
    next hfree =>
      obtain ⟨⟨hi, hu⟩, hnext⟩ := hsafe _ .refl
      -- The locks of the session are those it had and those that were free.
      have hcompat : ∀ {j y}, i ≠ j → s.sessions.lookup j = some y →
          Compatible (l.after s.world (eff (l.view s.world) s.world.out)).locks y.loc.locks :=
        fun hij hy => (hg.locks i _ _ _ hij hx hy).append (free_compatible hfree hij hy)
      refine ⟨⟨hi, fun j k y z hjk hy hz => ?_, fun j y hy => ?_⟩, _, hu⟩
      · by_cases hj : j = i
        · have hk : k ≠ i := fun h => hjk (hj.trans h.symm)
          rw [hj, AList.lookup_insert] at hy
          rw [AList.lookup_insert_ne hk] at hz
          cases hy
          exact hcompat hk.symm hz
        · rw [AList.lookup_insert_ne hj] at hy
          by_cases hk : k = i
          · rw [hk, AList.lookup_insert] at hz
            cases hz
            exact (hcompat (Ne.symm hj) hy).symm
          · rw [AList.lookup_insert_ne hk] at hz
            exact hg.locks j k y z hjk hy hz
      · by_cases hj : j = i
        · rw [hj, AList.lookup_insert] at hy
          cases hy
          exact hnext
        · rw [AList.lookup_insert_ne hj] at hy
          exact (hg.safe j y hy).rely ⟨hi, _, (hcompat (Ne.symm hj) hy).symm, hu⟩

/-- An event keeps the protocol, and leaves the shared state alone or changes it as promised. -/
theorem Good.step (hprog : ∀ t w, P.inv w → (prog t).Safe P .empty w) (hg : s.Good P)
    {e : Event ι} (h : s.step prog e = some s') :
    s'.Good P ∧ (s'.world = s.world ∨ ∃ ls, P.guar ls s.world s'.world) := by
  cases e with
  | start i t =>
    simp only [State.step] at h
    split at h <;> cases h
    refine ⟨⟨hg.inv, fun j k y z hjk hy hz => ?_, fun j y hy => ?_⟩, .inl rfl⟩
    · by_cases hj : j = i
      · rw [hj, AList.lookup_insert] at hy
        cases hy
        exact fun _ hl => absurd hl not_mem_nil
      · by_cases hk : k = i
        · rw [hk, AList.lookup_insert] at hz
          cases hz
          exact fun _ _ _ hl => absurd hl not_mem_nil
        · rw [AList.lookup_insert_ne hj] at hy
          rw [AList.lookup_insert_ne hk] at hz
          exact hg.locks j k y z hjk hy hz
    · by_cases hj : j = i
      · rw [hj, AList.lookup_insert] at hy
        cases hy
        exact hprog t _ hg.inv
      · rw [AList.lookup_insert_ne hj] at hy
        exact hg.safe j y hy
  | step i =>
    obtain ⟨x, hx, h⟩ := Option.bind_eq_some_iff.1 h
    exact (hg.stepSession hx h).imp_right .inr
  | lose i =>
    cases h
    have hkeep : ∀ {j y}, (s.sessions.erase i).lookup j = some y →
        s.sessions.lookup j = some y := by
      intro j y hy
      by_cases hij : j = i
      · rw [hij, AList.lookup_erase] at hy
        cases hy
      · rwa [AList.lookup_erase_ne hij] at hy
    exact ⟨⟨hg.inv, fun j k y z hjk hy hz => hg.locks j k y z hjk (hkeep hy) (hkeep hz),
      fun j y hy => hg.safe j y (hkeep hy)⟩, .inl rfl⟩

/-- What every promised change keeps, a run keeps. -/
theorem Good.run (hprog : ∀ t w, P.inv w → (prog t).Safe P .empty w) (hg : s.Good P)
    {Q : World β ε → Prop} (hQ : ∀ ls w w', P.inv w → P.inv w' → P.guar ls w w' → Q w → Q w')
    (hq : Q s.world) {es : List (Event ι)} (h : s.run prog es = some s') :
    s'.Good P ∧ Q s'.world := by
  induction es generalizing s with
  | nil => cases h; exact ⟨hg, hq⟩
  | cons e es ih =>
    simp only [State.run, foldlM_cons, Option.bind_eq_bind, Option.bind_eq_some_iff] at h
    obtain ⟨s1, he, h⟩ := h
    obtain ⟨hg1, hw⟩ := hg.step hprog he
    refine ih hg1 ?_ h
    rcases hw with hw | ⟨ls, hu⟩
    · rwa [hw]
    · exact hQ ls _ _ hg.inv hg1.inv hu hq

theorem Good.start (hi : P.inv w) : Good P ⟨w, ∅⟩ :=
  ⟨hi, fun _ _ _ _ _ hx => by simp at hx, fun _ _ hx => by simp at hx⟩

end State

/-! ## Writing transactions -/

/-- A piece of a transaction with a result. -/
def Sql (β : κ → Type) (α ε τ : Type) : Type := (τ → Tx β α ε) → Tx β α ε

namespace Sql

variable {τ υ : Type}

instance : Monad (Sql β α ε) where
  pure a k := k a
  bind x f k := x fun a => f a k

/-- A statement: its locks and writes, and its result, from the rows it sees. -/
def exec (locks : AList β → List (Lock κ α)) (writes : AList β → List (Write β))
    (reply : AList β → τ) : Sql β α ε τ :=
  fun k => .stmt (fun db o => ⟨locks db, writes db, o⟩) fun db _ => k (reply db)

def query (q : AList β → τ) : Sql β α ε τ := exec (fun _ => []) (fun _ => []) q

def lock (ls : List (Lock κ α)) : Sql β α ε Unit :=
  exec (fun _ => ls) (fun _ => []) fun _ => ()

/-- Locks a row and reads it as it then is. -/
def lockRow (k : κ) (m : Mode) : Sql β α ε (Option (β k)) :=
  exec (fun _ => [.row k m]) (fun _ => []) (AList.lookup k)

def put (k : κ) (r : β k) : Sql β α ε Unit :=
  exec (fun _ => []) (fun _ => [⟨k, some r⟩]) fun _ => ()

def delete (k : κ) : Sql β α ε Unit :=
  exec (fun _ => []) (fun _ => [⟨k, none⟩]) fun _ => ()

/-- Rewrites a row if there is one and `f` wants it, and says whether it did. -/
def update (k : κ) (f : AList β → β k → Option (β k)) : Sql β α ε Bool :=
  exec (fun _ => []) (fun db => ((db.lookup k).bind (f db)).toList.map fun r => ⟨k, some r⟩)
    fun db => ((db.lookup k).bind (f db)).isSome

/-- An error: nothing is kept. -/
def fail : Sql β α ε τ := fun _ => .rollback id

/-- Inserts a row, with the locks of what it references. A row that is there, or a unique index,
refuses it. -/
def insert (k : κ) (r : β k) (refs : List (Lock κ α)) (clash : AList β → Bool) :
    Sql β α ε Unit := do
  let free ← exec (fun _ => .row k .update :: refs)
    (fun db => if (db.lookup k).isSome || clash db then [] else [⟨k, some r⟩])
    fun db => !((db.lookup k).isSome || clash db)
  if free then pure () else fail

/-- The results of `f` that are there. -/
def collect (f : τ → Sql β α ε (Option υ)) : List τ → Sql β α ε (List υ)
  | [] => pure []
  | a :: as => do
    let r ← f a
    let rs ← collect f as
    pure (r.toList ++ rs)

def forEach (f : τ → Sql β α ε Unit) : List τ → Sql β α ε Unit
  | [] => pure ()
  | a :: as => bind (f a) fun _ => forEach f as

def tx (x : Sql β α ε Unit) : Tx β α ε := x fun _ => .commit id

end Sql

/-! ## Assertions and triples -/

/-- A fact about an open transaction and the shared state that the others keep. -/
structure Assertion (P : Protocol β α ε) where
  holds : Local β α → World β ε → Prop
  stable : ∀ l w w', P.inv w → holds l w → P.Rely l.locks w w' → holds l w'

namespace Assertion

instance : CoeFun (Assertion P) fun _ => Local β α → World β ε → Prop := ⟨holds⟩

theorem rely (A : Assertion P) (hi : P.inv w) (ha : A l w)
    (hr : Relation.ReflTransGen (P.Rely l.locks) w w') : P.inv w' ∧ A l w' := by
  induction hr with
  | refl => exact ⟨hi, ha⟩
  | tail _ hstep ih => exact ⟨hstep.1, A.stable l _ _ ih.1 ih.2 hstep⟩

/-- A fact about neither. -/
def pure (P : Protocol β α ε) (p : Prop) : Assertion P := ⟨fun _ _ => p, fun _ _ _ _ h _ => h⟩

end Assertion

/-- From `A`, whatever keeps the protocol from `B` on keeps it after `x`. -/
def Triple (A : Assertion P) {τ : Type} (x : Sql β α ε τ) (B : τ → Assertion P) : Prop :=
  ∀ k, (∀ t l w, P.inv w → B t l w → (k t).Safe P l w) →
    ∀ l w, P.inv w → A l w → (x k).Safe P l w

namespace Triple

variable {τ υ : Type} {A A' : Assertion P} {B B' : τ → Assertion P} {C : υ → Assertion P}

variable {x : Sql β α ε τ}

theorem conseq (hA : ∀ l w, P.inv w → A l w → A' l w) (hB : ∀ t l w, P.inv w → B' t l w → B t l w)
    (hx : Triple A' x B') : Triple A x B :=
  fun k hk l w hi ha => hx k (fun t l w hi hb => hk t l w hi (hB t l w hi hb)) l w hi
    (hA l w hi ha)

theorem pure {a : τ} (h : ∀ l w, P.inv w → A l w → B a l w) :
    Triple A (Pure.pure a : Sql β α ε τ) B :=
  fun _ hk l w hi ha => hk a l w hi (h l w hi ha)

theorem bind {f : τ → Sql β α ε υ} (hx : Triple A x B) (hf : ∀ t, Triple (B t) (f t) C) :
    Triple A (x >>= f) C :=
  fun k hk => hx _ fun t => hf t k hk

/-- What the assertion says of no state may be used anywhere. -/
theorem assume {p : Prop} (hp : ∀ l w, P.inv w → A l w → p) (hx : p → Triple A x B) :
    Triple A x B :=
  fun k hk l w hi ha => hx (hp l w hi ha) k hk l w hi ha

theorem exec {locks : AList β → List (Lock κ α)} {writes : AList β → List (Write β)}
    {reply : AList β → τ} (h : ∀ l w, P.inv w → A l w →
      B (reply (l.view w)) (l.after w ⟨locks (l.view w), writes (l.view w), w.out⟩) w) :
    Triple A (Sql.exec locks writes reply) B := by
  intro k hk l w hi ha w' hr
  obtain ⟨hi', ha'⟩ := A.rely hi ha hr
  exact ⟨⟨hi', P.refl _ _⟩, hk _ _ _ hi' (h l w' hi' ha')⟩

theorem fail : Triple A (Sql.fail : Sql β α ε τ) B := by
  intro k _ l w hi ha w' hr
  exact ⟨(A.rely hi ha hr).1, P.refl _ _⟩

theorem insert {k : κ} {r : β k} {refs : List (Lock κ α)} {clash : AList β → Bool}
    {B : Assertion P} (h : ∀ l w, P.inv w → A l w → (l.view w).lookup k = none →
      clash (l.view w) = false →
      B (l.after w ⟨.row k .update :: refs, [⟨k, some r⟩], w.out⟩) w) :
    Triple A (Sql.insert k r refs clash) fun _ => B := by
  refine bind (B := fun free => if free then B else Assertion.pure P True) ?_ fun free => ?_
  · refine exec fun l w hi ha => ?_
    cases hrow : (l.view w).lookup k with
    | some x => trivial
    | none =>
      cases hclash : clash _ with
      | true => trivial
      | false => exact h l w hi ha hrow hclash
  · cases free with
    | true => exact pure fun _ _ _ hb => hb
    | false => exact fail

/-- What a loop has to do still is a list that grows shorter. -/
theorem forEach {f : τ → Sql β α ε Unit} {A : List τ → Assertion P}
    (hf : ∀ a as, Triple (A (a :: as)) (f a) fun _ => A as) (as : List τ) :
    Triple (A as) (Sql.forEach f as) fun _ => A [] := by
  induction as with
  | nil => exact pure fun _ _ _ h => h
  | cons a as ih => exact bind (hf a as) fun _ => ih

/-- What is found so far, and what there is still to look at. -/
theorem collect {f : τ → Sql β α ε (Option υ)} {A : List υ → List τ → Assertion P}
    (hf : ∀ rs a as, Triple (A rs (a :: as)) (f a) fun r => A (rs ++ r.toList) as)
    (rs : List υ) (as : List τ) :
    Triple (A rs as) (Sql.collect f as) fun rs' => A (rs ++ rs') [] := by
  induction as generalizing rs with
  | nil => exact pure fun l w _ h => by rwa [append_nil]
  | cons a as ih =>
    refine bind (hf rs a as) fun r => bind (ih _) fun rs' => pure fun l w _ h => ?_
    rwa [append_assoc] at h

theorem foldlM {f : υ → τ → Sql β α ε υ} {as : List τ}
    (hf : ∀ b, ∀ a ∈ as, Triple A (f b a) fun _ => A) (b : υ) :
    Triple A (as.foldlM f b) fun _ => A := by
  induction as generalizing b with
  | nil => exact pure fun _ _ _ h => h
  | cons a as ih =>
    exact bind (hf b a (.head _)) fun b' =>
      ih (fun b a' ha' => hf b a' (.tail a ha')) b'

/-- A transaction keeps the protocol if what it ends with may be committed. -/
theorem tx {x : Sql β α ε Unit} {E : Assertion P} (hx : Triple A x fun _ => E)
    (hE : ∀ l w, P.inv w → E l w → P.inv (l.commit w id) ∧ P.guar l.locks w (l.commit w id))
    (h0 : ∀ w, P.inv w → A .empty w) (hi : P.inv w) :
    x.tx.Safe P .empty w := by
  refine hx (fun _ => .commit id) (fun _ l w hi he w' hr => ?_) _ w hi (h0 w hi)
  obtain ⟨hi', he'⟩ := E.rely hi he hr
  exact hE l w' hi' he'

end Triple

end TraceCommons.ReadCommitted
