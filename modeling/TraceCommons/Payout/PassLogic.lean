import TraceCommons.Payout.BookSteps

/-! # Rules for the calls of a pass

The invariant of a run, what a pass may know of the books between two calls, and one rule for each
kind of call. -/

namespace TraceCommons.Payout

open Conc

namespace PayState

variable {rail : Rail} {peak : String → Uuid → Nat} {s s' : PayState}

theorem commit_eq_some {α : Type} {r : Except DatabaseError (α × Db)} (h : s.commit r = some s') :
    ∃ a db, r = .ok (a, db) ∧ s' = { s with db } := by
  unfold commit at h
  split at h
  · cases h; exact ⟨_, _, rfl, rfl⟩
  · cases h

/-- A store call reports an error and took effect or not, or it succeeded. -/
theorem reply_cases {α : Type} {c : Choice} {r : Except DatabaseError (α × Db)}
    {x : Except DatabaseError α} (e : s.reply c r = (x, s')) :
    ((∃ err, x = .error err) ∧ s' = s) ∨
      ∃ a db, r = .ok (a, db) ∧ s' = { s with db } ∧ (x = .ok a ∨ ∃ err, x = .error err) := by
  unfold reply at e
  split at e
  · cases e; exact .inl ⟨⟨_, rfl⟩, rfl⟩
  · cases e; exact .inr ⟨_, _, rfl, rfl, .inl rfl⟩
  · cases e; exact .inr ⟨_, _, rfl, rfl, .inr ⟨_, rfl⟩⟩
  · cases e; exact .inl ⟨⟨_, rfl⟩, rfl⟩

/-- Nobody but the pass writes lines, closes a link that was paid, or sends. -/
theorem move_moves (h : s.books.Inv rail peak) {m : Move} (e : s.move rail m = some s') :
    Db.Moves rail peak s.ledger s.db s'.db ∧ s'.ledger = s.ledger := by
  cases m with
  | idle | accruals | bonuses | holds | standing | anchors => cases e; exact ⟨.of_eq h rfl rfl, rfl⟩
  | control b b' => cases e; exact ⟨.of_eq h rfl rfl, rfl⟩
  | tick t =>
    simp only [move] at e
    split at e
    · cases e; exact ⟨.of_eq h rfl rfl, rfl⟩
    · cases e
  | request r =>
    obtain ⟨a, db, hr, rfl⟩ := commit_eq_some e
    unfold Db.insertPayoutLinkRequest at hr
    split at hr
    · split at hr <;> cases hr <;> exact ⟨.of_eq h rfl rfl, rfl⟩
    · split at hr
      · cases hr
      · cases hr; exact ⟨.of_eq h rfl rfl, rfl⟩
  | take | purge => cases e; exact ⟨.of_eq h rfl rfl, rfl⟩
  | confirm t a handle id =>
    simp only [move] at e
    split at e
    next hfresh =>
      obtain ⟨r, db, hr, rfl⟩ := commit_eq_some e
      exact ⟨Db.confirmPayoutLinkRequest_moves h hfresh hr, rfl⟩
    next => cases e
  | rebind t a => cases e; exact ⟨Db.rebind_moves h t a, rfl⟩
  | release t id =>
    obtain ⟨r, db, hr, rfl⟩ := commit_eq_some e
    exact ⟨Db.transitionPayoutLink_moves h hr, rfl⟩
  | carry t a id recipient =>
    simp only [move] at e
    split at e
    next hcond =>
      cases e
      exact ⟨Db.addLink_moves h hcond.1 hcond.2 rfl rfl rfl ⟨rfl, rfl⟩, rfl⟩
    next => cases e
  | releaseCarry t id => cases e; exact ⟨Db.releaseCarry_moves h t id, rfl⟩

end PayState

/-- The books fit, and so far every step kept the links in order. -/
structure RunInv (rail : Rail) (h : Hist PayState) : Prop where
  books : h.now.books.Inv rail (peakOwed h)
  steps : List.IsChain (fun s s' => LinkStep s'.db.lines s'.db.links s.db.links) h.states

theorem RunInv.push {rail : Rail} {h : Hist PayState} (hi : RunInv rail h) {s : PayState}
    (hbooks : s.books.Inv rail (peakOwed h))
    (hstep : LinkStep h.now.db.lines h.now.db.links s.db.links) : RunInv rail (h.push s) where
  books := hbooks.mono fun t a => peakOwed_mono h s t a
  steps := hi.steps.cons_cons hstep

def runInv (rail : Rail) : Assertion (payMachine rail) where
  holds := RunInv rail
  stable h m s hi e := by
    obtain ⟨hm, hg⟩ := PayState.move_moves hi.books e
    exact hi.push (by rw [PayState.books, hg]; exact hm.inv) hm.links

/-- A fact about the books that a larger peak and the others' transactions leave true. -/
structure BookFact (rail : Rail) where
  holds : (String → Uuid → Nat) → Books → Prop
  mono : ∀ {peak peak' b}, (∀ t a, peak t a ≤ peak' t a) → holds peak b → holds peak' b
  moves : ∀ {peak g db db'}, Db.Moves rail peak g db db' → holds peak (db.books g) →
    holds peak (db'.books g)

namespace BookFact

variable {rail : Rail}

theorem push (F : BookFact rail) {h : Hist PayState} {s : PayState}
    (hf : F.holds (peakOwed h) s.books) : F.holds (peakOwed (h.push s)) s.books :=
  F.mono (peakOwed_mono h s) hf

/-- What the pass knows besides the invariant. -/
def known (F : BookFact rail) : Assertion (payMachine rail) where
  holds h := RunInv rail h ∧ F.holds (peakOwed h) h.now.books
  stable h m s hf e := by
    obtain ⟨hm, hg⟩ := PayState.move_moves hf.1.books e
    refine ⟨(runInv rail).stable h m s hf.1 e, F.push ?_⟩
    rw [PayState.books, hg]
    exact F.moves hm hf.2

def top : BookFact rail := ⟨fun _ _ => True, fun _ _ => trivial, fun _ _ => trivial⟩

def and (F G : BookFact rail) : BookFact rail where
  holds peak b := F.holds peak b ∧ G.holds peak b
  mono hp h := ⟨F.mono hp h.1, G.mono hp h.2⟩
  moves hm h := ⟨F.moves hm h.1, G.moves hm h.2⟩

def lift (p : Prop) : BookFact rail := ⟨fun _ _ => p, fun _ h => h, fun _ h => h⟩

/-- The account was owed `n` at some point. -/
def owedSeen (t : String) (a : Uuid) (n : Nat) : BookFact rail where
  holds peak _ := n ≤ peak t a
  mono hp h := h.trans (hp t a)
  moves _ h := h

/-- The account's closed links recorded `n`. -/
def closedSeen (t : String) (a : Uuid) (n : Nat) : BookFact rail where
  holds _ b := b.closedFinal t a = n
  mono _ h := h
  moves hm h := (hm.closed t a).trans h

def railTotal (q : String) (n : Nat) : BookFact rail where
  holds _ b := b.ledger.total q = n
  mono _ h := h
  moves _ h := h

/-- The line is there, as far as no update changes it. -/
def lineKnown (line : PayoutLine) : BookFact rail where
  holds _ b := ∃ p ∈ b.lines, PayoutLine.Same line p
  mono _ h := h
  moves hm h := by simpa only [Db.books, hm.lines] using h

def linePending (line : PayoutLine) : BookFact rail where
  holds _ b := ∃ p ∈ b.lines, PayoutLine.Same line p ∧ p.state = .pending
  mono _ h := h
  moves hm h := by simpa only [Db.books, hm.lines] using h

/-- The rail has a record of that receipt and amount on the program. -/
def recorded (q receipt : String) (delta : Nat) : BookFact rail where
  holds _ b := ∃ r ∈ b.ledger, r.receiptHash = receipt ∧ r.delta = delta ∧ r.program = q
  mono _ h := h
  moves _ h := h

def freshLine (id : Uuid) : BookFact rail where
  holds _ b := ∀ p ∈ b.lines, p.lineId ≠ id
  mono _ h := h
  moves hm h := by simpa only [Db.books, hm.lines] using h

/-- The link's referral program, where a total is given, holds that total. -/
def referralTotal (id : Uuid) (referral : Option Nat) : BookFact rail where
  holds _ b := ∀ n, referral = some n → ∃ q, rail.referralProgramForLink id = some q ∧
    b.ledger.total q = n
  mono _ h := h
  moves _ h := h

/-- A fact that resolving a line leaves true. -/
def Settled (F : BookFact rail) : Prop :=
  ∀ peak b t id r, F.holds peak b → F.holds peak (b.updateLine t id (·.resolve r))

theorem Settled.resolvePayoutLine {F : BookFact rail} (hF : F.Settled) {peak : String → Uuid → Nat}
    {g : Ledger} {db : Db} {t : String} {id : Uuid} {r : PayoutLineResolution}
    (h : F.holds peak (db.books g)) : F.holds peak ((db.resolvePayoutLine t id r).2.books g) := by
  unfold Db.resolvePayoutLine
  split
  · exact h
  split
  · exact h
  · exact hF _ _ t id r h

theorem Settled.top : (top : BookFact rail).Settled := fun _ _ _ _ _ h => h

theorem Settled.and {F G : BookFact rail} (hF : F.Settled) (hG : G.Settled) : (F.and G).Settled :=
  fun peak b t id r h => ⟨hF peak b t id r h.1, hG peak b t id r h.2⟩

theorem Settled.railTotal (q : String) (n : Nat) : (railTotal q n : BookFact rail).Settled :=
  fun _ _ _ _ _ h => h

theorem Settled.lineKnown (line : PayoutLine) : (lineKnown line : BookFact rail).Settled := by
  rintro _ b t id r ⟨p, hp, hsame⟩
  refine ⟨_, List.mem_map_of_mem hp, ?_⟩
  split
  · have hr := p.resolve_same r
    exact ⟨hr.lineId.trans hsame.lineId, hr.linkId.trans hsame.linkId,
      hr.tenantId.trans hsame.tenantId, hr.accountId.trans hsame.accountId,
      hr.stream.trans hsame.stream, hr.targetTotal.trans hsame.targetTotal⟩
  · exact hsame

end BookFact

/-- A link's columns as the rail derives them. -/
structure Snap (rail : Rail) (l : PayoutLink) : Prop where
  program : l.program = rail.programForLink l.linkId
  referral : ∀ q, l.referralProgram = some q → rail.referralProgramForLink l.linkId = some q

theorem Books.Inv.snap {rail : Rail} {peak : String → Uuid → Nat} {b : Books}
    (h : b.Inv rail peak) {l : PayoutLink} (hl : l ∈ b.links) : Snap rail l :=
  ⟨h.program l hl, h.referral l hl⟩

def PayoutLineResolution.confirms : PayoutLineResolution → Bool
  | .confirmed .. => true
  | _ => false

namespace StoreOp

/-- The calls that write links or lines. -/
def writesBooks : StoreOp → Bool
  | transitionPayoutLink .. | closePayoutLinkStreams ..
  | markPayoutLinkRecipientUnavailable .. => true
  | insertPendingPayoutLine .. | resolvePayoutLine .. => true
  | _ => false

theorem reading_eq_ok {α : Type} {db db' : Db} {r : Except DatabaseError α} {a : α}
    (h : reading db r = .ok (a, db')) : r = .ok a ∧ db' = db := by
  cases r with
  | ok b => cases h; exact ⟨rfl, rfl⟩
  | error e => cases h

theorem run_books {o : StoreOp} (h : o.writesBooks = false) {db db' : Db} {a : o.Result}
    (e : o.run db = .ok (a, db')) : db'.links = db.links ∧ db'.lines = db.lines ∧
      db'.now = db.now ∧ db'.requests = db.requests := by
  cases o with
  | transitionPayoutLink | closePayoutLinkStreams | markPayoutLinkRecipientUnavailable => cases h
  | insertPendingPayoutLine | resolvePayoutLine => cases h
  | openPayoutHold t account label =>
    rw [show db' = (db.openPayoutHold t account label).2 by rw [Except.ok.inj e]]
    unfold Db.openPayoutHold
    split <;> exact ⟨rfl, rfl, rfl, rfl⟩
  | clearPayoutHold t account label =>
    rw [show db' = (db.clearPayoutHold t account label).2 by rw [Except.ok.inj e]]
    unfold Db.clearPayoutHold
    split <;> exact ⟨rfl, rfl, rfl, rfl⟩
  | payoutOwed | payoutReferralOwed | payoutLinkStreamConfirmedTotal
  | payoutClosedLinksFinalPaid | payoutClosedLinksFinalPaidReferral =>
    obtain ⟨-, rfl⟩ := reading_eq_ok e
    exact ⟨rfl, rfl, rfl, rfl⟩
  | _ =>
    obtain ⟨-, rfl⟩ := Prod.mk.inj (Except.ok.inj e)
    exact ⟨rfl, rfl, rfl, rfl⟩

end StoreOp

/-- What a pass does, in terms of what it knows of the books. -/
def PassTriple (rail : Rail) {α : Type} (F : BookFact rail) (x : PassM α) (Q : α → BookFact rail) :
    Prop :=
  Triple (M := payMachine rail) (runInv rail) F.known x fun a => (Q a).known

namespace PassTriple

variable {rail : Rail} {F G : BookFact rail} {α β : Type}

variable {Q : α → BookFact rail} {x : PassM α}

theorem bind {f : α → PassM β} {R : β → BookFact rail} (hx : PassTriple rail F x Q)
    (hf : ∀ a, PassTriple rail (Q a) (f a) R) : PassTriple rail F (x >>= f) R :=
  Triple.bind hx hf

theorem pure {a : α} (h : ∀ peak b, F.holds peak b → (Q a).holds peak b) :
    PassTriple rail F (Pure.pure a) Q :=
  Triple.pure fun _ hi hf => ⟨hi, h _ _ hf.2⟩

theorem raise {e : Halt} : PassTriple rail F (Proc.raise e) Q :=
  Triple.raise

theorem conseq {R : α → BookFact rail} (hx : PassTriple rail G x R)
    (hF : ∀ peak b, F.holds peak b → G.holds peak b)
    (hQ : ∀ a peak b, (R a).holds peak b → (Q a).holds peak b) : PassTriple rail F x Q := by
  refine Triple.conseq (fun _ hi hf => ?_) (fun a _ hi hq => ?_) hx
  · exact ⟨hi, hF _ _ hf.2⟩
  · exact ⟨hi, hQ a _ _ hq.2⟩

theorem pre (hx : PassTriple rail G x Q) (hF : ∀ peak b, F.holds peak b → G.holds peak b) :
    PassTriple rail F x Q :=
  hx.conseq hF fun _ _ _ h => h

theorem weaken (hx : PassTriple rail F x Q) : PassTriple rail F x fun _ => .top :=
  hx.conseq (fun _ _ h => h) fun _ _ _ _ => trivial

theorem lift {p : Prop} (hx : p → PassTriple rail F x Q) : PassTriple rail (F.and (.lift p)) x Q :=
  fun l h hi hf => hx hf.2.2 l h hi ⟨hf.1, hf.2.1⟩

theorem attempt {A : Except Halt α → BookFact rail} (hx : PassTriple rail F x Q)
    (hok : ∀ a peak b, (Q a).holds peak b → (A (.ok a)).holds peak b)
    (herr : ∀ e peak b, (A (.error e)).holds peak b) : PassTriple rail F x.attempt A :=
  Triple.attempt_ok hx (fun a _ hi hq => ⟨hi, hok a _ _ hq.2⟩) fun e _ hi => ⟨hi, herr e _ _⟩

theorem setLocals {f : PassLocals → PassLocals} :
    PassTriple rail F (Proc.setLocals f) fun _ => F :=
  Triple.setLocals

theorem locals : PassTriple rail F Proc.locals fun _ => F := Triple.locals

theorem forEach {f : α → PassM Unit} {as : List α}
    (hf : ∀ a ∈ as, PassTriple rail F (f a) fun _ => F) :
    PassTriple rail F (Proc.forEach f as) fun _ => F :=
  Triple.forEach hf

/-! ## Store calls -/

/-- What is known after a call: `Q` of its result, `E` of an error. -/
def onOk {ε : Type} (Q : α → BookFact rail) (E : BookFact rail) : Except ε α → BookFact rail
  | .ok a => Q a
  | .error _ => E

section store

variable {o : StoreOp} {Q : o.Result → BookFact rail}
  (h : ∀ peak g db a db', (db.books g).Inv rail peak → (∀ t a, db.netOwed t a ≤ peak t a) →
    F.holds peak (db.books g) → o.run db = .ok (a, db') →
    Db.Keeps rail peak g db db' ∧ (Q a).holds peak (db'.books g))

include h

/-- A store call keeps the books if its transaction does, and the pass knows of its reply what the
transaction says. -/
theorem storeCall : PassTriple rail F (Payout.storeCall o) (onOk Q .top) := by
  refine .call fun hist c r s hi hf e => ?_
  rcases PayState.reply_cases (Option.some.inj e) with ⟨⟨_, rfl⟩, rfl⟩ | ⟨a, db, hrun, rfl, hr⟩
  · exact ⟨(runInv _).again hi, (runInv _).again hi, trivial⟩
  obtain ⟨hk, hq⟩ := h _ _ _ a db hi.books (netOwed_le_peakOwed _) hf.2 hrun
  have hi' := hi.push (s := { hist.now with db }) hk.inv hk.links
  rcases hr with rfl | ⟨_, rfl⟩
  · exact ⟨hi', hi', (Q a).push hq⟩
  · exact ⟨hi', hi', trivial⟩

theorem store : PassTriple rail F (Payout.store o) Q := by
  refine bind (storeCall h) fun r => ?_
  cases r with
  | ok a => exact pure fun _ _ hq => hq
  | error e => exact raise

end store

/-- A store call that leaves links and lines alone keeps what is known, and says what it read. -/
theorem quiet {o : StoreOp} {Q : o.Result → BookFact rail} (ho : o.writesBooks = false)
    (h : ∀ peak g db a db', (db.books g).Inv rail peak → (∀ t a, db.netOwed t a ≤ peak t a) →
      F.holds peak (db.books g) → o.run db = .ok (a, db') → (Q a).holds peak (db.books g)) :
    PassTriple rail F (Payout.store o) Q := by
  refine store fun peak g db a db' hi howed hf e => ?_
  obtain ⟨hlinks, hlines, -⟩ := StoreOp.run_books ho e
  refine ⟨(Db.Moves.of_eq hi hlinks hlines).toKeeps, ?_⟩
  rw [Db.books, hlinks, hlines]
  exact h _ g db a db' hi howed hf e

variable {t : String}

/-- The links a pass reads name the programs the rail derives for them. -/
theorem payoutLinks {states : List PayoutLinkState} :
    PassTriple rail F (Payout.store (.payoutLinks t states))
      fun links => F.and (.lift (∀ l ∈ links, Snap rail l)) := by
  refine quiet rfl fun peak g db a db' hi _ hf e => ⟨hf, fun l hl => ?_⟩
  cases e
  exact hi.snap (List.mem_filter.1 hl).1

theorem payoutLiveLink {a : Uuid} :
    PassTriple rail F (Payout.store (.payoutLiveLink t a))
      fun link => F.and (.lift (∀ l ∈ link, Snap rail l)) := by
  refine quiet rfl fun peak g db r db' hi _ hf e => ⟨hf, fun l hl => ?_⟩
  cases e
  exact hi.snap (List.mem_of_find?_eq_some hl)

/-- What is owed now is within the peak. -/
theorem payoutOwed {a : Uuid} :
    PassTriple rail F (Payout.store (.payoutOwed t a))
      fun owed => .and F (.owedSeen t a (owed.net.getD 0)) := by
  refine quiet rfl fun peak g db r db' hi howed hf e => ⟨hf, ?_⟩
  refine le_trans ?_ (howed t a)
  obtain ⟨hc, hrev⟩ := Db.payoutOwed_eq_ok (StoreOp.reading_eq_ok e).1
  rw [PayoutOwed.net, checkedSub, hc, hrev]
  split
  · exact le_rfl
  · exact Nat.zero_le _

theorem payoutClosedLinksFinalPaid {a : Uuid} :
    PassTriple rail F (Payout.store (.payoutClosedLinksFinalPaid t a))
      fun n => .and F (.closedSeen t a n) := by
  refine quiet rfl fun peak g db r db' hi _ hf e => ⟨hf, ?_⟩
  exact parseUnits_eq_ok (StoreOp.reading_eq_ok e).1

variable {id : Uuid}

theorem pendingPayoutLineForStream {st : PayoutStream} :
    PassTriple rail F (Payout.store (.pendingPayoutLineForStream t id st)) fun r => match r with
      | none => F
      | some line =>
        .and F (.and (.linePending line) (.lift (line.linkId = id ∧ line.stream = st))) := by
  refine quiet rfl fun peak g db r db' hi _ hf e => ?_
  obtain ⟨_, _⟩ := Prod.mk.inj (Except.ok.inj e)
  split
  · exact hf
  rename_i line hline
  have hp := List.find?_some hline
  simp only [Bool.and_eq_true, PayoutLine.ofLink, decide_eq_true_eq] at hp
  exact ⟨hf, ⟨line, List.mem_of_find?_eq_some hline, .refl _, hp.1.2⟩, hp.1.1.2, hp.2⟩

theorem markPayoutLinkRecipientUnavailable :
    PassTriple rail F (Payout.store (.markPayoutLinkRecipientUnavailable t id)) fun _ => .top := by
  refine store fun peak g db r db' hi _ _ e => ⟨?_, trivial⟩
  rw [show db' = (db.markPayoutLinkRecipientUnavailable t id).2 by rw [Except.ok.inj e]]
  exact Db.markPayoutLinkRecipientUnavailable_keeps hi t id

theorem transitionPayoutLink {src dst : PayoutLinkState} {action : PayoutAuditAction} :
    PassTriple rail F (Payout.store (.transitionPayoutLink t id src dst action)) fun _ => .top :=
  store fun _ _ _ _ _ hi _ _ e => ⟨Db.transitionPayoutLink_keeps hi e, trivial⟩

/-- A link closes at the totals the rail has now. -/
theorem closePayoutLinkStreams {paid : Nat} {referral : Option Nat} {next : Option Uuid} :
    PassTriple rail (.and (.railTotal (rail.programForLink id) paid) (.referralTotal id referral))
      (Payout.store (.closePayoutLinkStreams t id paid referral next)) fun _ => .top :=
  store fun _ _ _ _ _ hi _ hf e => ⟨Db.closePayoutLinkStreams_keeps hi hf.1 hf.2 e, trivial⟩

/-- A resolution that is not a confirmation asks nothing. -/
theorem resolveOther (hF : F.Settled) {r : PayoutLineResolution} (hr : r.confirms = false) :
    PassTriple rail F (Payout.store (.resolvePayoutLine t id r)) fun _ => F := by
  refine store fun peak g db a db' hi _ hf e => ?_
  rw [show db' = (db.resolvePayoutLine t id r).2 by rw [Except.ok.inj e]]
  refine ⟨Db.resolvePayoutLine_keeps hi fun x d h => ?_, hF.resolvePayoutLine hf⟩
  rw [h] at hr
  cases hr

/-- A line is confirmed by a record of its own program. -/
theorem resolveConfirmed (hF : F.Settled) {line : PayoutLine} {q x : String} {d : Nat}
    (hq : rail.streamProgram line.linkId line.stream = some q) :
    PassTriple rail (.and (F.and (.lineKnown line)) (.recorded q x d))
      (Payout.store (.resolvePayoutLine t line.lineId (.confirmed x d)))
      fun _ => F.and (.lineKnown line) := by
  refine store fun peak g db a db' hi _ hf e => ?_
  obtain rfl : (db.resolvePayoutLine t line.lineId (.confirmed x d)).2 = db' := by
    rw [Except.ok.inj e]
  obtain ⟨hk, r, hr, hx, hd, rfl⟩ := hf
  refine ⟨Db.resolvePayoutLine_keeps hi fun x' d' h p hp hid => ?_,
    (hF.and (.lineKnown _)).resolvePayoutLine hk⟩
  cases h
  obtain ⟨-, p', hp', hsame⟩ := hk
  obtain rfl := hi.line_ext hp hp' (hid.trans hsame.lineId.symm)
  exact ⟨r, hr, hx, hd, by rw [hsame.linkId, hsame.stream, hq]⟩

/-- A new line, within what the peak leaves if it is an earned one, is pending. -/
theorem insertPendingPayoutLine {w : PayoutLineWrite} (hid : w.lineId = id)
    (hbound : w.stream = .earned → ∀ peak b, F.holds peak b →
      w.targetTotal + b.closedFinal t w.accountId ≤ peak t w.accountId)
    (hq : ∀ q, w.referralProgram = some q → rail.referralProgramForLink w.linkId = some q) :
    PassTriple rail (F.and (.freshLine id)) (Payout.store (.insertPendingPayoutLine t w))
      fun r => if r = .inserted then .linePending (PayoutLine.ofWrite t w) else .top := by
  subst hid
  refine store fun peak g db r db' hi _ hf e => ?_
  obtain ⟨hk, hmem⟩ := Db.insertPendingPayoutLine_keeps hi hf.2
    (fun h => hbound h _ _ hf.1) hq e
  refine ⟨hk, ?_⟩
  split
  next h => exact ⟨_, hmem h, .refl _, rfl⟩
  next => trivial

/-! ## Rail calls -/

variable {c : Credential}

/-- A rail call that lands nothing reports the ledger as it is. -/
theorem railRead {o : RailOp} {Q : o.Result → BookFact rail} (ho : ∀ g, (o.run rail g).2 = g)
    (h : ∀ peak b, F.holds peak b → (Q (o.run rail b.ledger).1).holds peak b) :
    PassTriple rail F (railCall c o) (onOk Q F) := by
  refine .call fun hist ch r s hi hf e => ?_
  have e' : hist.now.railReply ch (o.run rail hist.now.ledger) = (r, s) := Option.some.inj e
  have hnow : { hist.now with ledger := (o.run rail hist.now.ledger).2 } = hist.now := by
    rw [ho]
  have hi' := (runInv _).again hi
  unfold PayState.railReply at e'
  rw [hnow] at e'
  split at e' <;> obtain ⟨rfl, rfl⟩ := Prod.mk.inj e'
  · exact ⟨hi', hi', (Q _).push (h _ _ hf.2)⟩
  · exact ⟨hi', hi', F.push hf.2⟩
  · exact ⟨hi', hi', F.push hf.2⟩

theorem readTotal {q : String} :
    PassTriple rail F (railCall c (.readTotal q)) (onOk (fun n => F.and (.railTotal q n)) F) :=
  railRead (fun _ => rfl) fun _ _ hf => ⟨hf, rfl⟩

theorem history {q : String} :
    PassTriple rail F (railCall c (.history q))
      (onOk (fun entries => F.and (.railTotal q (entries.map (·.delta)).sum)) F) :=
  railRead (fun _ => rfl) fun _ _ hf => ⟨hf, rfl⟩

/-- What the pass knows after a lookup on a program. -/
def afterLookup (F : BookFact rail) (q : String) : ReceiptLookup → BookFact rail
  | .found receipt delta => F.and (.recorded q receipt delta)
  | .notFound => F

theorem findReceipt {rl : RailLine} {exclude : List String} :
    PassTriple rail F (railCall c (.findReceipt rl exclude)) (onOk (afterLookup F rl.program) F) := by
  refine railRead (fun _ => rfl) fun peak b hf => ?_
  cases h : b.ledger.findReceipt rl exclude with
  | found receipt delta =>
    simp only [RailOp.run, h]
    exact ⟨hf, Ledger.findReceipt_eq_found h⟩
  | notFound =>
    simp only [RailOp.run, h]
    exact hf

/-- What the pass knows after a send of `line`. -/
def afterSend (line : PayoutLine) (q : String) : SendOutcome → BookFact rail
  | .committed receipt delta _ => .and (.lineKnown line) (.recorded q receipt delta)
  | .alreadyAtOrAbove _ => .lineKnown line

/-- A send on behalf of a pending line, into the line's own program and up to its target. -/
theorem railSend {line : PayoutLine} {rl : RailLine}
    (hq : rail.streamProgram line.linkId line.stream = some rl.program)
    (htarget : rl.targetTotal = line.targetTotal) :
    PassTriple rail (.linePending line) (railCall c (.send rl))
      (onOk (afterSend line rl.program) .top) := by
  refine .call fun hist ch r s hi hf e => ?_
  obtain ⟨-, p, hp, hsame, hs⟩ := hf
  have hsent : RunInv rail (hist.push { hist.now with ledger := (hist.now.ledger.send _ rl).2 }) :=
    hi.push (hi.books.send hp hs (by rw [hsame.linkId, hsame.stream, hq])
      (htarget.trans hsame.targetTotal.symm)) .refl
  have hi' := (runInv _).again hi
  have e' : hist.now.railReply ch (hist.now.ledger.send rail rl) = (r, s) := Option.some.inj e
  unfold PayState.railReply at e'
  split at e' <;> obtain ⟨rfl, rfl⟩ := Prod.mk.inj e'
  · refine ⟨hsent, hsent, ?_⟩
    simp only [Ledger.send]
    split
    · exact ⟨p, hp, hsame⟩
    next hlt =>
      exact ⟨⟨p, hp, hsame⟩, ⟨rail.receiptHash _, rl.program, _, rl.targetTotal⟩,
        by simp [PayState.books], rfl, rfl, rfl⟩
  · exact ⟨hsent, hsent, trivial⟩
  · exact ⟨hi', hi', trivial⟩

/-! ## The other calls -/

/-- A call that does to the books what the others may do keeps what is known. -/
theorem moved {o : PassOp}
    (h : ∀ peak c (s : PayState) r (s' : PayState), s.books.Inv rail peak →
      s.exec rail c o = some (r, s') →
      Db.Moves rail peak s.ledger s.db s'.db ∧ s'.ledger = s.ledger) :
    PassTriple rail F (Proc.call o) fun _ => F := by
  refine .call fun hist c r s hi hf e => ?_
  obtain ⟨hm, hg⟩ := h _ c _ r s hi.books e
  have hi' : RunInv rail (hist.push s) :=
    hi.push (by rw [PayState.books, hg]; exact hm.inv) hm.links
  refine ⟨hi', hi', F.push ?_⟩
  rw [PayState.books, hg]
  exact F.moves hm hf.2

theorem preflight : PassTriple rail F (Payout.preflight c) fun _ => F := by
  refine moved fun peak ch s r s' hi e => ?_
  obtain ⟨-, rfl⟩ := Prod.mk.inj (Option.some.inj e)
  exact ⟨.of_eq hi rfl rfl, rfl⟩

theorem accrueRailCall : PassTriple rail F (Payout.accrueRailCall t) fun _ => F := by
  refine moved fun peak ch s r s' hi e => ?_
  have e' : s.accrue rail.descriptor ch t = (r, s') := Option.some.inj e
  simp only [PayState.accrue] at e'
  split at e' <;> obtain ⟨-, rfl⟩ := Prod.mk.inj e' <;> exact ⟨.of_eq hi rfl rfl, rfl⟩

theorem referralBonusHook : PassTriple rail F (Payout.referralBonusHook t) fun _ => F := by
  refine moved fun peak ch s r s' hi e => ?_
  obtain ⟨-, rfl⟩ := Prod.mk.inj (Option.some.inj e)
  exact ⟨.of_eq hi rfl rfl, rfl⟩

theorem releaseUnprovenLegacyCarries :
    PassTriple rail F (Payout.releaseUnprovenLegacyCarries t) fun _ => F := by
  refine moved fun peak ch s r s' hi e => ?_
  rcases PayState.reply_cases (Option.some.inj e) with ⟨-, rfl⟩ | ⟨_, db, hrun, rfl, -⟩
  · exact ⟨.of_eq hi rfl rfl, rfl⟩
  · obtain ⟨-, rfl⟩ := Prod.mk.inj (Except.ok.inj hrun)
    exact ⟨Db.releaseCarries_moves hi t _, rfl⟩

theorem newUuid : PassTriple rail F Payout.newUuid fun id => F.and (.freshLine id) := by
  refine .call fun hist ch r s hi hf e => ?_
  have e' : (if hist.now.db.freshLine ch.uuid then some (ch.uuid, hist.now) else none) =
    some (r, s) := e
  split at e'
  next hfresh =>
    cases e'
    refine ⟨(runInv _).again hi, (F.and _).known.again ⟨hi, hf.2, fun p hp => ?_⟩⟩
    simpa using List.all_eq_true.1 hfresh p hp
  next => cases e'

end PassTriple

end TraceCommons.Payout
