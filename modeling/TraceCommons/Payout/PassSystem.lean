import TraceCommons.Payout.LinkRequest
import TraceCommons.Payout.Pass

/-! # Payout passes among everything else

The database and the rail as one state, what each call of a pass can do to it and reply, and what
everybody else can do between two calls. A call whose reply is lost took effect or did not; a new
UUID is one no row has. -/

namespace TraceCommons.Payout

open Conc

structure PayState where
  db : Db
  ledger : Ledger

/-- How a call of the pass goes. `fault` is the error it replies with, and whether it took effect
all the same. -/
structure Choice where
  fault : Option (RailRefusal × Bool) := none
  capacity : RailCapacity := ⟨true, none, 2 ^ 64, none⟩
  locked : Bool := true
  uuid : Uuid := 0
  carries : List Uuid := []
  stop : RunStop := .planned
  holds : List PayoutHold := []
  bonuses : List ReferralBonusAccrual := []
  tripped : Option Bool := none

/-- What others do to the rail's rows. Accrual runs, reversals and claims of accruals, the
referral side, holds and standings may write anything of their own. -/
inductive Move
  | idle
  | accruals (tenant : String) (w : World)
  | bonuses (rows : List ReferralBonusAccrual)
  | holds (rows : List PayoutHold)
  | standing (f : String → Uuid → PayoutAccountStanding)
  | anchors (rows : List LoginAnchor)
  | control (halted referralHalted : Bool)
  | tick (t : Time)
  | request (r : PayoutLinkRequest)
  | take (tenant : String) (account : Uuid) (handle : String)
  | purge (tenant : String)
  | confirm (tenant : String) (account : Uuid) (handle : String) (linkId : Uuid)
  | rebind (tenant : String) (account : Uuid)
  | release (tenant : String) (linkId : Uuid)
  | carry (tenant : String) (account linkId : Uuid) (recipient : String)
  | releaseCarry (tenant : String) (linkId : Uuid)

namespace Db

def freshLink (db : Db) (linkId : Uuid) : Bool := db.links.all (·.linkId ≠ linkId)

def freshLine (db : Db) (lineId : Uuid) : Bool := db.lines.all (·.lineId ≠ lineId)

/-- The writes of a login rebind: the account's active link is marked for unlinking and its
requests go. -/
def rebind (db : Db) (tenant : String) (account : Uuid) : Db :=
  { db with
    links := db.links.map fun l =>
      if l.ofAccount tenant account ∧ l.state = .active then { l with unlinkRequested := true }
      else l
    requests := db.requests.filter (!·.ofAccount tenant account) }

/-- The link a legacy carry writes. -/
def carriedLink (tenant : String) (account linkId : Uuid) (recipient program : String) :
    PayoutLink where
  tenantId := tenant
  accountId := account
  linkId := linkId
  recipient := recipient
  program := program
  state := .waiting
  finalPaid := none
  referralProgram := none
  finalPaidReferral := none
  unlinkRequested := false
  recipientUnavailable := false

end Db

namespace PayState

/-- A store write as the pass sees it. -/
def reply {α : Type} (c : Choice) (s : PayState) (r : Except DatabaseError (α × Db)) :
    Except DatabaseError α × PayState :=
  match r, c.fault with
  | .error e, _ => (.error e, s)
  | .ok (a, db), none => (.ok a, { s with db })
  | .ok (_, db), some (_, true) => (.error .postgres, { s with db })
  | .ok _, some (_, false) => (.error .postgres, s)

def railReply {α : Type} (c : Choice) (s : PayState) (r : α × Ledger) :
    Except RailRefusal α × PayState :=
  match c.fault with
  | none => (.ok r.1, { s with ledger := r.2 })
  | some (e, true) => (.error e, { s with ledger := r.2 })
  | some (e, false) => (.error e, s)

def setAccrual (s : PayState) (tenant : String) (w : World) (holds : List PayoutHold) : PayState :=
  { s with db := { s.db with
      accrual := Function.update s.db.accrual tenant w
      holds := s.db.holds ++ holds } }

/-- How many rows of a kind a run added. -/
def added (kind : AccrualKind) (w w' : World) : Nat :=
  (w'.stored.filter (·.kind = kind)).length - (w.stored.filter (·.kind = kind)).length

/-- The pass's accrual run, whole or stopped by a store error. -/
def accrue (d : RailDescriptor) (c : Choice) (s : PayState) (tenant : String) :
    Except AccrualError (Nat × Nat) × PayState :=
  let w := s.db.accrual tenant
  match planRailAccruals d w.inputs, c.fault with
  | .error e, _ => (.error e, s)
  | .ok p, none =>
    let w' := accrueRail d (.claims p.claims.length) w
    (.ok (added .credit w w', added .reversal w w'), s.setAccrual tenant w' c.holds)
  | .ok _, some _ => (.error .store, s.setAccrual tenant (accrueRail d c.stop w) c.holds)

def exec (rail : Rail) (c : Choice) (s : PayState) : (o : PassOp) → Option (o.Reply × PayState)
  | .store o => some (s.reply c (o.run s.db))
  | .rail _ o => some (s.railReply c (o.run rail s.ledger))
  | .preflight _ => some (c.fault.elim (.ok c.capacity) (.error ·.1), s)
  | .tryAcquirePayoutPassLock => some (c.fault.elim (.ok c.locked) fun _ => .error .postgres, s)
  | .releasePayoutPassLock => some ((), s)
  | .newUuid => if s.db.freshLine c.uuid then some (c.uuid, s) else none
  | .releaseUnprovenLegacyCarries t =>
    some (s.reply c (.ok ((), c.carries.foldl (·.releaseCarry t ·) s.db)))
  | .accrueRail t => some (s.accrue rail.descriptor c t)
  | .referralBonus _ =>
    some (c.tripped, { s with db := { s.db with bonuses := c.bonuses, holds := c.holds } })

def commit {α : Type} (s : PayState) (r : Except DatabaseError (α × Db)) : Option PayState :=
  match r with
  | .ok (_, db) => some { s with db }
  | .error _ => none

def move (rail : Rail) (m : Move) (s : PayState) : Option PayState :=
  match m with
  | .idle => some s
  | .accruals t w => some (s.setAccrual t w [])
  | .bonuses rows => some { s with db := { s.db with bonuses := rows } }
  | .holds rows => some { s with db := { s.db with holds := rows } }
  | .standing f => some { s with db := { s.db with standing := f } }
  | .anchors rows => some { s with db := { s.db with anchors := rows } }
  | .control h r => some { s with db := { s.db with halted := h, referralHalted := r } }
  | .tick t => if s.db.now ≤ t then some { s with db := { s.db with now := t } } else none
  | .request r => s.commit (s.db.insertPayoutLinkRequest r)
  | .take t a handle => some { s with db := (s.db.takePayoutLinkRequest t a handle).2 }
  | .purge t => some { s with db := s.db.purgeExpiredPayoutLinkRequests t }
  | .confirm t a handle linkId =>
    if s.db.freshLink linkId then
      s.commit (s.db.confirmPayoutLinkRequest t a handle ⟨linkId, rail.programForLink linkId⟩)
    else none
  | .rebind t a => some { s with db := s.db.rebind t a }
  | .release t linkId =>
    s.commit (s.db.transitionPayoutLink t linkId .active .closing .linkReleased)
  | .carry t a linkId recipient =>
    if s.db.freshLink linkId ∧ s.db.hasWaiting t a = false then
      some { s with db := { s.db with
        links := s.db.links ++ [Db.carriedLink t a linkId recipient (rail.programForLink linkId)] } }
    else none
  | .releaseCarry t linkId => some { s with db := s.db.releaseCarry t linkId }

end PayState

/-- The pass's calls and the others' moves on one rail. -/
def payMachine (rail : Rail) : Machine PassOp PassOp.Reply PayState where
  Choice := Choice
  Move := Move
  exec := PayState.exec rail
  move := PayState.move rail
  idle := .idle
  move_idle _ := rfl

abbrev PassOn (rail : Rail) := { p : PayoutPass // p.rail = rail }

abbrev PayConfig := Config PassOp PassOp.Reply PayState PayoutPassReport

/-- What happens on the rail from a state on, one pass at a time. -/
def PayConfig.run (rail : Rail) (s : PayState) (es : List (Event (payMachine rail) (PassOn rail))) :
    Option PayConfig :=
  Config.run (payMachine rail) (fun p : PassOn rail => p.1.runOnce) ⟨⟨s, []⟩, none⟩ es

/-- No link, no line, nothing on the rail. -/
structure PayState.Initial (s : PayState) : Prop where
  links : s.db.links = []
  lines : s.db.lines = []
  ledger : s.ledger = []

/-! ## What an account is owed and has been paid -/

/-- Credits less reversals, floored at zero. -/
def Db.netOwed (db : Db) (tenant : String) (account : Uuid) : Nat :=
  db.accrued tenant account .credit - db.accrued tenant account .reversal

/-- What the rail holds over the earned programs of the account's links. -/
def PayState.paid (s : PayState) (tenant : String) (account : Uuid) : Nat :=
  ((s.db.accountLinks tenant account).map fun l => s.ledger.total l.program).sum

/-- The largest net owed the account has had. -/
def peakOwed (h : Hist PayState) (tenant : String) (account : Uuid) : Nat :=
  (h.states.map fun s => s.db.netOwed tenant account).foldr max 0

theorem peakOwed_mono (h : Hist PayState) (s : PayState) (t : String) (a : Uuid) :
    peakOwed h t a ≤ peakOwed (h.push s) t a :=
  le_max_right _ _

theorem netOwed_le_peakOwed (h : Hist PayState) (t : String) (a : Uuid) :
    h.now.db.netOwed t a ≤ peakOwed h t a :=
  le_max_left _ _

end TraceCommons.Payout
