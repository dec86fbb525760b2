import TraceCommons.Payout.Store

/-! # The referral bonus store

`trace_referral_codes` and `trace_referral_referees` beside the payout tables of one rail, and
the writes of `ReferralBonusStore` that change what a referrer is owed: the bonus rows a run
planned, and the void of a code or of one referee. Each is a transaction under the per-account
lock; what it reads before it has the lock is a function of its own. `clock_timestamp()` is one
reading a transaction. -/

namespace TraceCommons.Referral

open Payout

/-- A row of `trace_referral_codes`. -/
structure ReferralCode where
  tenantId : String
  accountId : Uuid
  codeIndex : String
  voided : Bool
  deriving DecidableEq

/-- A row of `trace_referral_referees`, the referrer's mirror of a referee. -/
structure ReferralReferee where
  tenantId : String
  refereeRefHash : String
  accountId : Uuid
  codeIndex : String
  voided : Bool
  deriving DecidableEq

structure ReferralDb extends Db where
  codes : List ReferralCode
  referees : List ReferralReferee

/-- A row to write, as a run planned it. -/
structure ReferralBonusWrite where
  accountId : Uuid
  refereeRefHash : String
  kind : ReferralBonusKind
  sourceAccrualId : Option Uuid
  bps : Nat
  baseUnits : Nat
  bonusUnits : Nat
  rateVersion : String
  instrumentId : String
  deriving DecidableEq

structure ReferralVoidOutcome where
  accountId : Option Uuid
  refereesVoided : Nat
  takenBack : Nat
  deriving DecidableEq

def ReferralReferee.isReferee (tenant referee : String) (m : ReferralReferee) : Bool :=
  m.tenantId = tenant ∧ m.refereeRefHash = referee

def ReferralReferee.ofCode (tenant code : String) (m : ReferralReferee) : Bool :=
  m.tenantId = tenant ∧ m.codeIndex = code

def ReferralCode.live (tenant code : String) (c : ReferralCode) : Bool :=
  c.tenantId = tenant ∧ c.codeIndex = code ∧ c.voided = false

/-- A bonus row of the referee, for whichever account. -/
def ofReferee (tenant referee : String) (b : ReferralBonusAccrual) : Bool :=
  b.tenantId = tenant ∧ b.refereeRefHash = referee

/-- `trace_referral_bonus_accruals_sign_shape`. -/
def signShape (b : ReferralBonusAccrual) : Bool :=
  match b.kind with
  | .bonus => 0 < b.baseUnits && 0 ≤ b.bonusUnits
  | .reversal => b.baseUnits < 0 && b.bonusUnits ≤ 0
  | .void => b.baseUnits = 0 && b.bonusUnits ≤ 0

/-- The row constraints of `trace_referral_bonus_accruals`: the range of `bps`, `key_shape`,
`sign_shape` and `bound`. -/
def rowChecks (b : ReferralBonusAccrual) : Bool :=
  (1 ≤ b.bps && b.bps ≤ 10000) && (b.kind != .void) == b.sourceAccrualId.isSome && signShape b &&
    b.baseUnits.natAbs < 2 ^ 128 && b.bonusUnits.natAbs < 2 ^ 128

/-- `b` breaks `one_source` or `one_void` beside the stored row `r`. The primary key never
conflicts: a `bonus_id` is a new UUID. -/
def conflicts (b r : ReferralBonusAccrual) : Bool :=
  ofReferee b.tenantId b.refereeRefHash r && (r.kind == .void && b.kind == .void ||
    r.kind != .void && b.kind != .void && r.sourceAccrualId == b.sourceAccrualId)

end TraceCommons.Referral

namespace TraceCommons.Payout.Db

open Referral

/-! ## What an account is owed, referee by referee -/

variable (db : Db) (tenant : String) (account : Uuid) (referee : String)

def refereeRows : List ReferralBonusAccrual :=
  (db.bonusRows tenant account).filter (·.refereeRefHash = referee)

/-- Bonuses less reversals less voids. -/
def net : Int := ((db.refereeRows tenant account referee).map (·.bonusUnits)).sum

def firstAt : Time := ((db.refereeRows tenant account referee).map (·.createdAt)).min?.getD 0

/-- `ORDER BY MIN(created_at), referee_ref_hash`. -/
def earlier (h k : String) : Prop :=
  toLex (db.firstAt tenant account h, h) ≤ toLex (db.firstAt tenant account k, k)

instance (db : Db) (tenant : String) (account : Uuid) :
    DecidableRel (db.earlier tenant account) :=
  fun h k => inferInstanceAs (Decidable (toLex (_, h) ≤ toLex (_, k)))

/-- The account's referees, in the order each first earned. -/
def order : List String :=
  (((db.bonusRows tenant account).map (·.refereeRefHash)).dedup).insertionSort
    (db.earlier tenant account)

/-- The loop of `referee_unsent_on_tx` over the referees' sums. -/
def unsentLoop (referee : String) : Nat → List (String × Int) → Except DatabaseError Nat
  | _, [] => .ok 0
  | sent, (hash, sum) :: rest => do
    let net ← parseFloorZero sum
    let covered := min net sent
    if hash = referee then return net - covered
    unsentLoop referee (sent - covered) rest

def refereeUnsentOnTx : Except DatabaseError Nat := do
  let owed ← db.owedOnTx tenant account
  unsentLoop referee owed.sent
    ((db.order tenant account).map fun h => (h, db.net tenant account h))

def hasVoid : Bool := db.bonuses.any fun b => ofReferee tenant referee b && b.kind = .void

/-- `ORDER BY created_at DESC, bonus_id LIMIT 1`. -/
def latestRow : Option ReferralBonusAccrual :=
  ((db.bonuses.filter (ofReferee tenant referee)).insertionSort fun a b =>
    b.createdAt < a.createdAt ∨ a.createdAt = b.createdAt ∧ a.bonusId ≤ b.bonusId).head?

def addBonus (b : ReferralBonusAccrual) : Db :=
  { db with bonuses := db.bonuses ++ [b] }

end TraceCommons.Payout.Db

namespace TraceCommons.Referral

open Payout

namespace ReferralDb

/-! ## Writes -/

variable (db : ReferralDb) (tenant : String) (account : Uuid) (referee code : String)

/-- `INSERT ... ON CONFLICT DO NOTHING`, with how many rows it wrote. -/
def insertRow (b : ReferralBonusAccrual) : Except DatabaseError (Nat × ReferralDb) :=
  if !rowChecks b then .error .postgres
  else if db.bonuses.any (conflicts b) then .ok (0, db)
  else if !db.referees.any (·.isReferee b.tenantId b.refereeRefHash) then .error .postgres
  else .ok (1, { db with toDb := db.addBonus b })

def voidRow (id : Uuid) (take : Nat) (latest : ReferralBonusAccrual) : ReferralBonusAccrual where
  tenantId := tenant
  bonusId := id
  accountId := account
  refereeRefHash := referee
  kind := .void
  sourceAccrualId := none
  bps := 10000
  baseUnits := 0
  bonusUnits := -take
  rateVersion := latest.rateVersion
  instrumentId := latest.instrumentId
  createdAt := db.now

/-- `write_void_row`, with the units taken back. -/
def writeVoidRow (id : Uuid) : Except DatabaseError (Nat × ReferralDb) :=
  match db.latestRow tenant referee with
  | none => .ok (0, db)
  | some latest =>
    if db.hasVoid tenant referee then .ok (0, db)
    else do
      let take ← db.refereeUnsentOnTx tenant account referee
      let (_, db') ← db.insertRow (db.voidRow tenant account referee id take latest)
      return (take, db')

def markReferees (p : ReferralReferee → Bool) : ReferralDb :=
  { db with referees := db.referees.map fun m => if p m then { m with voided := true } else m }

/-- `void_referral_referee` before it has the lock. -/
def findReferee : Option ReferralReferee := db.referees.find? (·.isReferee tenant referee)

/-- `void_referral_referee` under the lock of the account of `m`, the mirror row it has read. -/
def voidRefereeLocked (m : ReferralReferee) (id : Uuid) :
    Except DatabaseError (ReferralVoidOutcome × ReferralDb) := do
  let marked := if m.voided then db else db.markReferees (·.isReferee tenant referee)
  let (taken, db') ← marked.writeVoidRow tenant m.accountId referee id
  return (⟨some m.accountId, if m.voided then 0 else 1, taken⟩, db')

def voidReferralReferee (id : Uuid) :
    Except DatabaseError (Option ReferralVoidOutcome × ReferralDb) :=
  match db.findReferee tenant referee with
  | none => .ok (none, db)
  | some m => (db.voidRefereeLocked tenant referee m id).map fun r => (some r.1, r.2)

/-- `void_referral_code` before it has the lock: the account of a live code. -/
def findCode : Option Uuid := (db.codes.find? (·.live tenant code)).map (·.accountId)

/-- The referees a code void takes: not yet voided ones, sorted. -/
def codeReferees : List String :=
  ((db.referees.filter fun m => m.ofCode tenant code && !m.voided).map
    (·.refereeRefHash)).dedup.insertionSort (· ≤ ·)

/-- The loop of `void_referral_code`. -/
def writeVoidRows (tenant : String) (account : Uuid) (newUuid : String → Uuid) :
    ReferralDb → List String → Except DatabaseError (Nat × ReferralDb)
  | db, [] => .ok (0, db)
  | db, referee :: rest => do
    let (taken, db₁) ← db.writeVoidRow tenant account referee (newUuid referee)
    let (more, db₂) ← writeVoidRows tenant account newUuid db₁ rest
    return (taken + more, db₂)

def markCode : ReferralDb :=
  { db with codes := db.codes.map fun c => if c.live tenant code then { c with voided := true }
      else c }

/-- `void_referral_code` under the lock of `account`. -/
def voidCodeLocked (account : Uuid) (newUuid : String → Uuid) :
    Except DatabaseError (Option ReferralVoidOutcome × ReferralDb) :=
  if !db.codes.any (·.live tenant code) then .ok (none, db)
  else do
    let referees := db.codeReferees tenant code
    let marked := (db.markCode tenant code).markReferees fun m => m.ofCode tenant code
    let (taken, db') ← writeVoidRows tenant account newUuid marked referees
    return (some ⟨some account, referees.length, taken⟩, db')

def voidReferralCode (newUuid : String → Uuid) :
    Except DatabaseError (Option ReferralVoidOutcome × ReferralDb) :=
  match db.findCode tenant code with
  | none => .ok (none, db)
  | some account => db.voidCodeLocked tenant code account newUuid

/-- The mirror says so, or a void row does. -/
def refereeVoided : Bool :=
  (db.referees.any fun m => m.isReferee tenant referee && m.voided) || db.hasVoid tenant referee

/-- The row a write stores: a reversal and a void are negative, a void has no base. -/
def rowOfWrite (id : Uuid) (w : ReferralBonusWrite) : ReferralBonusAccrual where
  tenantId := tenant
  bonusId := id
  accountId := w.accountId
  refereeRefHash := w.refereeRefHash
  kind := w.kind
  sourceAccrualId := w.sourceAccrualId
  bps := w.bps
  baseUnits := match w.kind with
    | .bonus => w.baseUnits
    | .reversal => -w.baseUnits
    | .void => 0
  bonusUnits := match w.kind with
    | .bonus => w.bonusUnits
    | .reversal | .void => -w.bonusUnits
  rateVersion := w.rateVersion
  instrumentId := w.instrumentId
  createdAt := db.now

/-- The loop of `insert_referral_bonus_rows`, `voided` as it was read before the first row. -/
def insertRows (tenant : String) (voided : String → Bool) :
    ReferralDb → List (Uuid × ReferralBonusWrite) → Except DatabaseError (Nat × ReferralDb)
  | db, [] => .ok (0, db)
  | db, (id, w) :: rest =>
    if w.kind ≠ .void ∧ voided w.refereeRefHash then insertRows tenant voided db rest
    else if 2 ^ 31 ≤ w.bps then .error (.query "referral_bps_invalid")
    else do
      let (n, db₁) ← db.insertRow (db.rowOfWrite tenant id w)
      let (m, db₂) ← insertRows tenant voided db₁ rest
      return (n + m, db₂)

/-- Each write with the `bonus_id` drawn for it. -/
def insertReferralBonusRows (rows : List (Uuid × ReferralBonusWrite)) :
    Except DatabaseError (Nat × ReferralDb) :=
  insertRows tenant (db.refereeVoided tenant) db rows

end ReferralDb

end TraceCommons.Referral
