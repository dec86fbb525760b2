import TraceCommons.Lib.ReadCommitted
import TraceCommons.Payout.Store

/-! # Legacy payout carries

A NEAR AI account's payout link is carried to the accounts of each legacy tenant it has linked:
each gets a `waiting` link to the same recipient and a row of `trace_legacy_payout_carries`. The
transactions that carry, release, link, revoke, delete, mark pooled and close, and those of the
payout pass that move a link, are written here statement by statement. -/

namespace TraceCommons.Legacy

open ReadCommitted Payout

/-! ## Tables -/

/-- A tenant of the `near-` and `nearai-` namespaces, or any other. A tenant id of these
namespaces that does not end in a hash has neither tenant links nor carries. -/
inductive Tenant
  | near (n : Nat)
  | other (n : Nat)
  deriving DecidableEq

def anchoredTenant : Tenant → Bool
  | .near _ => true
  | .other _ => false

def Tenant.key : Tenant → Nat
  | .near n => 2 * n
  | .other n => 2 * n + 1

/-- A row of `trace_accounts`. -/
structure Account where
  closed : Bool
  deriving DecidableEq

/-- A row of `trace_legacy_invite_links`: the account that linked the legacy tenant. -/
structure TenantLink where
  tenantId : Tenant
  accountId : Uuid
  legacyTenantId : Tenant
  revoked : Bool
  deriving DecidableEq

/-- The columns of a link that a carry copies. -/
structure Recipient where
  recipientKind : String
  sealedRecipient : String
  recipientIndex : String
  recipientKeyRef : String
  indexPepperRef : String
  subjectIndex : String
  recipientRef : Option String
  deriving DecidableEq

/-- A row of `trace_payout_links`. -/
structure Link where
  accountId : Uuid
  railId : String
  recipient : Recipient
  program : String
  state : PayoutLinkState
  unlinkRequested : Bool
  finalPaid : Option Nat
  createdAt : Time
  deriving DecidableEq

/-- Waiting, or active and not asked to unlink. -/
def Link.kept (l : Link) : Bool :=
  l.state = .waiting || (l.state = .active && !l.unlinkRequested)

variable {η : Type}

/-- A row of `trace_legacy_payout_carries`. -/
structure Carry (η : Type) where
  accountId : Uuid
  railId : String
  legacyLinkHash : η
  sourceLinkHash : η
  released : Bool
  deriving DecidableEq

inductive Key
  | account (t : Tenant) (a : Uuid)
  | tenantLink (id : Uuid)
  | pooled (t : Tenant)
  | link (t : Tenant) (id : Uuid)
  | carry (t : Tenant) (id : Uuid)
  deriving DecidableEq

abbrev Row (η : Type) : Key → Type
  | .account _ _ => Account
  | .tenantLink _ => TenantLink
  | .pooled _ => Unit
  | .link _ _ => Link
  | .carry _ _ => Carry η

/-- The advisory locks: `payout-link-confirm-v1:` and `trace_legacy_invite_link:`. -/
inductive LockName
  | confirm (t : Tenant) (a : Uuid) (rail : String)
  | tenantLink (t : Tenant)
  deriving DecidableEq

abbrev Tables (η : Type) : Type := AList (Row η)

abbrev Query (η τ : Type) : Type := Sql (Row η) LockName Unit τ

def tenantLock (t : Tenant) : Lock Key LockName := .advisory (.tenantLink t)

namespace Tables

variable (db : Tables η) (t : Tenant) (a : Uuid) (rail : String)

def accounts : List (Uuid × Account) :=
  db.entries.filterMap fun
    | ⟨.account t' a, r⟩ => if t' = t then some (a, r) else none
    | _ => none

def tenantLinks : List (Uuid × TenantLink) :=
  db.entries.filterMap fun
    | ⟨.tenantLink id, r⟩ => some (id, r)
    | _ => none

def links : List (Uuid × Link) :=
  db.entries.filterMap fun
    | ⟨.link t' id, r⟩ => if t' = t then some (id, r) else none
    | _ => none

def carries : List (Uuid × Carry η) :=
  db.entries.filterMap fun
    | ⟨.carry t' id, r⟩ => if t' = t then some (id, r) else none
    | _ => none

def accountOpen : Bool := (db.lookup (.account t a)).any fun r => !r.closed

def isPooled : Bool := (db.lookup (.pooled t)).isSome

def linkLive (id : Uuid) : Bool :=
  (db.lookup (.tenantLink id)).any fun r => !r.revoked

/-- A link of the account's own on the rail: never replaced. -/
def ownLink : Bool :=
  (db.links t).any fun (id, l) =>
    l.accountId = a && l.railId = rail && l.kept && (db.lookup (.carry t id)).isNone

/-- `trace_payout_links_one_waiting` refuses another waiting link. -/
def waitingTaken : Bool :=
  (db.links t).any fun (_, l) => l.accountId = a && l.railId = rail && l.state = .waiting

/-- `trace_payout_links_one_live` refuses another active or closing link. -/
def liveTaken : Bool :=
  (db.links t).any fun (_, l) => l.accountId = a && l.railId = rail && l.state.live

/-- `trace_legacy_payout_carries_one_live` refuses another carry of the source. -/
def carryTaken [DecidableEq η] (db : Tables η) (t : Tenant) (a : Uuid) (rail : String)
    (source : η) : Bool :=
  (db.carries t).any fun (_, c) =>
    c.accountId = a && c.railId = rail && c.sourceLinkHash = source && !c.released

end Tables

/-! ## Statements -/

section statements
variable (t : Tenant) (a id : Uuid)

def lockTenant : Query η Unit := Sql.lock [tenantLock t]

def read {τ : Type} (q : Tables η → τ) : Query η τ := Sql.query q

def lockAccount : Query η (Option Account) := Sql.lockRow (Key.account t a) .update

def putAccount (r : Account) : Query η Unit := Sql.put (.account t a) r

def insertAccount (r : Account) : Query η Unit := Sql.insert (.account t a) r [] fun _ => false

def lockTenantLink (m : Mode) : Query η (Option TenantLink) := Sql.lockRow (Key.tenantLink id) m

def putTenantLink (r : TenantLink) : Query η Unit := Sql.put (.tenantLink id) r

def insertPooled : Query η Unit := Sql.insert (.pooled t) () [] fun _ => false

def lockLink (m : Mode) : Query η (Option Link) := Sql.lockRow (Key.link t id) m

def putLink (l : Link) : Query η Unit := Sql.put (.link t id) l

def updateLink (f : Tables η → Link → Option Link) : Query η Bool := Sql.update (.link t id) f

def insertLink (l : Link) : Query η Unit :=
  Sql.insert (.link t id) l [] fun db => Tables.waitingTaken db t l.accountId l.railId

def lockCarry : Query η (Option (Carry η)) := Sql.lockRow (Key.carry t id) .update

def updateCarry (f : Carry η → Option (Carry η)) : Query η Bool :=
  Sql.update (.carry t id) fun _ => f

def insertCarry [DecidableEq η] (t : Tenant) (id : Uuid) (c : Carry η) : Query η Unit :=
  Sql.insert (.carry t id) c [] fun db =>
    Tables.carryTaken db t c.accountId c.railId c.sourceLinkHash

/-- The new row references the account. -/
def insertTenantLink (l : TenantLink) : Query η Unit :=
  Sql.insert (.tenantLink id) l [.row (.account l.tenantId l.accountId) .keyShare] fun db =>
    (db.lookup (.account l.tenantId l.accountId)).isNone ||
      (Tables.tenantLinks db).any fun (_, x) =>
        x.legacyTenantId = l.legacyTenantId && !x.revoked

end statements

/-! ## Releasing -/

section release

/-- `trace_legacy_payout_release_carry`: a waiting link closes at zero, an active one is asked to
unlink. -/
def releaseCarry (t : Tenant) (id : Uuid) : Query η Unit := do
  let found ← updateCarry t id fun c =>
    if c.released then none else some { c with released := true }
  if found then
    match ← lockLink t id .update with
    | none => pure ()
    | some l =>
      if l.state = .waiting then
        putLink t id { l with state := .closed, finalPaid := some 0 }
      else if l.state = .active && !l.unlinkRequested then
        putLink t id { l with unlinkRequested := true }
      else pure ()
  else pure ()

/-- The unreleased carries of a tenant, narrowed to a tenant link's or an account's. -/
def Tables.unreleased [DecidableEq η] (db : Tables η) (t : Tenant) (hash : Option η)
    (account : Option Uuid) : List Uuid :=
  ((db.carries t).filter fun (_, c) => !c.released && hash.all (· = c.legacyLinkHash) &&
    account.all (· = c.accountId)).map Prod.fst |>.insertionSort (· ≤ ·)

variable [DecidableEq η]

/-- `trace_legacy_payout_release_tenant_carries`. -/
def releaseTenantCarries (t : Tenant) (hash : Option η) (account : Option Uuid) :
    Query η Unit := do
  if anchoredTenant t then pure ()
  else
    lockTenant t
    let ids ← read fun db => db.unreleased t hash account
    Sql.forEach (releaseCarry t) ids

end release

/-! ## Carrying -/

/-- The two hashes that name a row of another tenant, and the attempt each tenant link id was made
for. -/
structure Ids (η : Type) where
  payoutLink : Uuid → η
  legacyLink : Uuid → η
  legacyLink_injective : Function.Injective legacyLink
  attempt : Uuid → TenantLink

/-- What a carry gets from elsewhere: the programs, the new link ids, the accounts a signed device
proved, whether the source has a live `near_ai_login` anchor, and the clock. -/
structure CarryCall where
  programs : Uuid → String
  newId : Tenant → String → Uuid → Uuid
  proven : Tenant → List Uuid
  login : Bool
  now : Time

structure LegacyCarryReport where
  carried : Nat
  released : Nat
  skipped : Nat
  deriving DecidableEq

/-- The newest live generation of the account's link: a waiting one before an active one. -/
def Tables.sourceLink (db : Tables η) (call : CarryCall) (t : Tenant) (a : Uuid)
    (rail : String) : Option (Uuid × Link) :=
  (((db.links t).filter fun (_, l) => l.accountId = a && l.railId = rail && l.kept &&
    !l.unlinkRequested && db.accountOpen t a && call.login).insertionSort fun x y =>
      (y.2.state ≠ .waiting || x.2.state = .waiting) &&
        ((x.2.state = .waiting && y.2.state ≠ .waiting) || y.2.createdAt ≤ x.2.createdAt)).head?

section carry

variable [DecidableEq η] (H : Ids η) (call : CarryCall) (t : Tenant) (a : Uuid) (rail : String)

/-- The account's unreleased carries under the tenant link, locked. -/
def liveCarries (hash : η) : Query η (List (Uuid × Carry η)) := do
  let found ← read fun db => (db.carries t).filter fun (id, c) =>
    c.accountId = a && c.railId = rail && c.legacyLinkHash = hash && !c.released &&
      (db.lookup (.link t id)).isSome
  Sql.collect (fun x => do
    let row ← lockCarry t x.1
    pure ((row.filter fun c => !c.released).map fun c => (x.1, c))) found

def addCarry (hash : η) (source : Uuid × Link) (rail : String) (a : Uuid) : Query η Unit := do
  let id := call.newId t rail a
  insertLink t id ⟨a, rail, source.2.recipient, call.programs id, .waiting, false, none, call.now⟩
  insertCarry t id ⟨a, rail, hash, H.payoutLink source.1, false⟩

/-- One account of `carry_tenant`. -/
def carryAccount (hash : η) (source : Option (Uuid × Link)) (rail : String) (pooled : Bool)
    (report : LegacyCarryReport) (row : Uuid × Account) : Query η LegacyCarryReport := do
  let live ← liveCarries t row.1 rail hash
  let released := { report with released := report.released + live.length }
  match source with
  | none =>
    Sql.forEach (releaseCarry t) (live.map Prod.fst)
    pure released
  | some source =>
    if pooled || row.2.closed || !(call.proven t).contains row.1 then
      Sql.forEach (releaseCarry t) (live.map Prod.fst)
      pure released
    else if live.any fun c => c.2.sourceLinkHash = H.payoutLink source.1 then pure report
    else if ← read fun db => db.ownLink t row.1 rail then
      pure { report with skipped := report.skipped + 1 }
    else
      -- An older generation is released outright.
      Sql.forEach (releaseCarry t) (live.map Prod.fst)
      addCarry H call t hash source rail row.1
      pure { released with carried := released.carried + 1 }

def carryTenant (hash : η) (source : Option (Uuid × Link)) (rail : String) (only : Option Uuid)
    (report : LegacyCarryReport) : Query η LegacyCarryReport := do
  let pooled ← read fun db => db.isPooled t
  let accounts ← read fun db =>
    ((db.accounts t).filter fun x => only.all (· = x.1)).insertionSort fun x y => x.1 ≤ y.1
  accounts.foldlM (carryAccount H call t hash source rail pooled) report

/-- One tenant link of `carry_in_tx`: its lock, then the link and the source read again. -/
def carryLink (source : Option (Uuid × Link)) (report : LegacyCarryReport) (x : Uuid × TenantLink) :
    Query η LegacyCarryReport := do
  if anchoredTenant x.2.legacyTenantId then pure report
  else
    lockTenant x.2.legacyTenantId
    let stillLive ← read fun db => db.linkLive x.1
    if stillLive then
      if ← read fun db => db.accountOpen t a then
        carryTenant H call x.2.legacyTenantId (H.legacyLink x.1) source rail none report
      else pure report
    else pure report

def carryInTx : Query η LegacyCarryReport := do
  if anchoredTenant t then
    let source ← read fun db => db.sourceLink call t a rail
    let tenantLinks ← read fun db =>
      (db.tenantLinks.filter fun (_, l) => l.tenantId = t && l.accountId = a && !l.revoked)
        |>.insertionSort fun x y => x.2.legacyTenantId.key ≤ y.2.legacyTenantId.key
    tenantLinks.foldlM (carryLink H call t a rail source) ⟨0, 0, 0⟩
  else pure ⟨0, 0, 0⟩

/-- The open account the legacy tenant is linked to (`trace_legacy_payout_source_account`). -/
def Tables.sourceAccount (db : Tables η) (legacy : Tenant) : Option (Tenant × Uuid) :=
  ((db.tenantLinks.find? fun (_, l) => l.legacyTenantId = legacy && !l.revoked).map
    fun (_, l) => (l.tenantId, l.accountId)).filter fun s => db.accountOpen s.1 s.2

/-- One rail of `carry_opened_account_in_tx`. -/
def carryRail (legacy : Tenant) (account : Uuid) (opened : Bool) (hash : η)
    (report : LegacyCarryReport) (x : (String × CarryCall) × Option (Uuid × Link)) :
    Query η LegacyCarryReport := do
  let uncarried ← read fun db =>
    !((db.carries legacy).any fun (_, c) => c.legacyLinkHash = hash && c.railId = x.1.1)
  let repair := uncarried && x.2.isSome
  if !opened && !repair then pure report
  else carryTenant H x.1.2 legacy hash x.2 x.1.1 (if repair then none else some account) report

def carryOpenedAccountInTx (legacy : Tenant) (account : Uuid) (opened : Bool)
    (rails : List (String × CarryCall)) : Query η LegacyCarryReport := do
  if rails.isEmpty || anchoredTenant legacy then pure ⟨0, 0, 0⟩
  else
    -- A returning sign-in only repairs a rail with no carry in the tenant.
    let anyUncarried ← read fun db => rails.any fun r =>
      !((db.carries legacy).any fun (_, c) => c.railId = r.1)
    if !opened && !anyUncarried then pure ⟨0, 0, 0⟩
    else
      match ← read fun db => db.sourceAccount legacy with
      | none => pure ⟨0, 0, 0⟩
      | some (tenant, source) =>
        let rails := rails.insertionSort fun x y => x.1 ≤ y.1
        Sql.forEach (fun r => Sql.lock [.advisory (.confirm tenant source r.1)]) rails
        lockTenant legacy
        let link ← read fun db => db.tenantLinks.find? fun (_, l) =>
          l.tenantId = tenant && l.accountId = source && l.legacyTenantId = legacy && !l.revoked
        match link with
        | none => pure ⟨0, 0, 0⟩
        | some (link, _) =>
          if ← read fun db => db.accountOpen tenant source then
            let sources ← Sql.collect (fun r => do
              let s ← read fun db => db.sourceLink r.2 tenant source r.1
              pure (some s)) rails
            (rails.zip sources).foldlM (carryRail H legacy account opened (H.legacyLink link))
              ⟨0, 0, 0⟩
          else pure ⟨0, 0, 0⟩

end carry

/-! ## The transactions -/

/-- Which transaction a session runs. -/
inductive Command (η : Type)
  /-- A confirm that links: the waiting link, then the carry if carries are configured. -/
  | confirmLink (t : Tenant) (a : Uuid) (rail : String) (id : Uuid) (l : Link)
      (call : Option CarryCall)
  | confirmUnlink (t : Tenant) (a : Uuid) (rail : String) (call : Option CarryCall)
  | carryLegacyPayoutLinks (t : Tenant) (a : Uuid) (rail : String) (call : CarryCall)
  /-- A sign-in in a legacy tenant that opens an account, or reuses one. -/
  | openAccount (t : Tenant) (a : Uuid) (opened : Bool) (rails : List (String × CarryCall))
  | linkLegacyTenant (id : Uuid)
  | revokeTenantLink (id : Uuid)
  | deleteTenantLink (id : Uuid)
  | markPooled (t : Tenant)
  | mergeClose (t : Tenant) (a : Uuid)
  | transitionPayoutLink (t : Tenant) (id : Uuid) (old new : PayoutLinkState)
  | closePayoutLinkStreams (t : Tenant) (id : Uuid) (paid : Nat) (successor : Option Uuid)
  | markPayoutLinkUnlinkRequested (t : Tenant) (id : Uuid)

section commands

variable [DecidableEq η] (H : Ids η) (t : Tenant) (a : Uuid) (rail : String) (id : Uuid)

def confirmLock : Lock Key LockName := .advisory (.confirm t a rail)

/-- The confirm's carry, in its own transaction. -/
def confirmCarry : Option CarryCall → Query η Unit
  | none => pure ()
  | some call => do
    let _ ← carryInTx H call t a rail
    pure ()

/-- A source's confirm: its account is one of the NEAR AI namespaces. -/
def confirmLink (l : Link) (call : Option CarryCall) : Query η Unit := do
  if anchoredTenant t then
    Sql.lock [confirmLock t a rail]
    insertLink t id { l with accountId := a, railId := rail, state := .waiting }
    confirmCarry H t a rail call
  else Sql.fail

def confirmUnlink (call : Option CarryCall) : Query η Unit := do
  if anchoredTenant t then
    Sql.lock [confirmLock t a rail]
    let active ← read fun db => (db.links t).find? fun (_, l) =>
      l.accountId = a && l.railId = rail && l.state = .active && !l.unlinkRequested
    match active with
    | none => pure ()
    | some (id, _) =>
      let marked ← updateLink t id fun _ l =>
        if l.state = .active && !l.unlinkRequested then some { l with unlinkRequested := true }
        else none
      if marked then confirmCarry H t a rail call else pure ()
  else Sql.fail

def carryLegacyPayoutLinks (call : CarryCall) : Query η Unit := do
  Sql.lock [confirmLock t a rail]
  let _ ← carryInTx H call t a rail
  pure ()

/-- `create_or_reuse_account_carrying`. A carry that fails is rolled back to its savepoint, which
leaves the account alone: the same call with no rails. -/
def openAccount (opened : Bool) (rails : List (String × CarryCall)) : Query η Unit := do
  if opened then insertAccount t a ⟨false⟩ else pure ()
  let _ ← carryOpenedAccountInTx H t a opened rails
  pure ()

/-- `trace_link_legacy_invite`, and its sibling for instance devices. -/
def linkLegacyTenant : Query η Unit := do
  let l := H.attempt id
  let eligible ← read fun db => db.accountOpen l.tenantId l.accountId
  if anchoredTenant l.tenantId && !anchoredTenant l.legacyTenantId && eligible then
    if ← read fun db => db.isPooled l.legacyTenantId then pure ()
    else
      lockTenant l.legacyTenantId
      let existing ← read fun db => db.tenantLinks.any fun (_, x) =>
        x.legacyTenantId = l.legacyTenantId && !x.revoked
      if existing then pure ()
      else insertTenantLink id { l with revoked := false }
  else pure ()

/-- A revocation, with its trigger `trace_legacy_invite_links_release_carries`. -/
def revokeTenantLink : Query η Unit := do
  match ← lockTenantLink id .noKeyUpdate with
  | none => pure ()
  | some l =>
    putTenantLink id { l with revoked := true }
    if l.revoked then pure ()
    else
      lockTenant l.legacyTenantId
      let ids ← read fun db =>
        db.unreleased l.legacyTenantId (some (H.legacyLink id)) none
      Sql.forEach (releaseCarry l.legacyTenantId) ids

/-- A deletion, with its trigger. -/
def deleteTenantLink : Query η Unit := do
  match ← lockTenantLink id .update with
  | none => pure ()
  | some l =>
    Sql.delete (.tenantLink id)
    if l.revoked then pure ()
    else releaseTenantCarries l.legacyTenantId (some (H.legacyLink id)) none

/-- A pooled mark, with its trigger. -/
def markPooled : Query η Unit := do
  insertPooled t
  releaseTenantCarries t none none

/-- `trace_legacy_account_close_releases_carries`. -/
def closeReleasesCarries : Query η Unit := do
  if anchoredTenant t then
    let links ← read fun db =>
      (db.tenantLinks.filter fun (_, l) => l.tenantId = t && l.accountId = a && !l.revoked)
        |>.insertionSort fun x y => x.2.legacyTenantId.key ≤ y.2.legacyTenantId.key
    Sql.forEach (fun x => releaseTenantCarries x.2.legacyTenantId (some (H.legacyLink x.1)) none)
      links
  else
    let carried ← read fun db =>
      (db.carries t).any fun (_, c) => c.accountId = a && !c.released
    if carried then releaseTenantCarries t none (some a) else pure ()

/-- The part of `execute_merge` that closes the absorbed account: the tenant-link locks first, then
the account's row, then the close and its trigger. -/
def mergeClose : Query η Unit := do
  if anchoredTenant t then
    let tenants ← read fun db =>
      ((db.tenantLinks.filter fun (_, l) => l.tenantId = t && l.accountId = a && !l.revoked).map
        fun x => x.2.legacyTenantId).dedup.insertionSort fun x y => x.key ≤ y.key
    Sql.forEach lockTenant tenants
  else lockTenant t
  match ← lockAccount t a with
  | none => Sql.fail
  | some r =>
    if r.closed then Sql.fail
    else
      putAccount t a { r with closed := true }
      closeReleasesCarries H t a

/-- The moves a transition of the pass makes. -/
def fitsLinkTransition : PayoutLinkState → PayoutLinkState → Bool
  | .waiting, .active | .active, .closing => true
  | _, _ => false

def transitionPayoutLink (old new : PayoutLinkState) : Query η Unit := do
  if fitsLinkTransition old new then
    let moved ← updateLink t id fun db l =>
      if l.state = old && !(new = .active && db.liveTaken t l.accountId l.railId) then
        some { l with state := new }
      else none
    if moved then pure () else Sql.fail
  else Sql.fail

def closePayoutLinkStreams (paid : Nat) (successor : Option Uuid) : Query η Unit := do
  match ← lockLink t id .noKeyUpdate with
  | none => Sql.fail
  | some l =>
    if l.state = .closing then
      putLink t id { l with state := .closed, finalPaid := some paid }
      match successor with
      | none => pure ()
      | some next =>
        let activated ← updateLink t next fun db x =>
          if x.state = .waiting && x.accountId = l.accountId && x.railId = l.railId &&
              !db.liveTaken t x.accountId x.railId then some { x with state := .active }
          else none
        if activated then pure () else Sql.fail
    else Sql.fail

def markPayoutLinkUnlinkRequested : Query η Unit := do
  let _ ← updateLink t id fun _ l =>
    if l.state = .active && !l.unlinkRequested then some { l with unlinkRequested := true }
    else none
  pure ()

def Command.query : Command η → Query η Unit
  | .confirmLink t a rail id l call => Legacy.confirmLink H t a rail id l call
  | .confirmUnlink t a rail call => Legacy.confirmUnlink H t a rail call
  | .carryLegacyPayoutLinks t a rail call => Legacy.carryLegacyPayoutLinks H t a rail call
  | .openAccount t a opened rails => Legacy.openAccount H t a opened rails
  | .linkLegacyTenant id => Legacy.linkLegacyTenant H id
  | .revokeTenantLink id => Legacy.revokeTenantLink H id
  | .deleteTenantLink id => Legacy.deleteTenantLink H id
  | .markPooled t => Legacy.markPooled t
  | .mergeClose t a => Legacy.mergeClose H t a
  | .transitionPayoutLink t id old new => Legacy.transitionPayoutLink t id old new
  | .closePayoutLinkStreams t id paid successor => Legacy.closePayoutLinkStreams t id paid successor
  | .markPayoutLinkUnlinkRequested t id => Legacy.markPayoutLinkUnlinkRequested t id

def Command.tx (c : Command η) : Tx (Row η) LockName Unit := (c.query H).tx

end commands

end TraceCommons.Legacy
