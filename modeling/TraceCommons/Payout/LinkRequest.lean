import TraceCommons.Payout.Store

/-! # Link and unlink requests

A contributor's request is written by a start and taken by its confirm, one transaction under the
account's lock. The version a request is checked against is not stored: it counts the account's
links on the rail and their unlink marks. -/

namespace TraceCommons.Payout

inductive PayoutLinkRequestInsert
  | inserted | replayed | idempotencyConflict
  deriving DecidableEq

/-- What a confirm writes beside the request it takes. -/
structure PayoutLinkConfirmWrite where
  linkId : Uuid
  program : String
  deriving DecidableEq

inductive PayoutLinkConfirm
  | notFound
  | expired
  | versionConflict
  | changePending
  | noLoginAnchor
  | notLinked
  | confirmed (action : PayoutLinkAction) (version : Nat)
  deriving DecidableEq

namespace PayoutLinkRequest

def ofAccount (tenant : String) (account : Uuid) (r : PayoutLinkRequest) : Bool :=
  r.tenantId = tenant ∧ r.accountId = account

def isRequest (tenant : String) (account : Uuid) (handle : String) (r : PayoutLinkRequest) :
    Bool :=
  r.ofAccount tenant account ∧ r.handleHash = handle

end PayoutLinkRequest

namespace Db

variable (db : Db) (tenant : String) (account : Uuid) (handle : String) (r : PayoutLinkRequest)
  (w : PayoutLinkConfirmWrite)

def accountLinks : List PayoutLink := db.links.filter (·.ofAccount tenant account)

/-- `account_link_version`: links ever written plus unlinks confirmed. -/
def accountLinkVersion : Nat :=
  (db.accountLinks tenant account).length +
    ((db.accountLinks tenant account).filter (·.unlinkRequested)).length

/-- The columns a start writes; the database stamps `created_at`. -/
def insertPayoutLinkRequest : Except DatabaseError (PayoutLinkRequestInsert × Db) :=
  match db.requests.find? fun q =>
      q.ofAccount r.tenantId r.accountId && q.idempotencyKey = r.idempotencyKey with
  | some prior =>
    if prior.requestDigest = r.requestDigest then .ok (.replayed, db)
    else .ok (.idempotencyConflict, db)
  | none =>
    -- The handle is unique in the tenant, an expiry lies ahead, a version is positive.
    if db.requests.any (fun q => q.tenantId = r.tenantId && q.handleHash = r.handleHash) ∨
        r.expiresAt ≤ db.now ∨ r.expectedCurrentVersion = some 0 then .error .postgres
    else .ok (.inserted, { db with requests := db.requests ++ [{ r with createdAt := db.now }] })

def takePayoutLinkRequest : Option PayoutLinkRequest × Db :=
  (db.requests.find? (·.isRequest tenant account handle),
    { db with requests := db.requests.filter (!·.isRequest tenant account handle) })

def purgeExpiredPayoutLinkRequests : Db :=
  { db with requests := db.requests.filter fun r => !(r.tenantId = tenant && r.expiresAt ≤ db.now) }

/-- Another request of the account, created later and not expired, is waiting. -/
def superseded : Bool :=
  db.requests.any fun q => q.ofAccount r.tenantId r.accountId &&
    r.createdAt < q.createdAt && db.now < q.expiresAt

def hasWaiting : Bool := db.links.any fun l => l.ofAccount tenant account && l.state = .waiting

/-- The anchor a link request was proved by is still one of the account's live logins. -/
def anchored : Bool := r.provingAnchorHash.any fun a => ⟨r.tenantId, r.accountId, a⟩ ∈ db.anchors

def newLink (recipient : String) : PayoutLink where
  tenantId := r.tenantId
  accountId := r.accountId
  linkId := w.linkId
  recipient := recipient
  program := w.program
  state := .waiting
  finalPaid := none
  referralProgram := none
  finalPaidReferral := none
  unlinkRequested := false
  recipientUnavailable := false

def confirmLink : Except DatabaseError (PayoutLinkConfirm × Db) :=
  if db.hasWaiting r.tenantId r.accountId then .ok (.changePending, db)
  else if !db.anchored r then .ok (.noLoginAnchor, db)
  else match r.recipient with
    | none => .error (.query "payout_link_request_shape")
    | some recipient =>
      if db.links.any (·.isLink r.tenantId w.linkId) then .error .postgres
      else
        let db' := { db with links := db.links ++ [newLink r w recipient] }
        .ok (.confirmed .link (db'.accountLinkVersion r.tenantId r.accountId), db')

def confirmUnlink : PayoutLinkConfirm × Db :=
  match db.links.find? fun l =>
      l.ofAccount r.tenantId r.accountId && l.state = .active && !l.unlinkRequested with
  | none =>
    let marked := db.links.any fun l =>
      l.ofAccount r.tenantId r.accountId && l.state = .active && l.unlinkRequested
    (if db.hasWaiting r.tenantId r.accountId || marked then .changePending else .notLinked, db)
  | some l =>
    let db' := db.updateLink r.tenantId l.linkId fun l => { l with unlinkRequested := true }
    (.confirmed .unlink (db'.accountLinkVersion r.tenantId r.accountId), db')

/-- What a confirm does with the request it has taken out of the table. -/
def confirmTaken : Except DatabaseError (PayoutLinkConfirm × Db) :=
  if r.expiresAt ≤ db.now then .ok (.expired, db)
  else if db.superseded r then .ok (.notFound, db)
  else if r.expectedCurrentVersion.getD 0 ≠ db.accountLinkVersion r.tenantId r.accountId then
    .ok (.versionConflict, db)
  else match r.action with
    | .link => db.confirmLink r w
    | .unlink => .ok (db.confirmUnlink r)

/-- `confirm_payout_link_request`, up to the carries it sets off. -/
def confirmPayoutLinkRequest : Except DatabaseError (PayoutLinkConfirm × Db) :=
  match db.takePayoutLinkRequest tenant account handle with
  | (none, _) => .ok (.notFound, db)
  | (some r, db') => db'.confirmTaken r w

end Db

end TraceCommons.Payout
