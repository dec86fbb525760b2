import TraceCommons.Payout.PayoutRuns

/-! # The link request protocol

An account's link version is counted from its links, so every transaction that writes a link or an
unlink mark moves it, and none moves it back. A confirm that changes a link does so at the version
its request was issued against and moves the version on by one. -/

namespace TraceCommons.Payout

open Conc List

/-! ## The version counts forward -/

/-- What a link counts for in the version of an account. -/
def PayoutLink.weight (t : String) (a : Uuid) (l : PayoutLink) : Nat :=
  if l.ofAccount t a then 1 + if l.unlinkRequested then 1 else 0 else 0

theorem PayoutLink.weight_mono {t : String} {a : Uuid} {l l' : PayoutLink}
    (hsame : l'.ofAccount t a = l.ofAccount t a)
    (hmark : l.unlinkRequested = true → l'.unlinkRequested = true) :
    l.weight t a ≤ l'.weight t a := by
  unfold weight
  rw [hsame]
  split
  · cases hl : l.unlinkRequested with
    | false => simp
    | true => simp [hmark hl]
  · exact le_rfl

/-- No account's version goes back, neither does the clock, and no request is new. -/
structure Db.Later (db db' : Db) : Prop where
  version : ∀ t a, db.accountLinkVersion t a ≤ db'.accountLinkVersion t a
  now : db.now ≤ db'.now
  requests : ∀ r ∈ db'.requests, r ∈ db.requests

namespace Db

variable {db db' db'' : Db} {t : String} {a : Uuid}

theorem accountLinkVersion_eq :
    db.accountLinkVersion t a = (db.links.map (·.weight t a)).sum := by
  unfold accountLinkVersion accountLinks
  induction db.links with
  | nil => rfl
  | cons l links ih =>
    rw [map_cons, sum_cons, ← ih, filter_cons]
    by_cases hl : l.ofAccount t a = true
    · rw [if_pos hl, PayoutLink.weight, if_pos hl, filter_cons, length_cons]
      cases hu : l.unlinkRequested with
      | false =>
        rw [if_neg Bool.false_ne_true, if_neg Bool.false_ne_true]
        omega
      | true =>
        rw [if_pos rfl, if_pos rfl, length_cons]
        omega
    · rw [if_neg hl, PayoutLink.weight, if_neg hl, zero_add]

theorem Later.of_links (hlinks : db'.links = db.links) (hnow : db.now ≤ db'.now)
    (hreq : ∀ r ∈ db'.requests, r ∈ db.requests) : Later db db' where
  version t a := by rw [accountLinkVersion_eq, accountLinkVersion_eq, hlinks]
  now := hnow
  requests := hreq

theorem Later.refl : Later db db := .of_links rfl le_rfl fun _ h => h

theorem Later.trans (h : Later db db') (h' : Later db' db'') : Later db db'' where
  version t a := (h.version t a).trans (h'.version t a)
  now := h.now.trans h'.now
  requests r hr := h.requests r (h'.requests r hr)

theorem Later.map {f : PayoutLink → PayoutLink} (hlinks : db'.links = db.links.map f)
    (hnow : db.now ≤ db'.now) (hreq : ∀ r ∈ db'.requests, r ∈ db.requests)
    (hf : ∀ l : PayoutLink, (f l).tenantId = l.tenantId ∧ (f l).accountId = l.accountId ∧
      (l.unlinkRequested = true → (f l).unlinkRequested = true)) : Later db db' where
  version t a := by
    rw [accountLinkVersion_eq, accountLinkVersion_eq, hlinks, map_map]
    refine sum_le_sum fun l _ => ?_
    obtain ⟨ht, ha, hu⟩ := hf l
    exact PayoutLink.weight_mono (by simp [PayoutLink.ofAccount, ht, ha]) hu
  now := hnow
  requests := hreq

theorem Later.updateLink {id : Uuid} {f : PayoutLink → PayoutLink}
    (hf : ∀ l : PayoutLink, (f l).tenantId = l.tenantId ∧ (f l).accountId = l.accountId ∧
      (l.unlinkRequested = true → (f l).unlinkRequested = true)) :
    Later db (db.updateLink t id f) := by
  refine .map rfl le_rfl (fun _ h => h) fun l => ?_
  split
  · exact hf l
  · exact ⟨rfl, rfl, fun h => h⟩

theorem Later.append {l : PayoutLink} : Later db { db with links := db.links ++ [l] } where
  version t a := by
    rw [accountLinkVersion_eq, accountLinkVersion_eq, map_append, sum_append]
    exact Nat.le_add_right _ _
  now := le_rfl
  requests _ h := h

theorem releaseCarry_later (id : Uuid) : Later db (db.releaseCarry t id) := by
  unfold releaseCarry
  split
  · exact .updateLink fun _ => ⟨rfl, rfl, fun h => h⟩
  split
  · exact .updateLink fun _ => ⟨rfl, rfl, fun _ => rfl⟩
  · exact .refl

theorem releaseCarries_later (ids : List Uuid) :
    Later db (ids.foldl (·.releaseCarry t ·) db) := by
  induction ids generalizing db with
  | nil => exact .refl
  | cons id ids ih => exact (releaseCarry_later id).trans ih

theorem transitionPayoutLink_later {id : Uuid} {src dst : PayoutLinkState}
    {action : PayoutAuditAction} {r : PayoutLinkTransition}
    (e : db.transitionPayoutLink t id src dst action = .ok (r, db')) : Later db db' := by
  rcases transitionPayoutLink_cases e with rfl | ⟨l, -, -, -, rfl⟩
  · exact .refl
  · exact .updateLink fun _ => ⟨rfl, rfl, fun h => h⟩

theorem closePayoutLinkStreams_later {id : Uuid} {paid : Nat} {referral : Option Nat}
    {next : Option Uuid} {r : PayoutLinkClose}
    (e : db.closePayoutLinkStreams t id paid referral next = .ok (r, db')) : Later db db' := by
  have hclosed : Later db (db.updateLink t id fun l =>
      { l with state := .closed, finalPaid := some paid, finalPaidReferral := referral }) :=
    .updateLink fun _ => ⟨rfl, rfl, fun h => h⟩
  unfold closePayoutLinkStreams at e
  split at e
  · cases e; exact .refl
  split at e
  · cases e; exact .refl
  split at e
  · cases e; exact .refl
  dsimp only at e
  split at e
  · cases e; exact hclosed
  split at e
  · cases e; exact .refl
  split at e
  · cases e; exact .refl
  split at e <;> cases e
  exact hclosed.trans (.updateLink fun _ => ⟨rfl, rfl, fun h => h⟩)

theorem insertLine_later {w : PayoutLineWrite} {r : PendingPayoutLineInsert}
    (e : db.insertLine t w = .ok (r, db')) : Later db db' := by
  rcases insertLine_cases e with ⟨-, rfl⟩ | ⟨-, rfl, -⟩
  · exact .refl
  · exact .of_links rfl le_rfl fun _ h => h

theorem insertReferralLine_later {w : PayoutLineWrite} {q : String} {r : PendingPayoutLineInsert}
    (e : db.insertReferralLine t w q = .ok (r, db')) : Later db db' := by
  rcases insertReferralLine_cases e with ⟨-, rfl⟩ | ⟨-, l, _, -, -, -, hins⟩
  · exact .refl
  · refine Later.trans ?_ (insertLine_later hins)
    exact .updateLink fun _ => ⟨rfl, rfl, fun h => h⟩

theorem insertPendingPayoutLine_later {w : PayoutLineWrite} {r : PendingPayoutLineInsert}
    (e : db.insertPendingPayoutLine t w = .ok (r, db')) : Later db db' := by
  unfold insertPendingPayoutLine at e
  split at e
  · exact insertLine_later e
  · exact insertReferralLine_later e
  · cases e

theorem resolvePayoutLine_later (id : Uuid) (r : PayoutLineResolution) :
    Later db (db.resolvePayoutLine t id r).2 := by
  unfold resolvePayoutLine
  split
  · exact .refl
  split
  · exact .refl
  · exact .of_links rfl le_rfl fun _ h => h

theorem markPayoutLinkRecipientUnavailable_later (id : Uuid) :
    Later db (db.markPayoutLinkRecipientUnavailable t id).2 := by
  unfold markPayoutLinkRecipientUnavailable
  split
  · exact .updateLink fun _ => ⟨rfl, rfl, fun h => h⟩
  · exact .refl

theorem rebind_later : Later db (db.rebind t a) := by
  refine .map rfl le_rfl (fun r hr => (mem_filter.1 hr).1) fun l => ?_
  split
  · exact ⟨rfl, rfl, fun _ => rfl⟩
  · exact ⟨rfl, rfl, fun h => h⟩

theorem confirmTaken_later {r : PayoutLinkRequest} {w : PayoutLinkConfirmWrite}
    {res : PayoutLinkConfirm} (e : db.confirmTaken r w = .ok (res, db')) : Later db db' := by
  rcases confirmTaken_cases e with rfl | ⟨-, ⟨-, _, rfl⟩ | rfl⟩
  · exact .refl
  · exact .append
  · unfold confirmUnlink
    split
    · exact .refl
    · exact .updateLink fun _ => ⟨rfl, rfl, fun _ => rfl⟩

theorem takePayoutLinkRequest_later (handle : String) :
    Later db (db.takePayoutLinkRequest t a handle).2 :=
  .of_links rfl le_rfl fun _ hr => (mem_filter.1 hr).1

theorem confirmPayoutLinkRequest_later {handle : String} {w : PayoutLinkConfirmWrite}
    {res : PayoutLinkConfirm} (e : db.confirmPayoutLinkRequest t a handle w = .ok (res, db')) :
    Later db db' := by
  unfold confirmPayoutLinkRequest at e
  split at e
  · cases e; exact .refl
  rename_i db1 htake
  have htaken : Later db db1 := by
    rw [← (Prod.mk.inj htake).2]
    exact takePayoutLinkRequest_later _
  exact htaken.trans (confirmTaken_later e)

end Db

theorem StoreOp.run_later {o : StoreOp} {db db' : Db} {a : o.Result}
    (e : o.run db = .ok (a, db')) : Db.Later db db' := by
  cases ho : o.writesBooks with
  | false =>
    obtain ⟨hlinks, -, hnow, hreq⟩ := run_books ho e
    exact .of_links hlinks hnow.ge fun r hr => hreq ▸ hr
  | true =>
    cases o with
    | transitionPayoutLink => exact Db.transitionPayoutLink_later e
    | closePayoutLinkStreams => exact Db.closePayoutLinkStreams_later e
    | insertPendingPayoutLine => exact Db.insertPendingPayoutLine_later e
    | markPayoutLinkRecipientUnavailable t id =>
      rw [show db' = (db.markPayoutLinkRecipientUnavailable t id).2 by rw [Except.ok.inj e]]
      exact Db.markPayoutLinkRecipientUnavailable_later id
    | resolvePayoutLine t id r =>
      rw [show db' = (db.resolvePayoutLine t id r).2 by rw [Except.ok.inj e]]
      exact Db.resolvePayoutLine_later id r
    | _ => cases ho

namespace PayState

variable {rail : Rail} {s s' : PayState}

/-- The calls of a pass move no version back. -/
theorem exec_later {c : Choice} {o : PassOp} {r : o.Reply}
    (e : s.exec rail c o = some (r, s')) : Db.Later s.db s'.db := by
  cases o with
  | store o =>
    rcases reply_cases (Option.some.inj e) with ⟨-, rfl⟩ | ⟨a, db, hrun, rfl, -⟩
    · exact .refl
    · exact StoreOp.run_later hrun
  | rail credential o =>
    have e' : s.railReply c (o.run rail s.ledger) = (r, s') := Option.some.inj e
    unfold railReply at e'
    split at e' <;> obtain ⟨-, rfl⟩ := Prod.mk.inj e' <;> exact .refl
  | newUuid =>
    simp only [exec] at e
    split at e
    · obtain ⟨-, rfl⟩ := Prod.mk.inj (Option.some.inj e)
      exact .refl
    · cases e
  | releaseUnprovenLegacyCarries t =>
    rcases reply_cases (Option.some.inj e) with ⟨-, rfl⟩ | ⟨_, db, hrun, rfl, -⟩
    · exact .refl
    · obtain ⟨-, rfl⟩ := Prod.mk.inj (Except.ok.inj hrun)
      exact Db.releaseCarries_later _
  | accrueRail t =>
    have e' : s.accrue rail.descriptor c t = (r, s') := Option.some.inj e
    simp only [accrue] at e'
    split at e' <;> obtain ⟨-, rfl⟩ := Prod.mk.inj e' <;>
      exact .of_links rfl le_rfl fun _ h => h
  | referralBonus t =>
    obtain ⟨-, rfl⟩ := Prod.mk.inj (Option.some.inj e)
    exact .of_links rfl le_rfl fun _ h => h
  | preflight | tryAcquirePayoutPassLock | releasePayoutPassLock =>
    obtain ⟨-, rfl⟩ := Prod.mk.inj (Option.some.inj e)
    exact .refl

/-- Of the others, only a new request adds a request. -/
theorem move_later {m : Move} (e : s.move rail m = some s') (hm : ∀ r, m ≠ .request r) :
    Db.Later s.db s'.db := by
  cases m with
  | idle => cases e; exact .refl
  | accruals | bonuses | holds | standing | anchors =>
    cases e; exact .of_links rfl le_rfl fun _ h => h
  | control b b' => cases e; exact .of_links rfl le_rfl fun _ h => h
  | tick t =>
    simp only [move] at e
    split at e
    next hle => cases e; exact .of_links rfl hle fun _ h => h
    next => cases e
  | request r => exact absurd rfl (hm r)
  | take t a handle => cases e; exact Db.takePayoutLinkRequest_later _
  | purge t => cases e; exact .of_links rfl le_rfl fun _ hr => (mem_filter.1 hr).1
  | confirm t a handle id =>
    simp only [move] at e
    split at e
    · obtain ⟨r, db, hr, rfl⟩ := commit_eq_some e
      exact Db.confirmPayoutLinkRequest_later hr
    · cases e
  | rebind t a => cases e; exact Db.rebind_later
  | release t id =>
    obtain ⟨r, db, hr, rfl⟩ := commit_eq_some e
    exact Db.transitionPayoutLink_later hr
  | carry t a id recipient =>
    simp only [move] at e
    split at e
    · cases e; exact .append
    · cases e
  | releaseCarry t id => cases e; exact Db.releaseCarry_later id

/-- A new request changes no link, and the row it may add has its account and handle. -/
theorem request_eq_some {r : PayoutLinkRequest} (e : s.move rail (.request r) = some s') :
    s'.db.links = s.db.links ∧ s'.db.now = s.db.now ∧
      ∀ q ∈ s'.db.requests, q ∈ s.db.requests ∨ q = { r with createdAt := s.db.now } := by
  obtain ⟨a, db, hr, rfl⟩ := commit_eq_some e
  unfold Db.insertPayoutLinkRequest at hr
  split at hr
  · split at hr <;> cases hr <;> exact ⟨rfl, rfl, fun q hq => .inl hq⟩
  · split at hr <;> cases hr
    exact ⟨rfl, rfl, fun q hq => by simpa using hq⟩

/-- Whatever the others do, no version and no clock goes back. -/
theorem move_onward {m : Move} (e : s.move rail m = some s') :
    (∀ t a, s.db.accountLinkVersion t a ≤ s'.db.accountLinkVersion t a) ∧ s.db.now ≤ s'.db.now := by
  by_cases hm : ∃ r, m = .request r
  · obtain ⟨r, rfl⟩ := hm
    obtain ⟨hlinks, hnow, -⟩ := request_eq_some e
    refine ⟨fun t a => ?_, hnow.ge⟩
    rw [Db.accountLinkVersion_eq, Db.accountLinkVersion_eq, hlinks]
  · have hl := move_later e fun r hr => hm ⟨r, hr⟩
    exact ⟨hl.version, hl.now⟩

/-- A request that is not there comes only with a request of its account and handle. -/
theorem move_absent {m : Move} {t : String} {a : Uuid} {handle : String}
    (e : s.move rail m = some s') (hm : ∀ r, m = .request r → ¬ r.isRequest t a handle)
    (hs : ∀ q ∈ s.db.requests, ¬ q.isRequest t a handle) :
    ∀ q ∈ s'.db.requests, ¬ q.isRequest t a handle := by
  intro q hq
  by_cases hr : ∃ r, m = .request r
  · obtain ⟨r, rfl⟩ := hr
    rcases (request_eq_some e).2.2 q hq with hq | rfl
    · exact hs q hq
    · exact hm r rfl
  · exact hs q ((move_later e fun r h => hr ⟨r, h⟩).requests q hq)

end PayState

/-! ## A confirm that changes a link -/

/-- Updating the one row of a link changes a sum over the links by that row. -/
theorem sum_updateLink {links : List PayoutLink} (hids : (links.map (·.linkId)).Nodup)
    {l : PayoutLink} (hl : l ∈ links) (f : PayoutLink → PayoutLink) (g : PayoutLink → Nat) :
    ((links.map fun x => if x.isLink l.tenantId l.linkId then f x else x).map g).sum + g l =
      (links.map g).sum + g (f l) := by
  induction links with
  | nil => cases hl
  | cons x links ih =>
    obtain ⟨hx, hids⟩ := nodup_cons.1 hids
    simp only [map_cons, sum_cons]
    rcases mem_cons.1 hl with rfl | hl
    · have hrest : ∀ y ∈ links, (if y.isLink l.tenantId l.linkId then f y else y) = y := by
        intro y hy
        exact if_neg fun hlink => hx (mem_map.2 ⟨y, hy, (PayoutLink.isLink_iff.1 hlink).2⟩)
      rw [map_congr_left hrest, map_id'' fun _ => rfl, if_pos (PayoutLink.isLink_iff.2 ⟨rfl, rfl⟩)]
      omega
    · have hne : ¬ x.isLink l.tenantId l.linkId = true := fun hlink =>
        hx (mem_map.2 ⟨l, hl, (PayoutLink.isLink_iff.1 hlink).2.symm⟩)
      have := ih hids hl
      rw [if_neg hne]
      omega

namespace Db

variable {db db' : Db} {r : PayoutLinkRequest} {w : PayoutLinkConfirmWrite} {res : PayoutLinkConfirm}

theorem confirmUnlink_effect (hids : (db.links.map (·.linkId)).Nodup)
    (hne : (db.confirmUnlink r).2.links ≠ db.links) :
    (db.confirmUnlink r).2.accountLinkVersion r.tenantId r.accountId =
      db.accountLinkVersion r.tenantId r.accountId + 1 := by
  unfold confirmUnlink at hne ⊢
  split at hne
  · exact absurd rfl hne
  rename_i l hfind
  have hcond := find?_some hfind
  simp only [Bool.and_eq_true, Bool.not_eq_true', PayoutLink.ofAccount_iff]
    at hcond
  obtain ⟨⟨⟨ht, ha⟩, -⟩, hu⟩ := hcond
  have hsum := sum_updateLink hids (mem_of_find?_eq_some hfind)
    (fun l => { l with unlinkRequested := true }) (·.weight r.tenantId r.accountId)
  have hone : l.weight r.tenantId r.accountId = 1 := by
    simp [PayoutLink.weight, PayoutLink.ofAccount, ht, ha, hu]
  have htwo : PayoutLink.weight r.tenantId r.accountId { l with unlinkRequested := true } = 2 := by
    simp [PayoutLink.weight, PayoutLink.ofAccount, ht, ha]
  rw [hone, htwo, ht] at hsum
  rw [accountLinkVersion_eq, accountLinkVersion_eq]
  exact Nat.add_right_cancel (hsum.trans (Nat.add_assoc _ 1 1).symm)

/-- A request that changes a link was still good, and was issued against the current version. -/
theorem confirmTaken_effect (e : db.confirmTaken r w = .ok (res, db'))
    (hids : (db.links.map (·.linkId)).Nodup) (hne : db'.links ≠ db.links) :
    db.now < r.expiresAt ∧ db.superseded r = false ∧
      db.accountLinkVersion r.tenantId r.accountId = r.expectedCurrentVersion.getD 0 ∧
      db'.accountLinkVersion r.tenantId r.accountId =
        db.accountLinkVersion r.tenantId r.accountId + 1 := by
  rcases confirmTaken_cases e with rfl | ⟨⟨hexp, hsuper, hversion⟩, hdb⟩
  · exact absurd rfl hne
  refine ⟨hexp, hsuper, hversion, ?_⟩
  rcases hdb with ⟨-, _, rfl⟩ | rfl
  · rw [accountLinkVersion_eq, accountLinkVersion_eq]
    simp [PayoutLink.weight, PayoutLink.ofAccount, newLink]
  · exact confirmUnlink_effect hids hne

end Db

/-! ## Runs -/

namespace PayConfig

variable {rail : Rail} {c c' : PayConfig} {t : String} {a : Uuid}
  {es : List (Event (payMachine rail) (PassOn rail))}

def runFrom (rail : Rail) (c : PayConfig) (es : List (Event (payMachine rail) (PassOn rail))) :
    Option PayConfig :=
  Config.run (payMachine rail) (fun p : PassOn rail => p.1.runOnce) c es

def moved (c : PayConfig) (s : PayState) : PayConfig := { c with hist := c.hist.push s }

theorem runFrom_version (hrun : runFrom rail c es = some c') (t : String) (a : Uuid) :
    c.hist.now.db.accountLinkVersion t a ≤ c'.hist.now.db.accountLinkVersion t a :=
  Config.run_keeps
    (P := fun h => c.hist.now.db.accountLinkVersion t a ≤ h.now.db.accountLinkVersion t a)
    (fun _ _ _ _ _ hp e => hp.trans ((PayState.exec_later e).version t a))
    (fun _ _ _ _ hp e => hp.trans ((PayState.move_onward e).1 t a)) le_rfl hrun

theorem runFrom_absent (hrun : runFrom rail c es = some c') {handle : String}
    (hes : ∀ q, Event.move (Move.request q) ∈ es → ¬ q.isRequest t a handle)
    (hc : ∀ q ∈ c.hist.now.db.requests, ¬ q.isRequest t a handle) :
    ∀ q ∈ c'.hist.now.db.requests, ¬ q.isRequest t a handle :=
  Config.run_keeps (P := fun h : Hist PayState => ∀ q ∈ h.now.db.requests, ¬ q.isRequest t a _)
    (fun _ _ _ _ _ hp e q hq => hp q ((PayState.exec_later e).requests q hq))
    (fun _ _ _ hm hp e => PayState.move_absent e (fun r hr => hes r (hr ▸ hm)) hp) hc hrun

/-- The clock of the last state is the latest. -/
theorem run_now {s : PayState} (hrun : PayConfig.run rail s es = some c) :
    ∀ s' ∈ c.hist.states, s'.db.now ≤ c.hist.now.db.now := by
  have hpush : ∀ (h : Hist PayState) (s : PayState), (∀ s' ∈ h.states, s'.db.now ≤ h.now.db.now) →
      h.now.db.now ≤ s.db.now → ∀ s' ∈ (h.push s).states, s'.db.now ≤ (h.push s).now.db.now := by
    intro h s hp hle s' hs'
    rcases mem_cons.1 hs' with rfl | hs'
    · exact le_rfl
    · exact (hp s' hs').trans hle
  refine Config.run_keeps (P := fun h => ∀ s' ∈ h.states, s'.db.now ≤ h.now.db.now)
    (fun h _ _ _ s hp e => hpush h s hp (PayState.exec_later e).now)
    (fun h _ s _ hp e => hpush h s hp (PayState.move_onward e).2) (fun s' hs' => ?_) hrun
  rw [mem_singleton.1 hs']

end PayConfig

def PayState.taken (s : PayState) (t : String) (a : Uuid) (handle : String) :
    Option PayoutLinkRequest :=
  s.db.requests.find? (·.isRequest t a handle)

/-- What is so of a confirm, from `c` to `s'`, whose request `r` changed a link. -/
structure TookEffect (t : String) (a : Uuid) (c : PayConfig) (s' : PayState)
    (r : PayoutLinkRequest) : Prop where
  version : c.hist.now.db.accountLinkVersion t a = r.expectedCurrentVersion.getD 0
  raised : s'.db.accountLinkVersion t a = c.hist.now.db.accountLinkVersion t a + 1
  unexpired : ∀ s ∈ c.hist.states, s.db.now < r.expiresAt
  newest : ∀ q ∈ c.hist.now.db.requests, q.ofAccount t a = true → q.handleHash ≠ r.handleHash →
    r.createdAt < q.createdAt → q.expiresAt ≤ c.hist.now.db.now

section protocol

variable {rail : Rail} {s : PayState} {es : List (Event (payMachine rail) (PassOn rail))}
  {c : PayConfig} {t : String} {a : Uuid} {handle : String} {id : Uuid} {s' : PayState}

theorem PayState.taken_eq_some {r : PayoutLinkRequest} (h : s.taken t a handle = some r) :
    r.tenantId = t ∧ r.accountId = a ∧ r.handleHash = handle := by
  have hr := find?_some h
  simpa [PayoutLinkRequest.isRequest, PayoutLinkRequest.ofAccount, and_assoc] using hr

/-- The store's part of a confirm move. -/
theorem PayState.confirm_eq_some (e : s.move rail (.confirm t a handle id) = some s') :
    ∃ res db', s.db.confirmPayoutLinkRequest t a handle ⟨id, rail.programForLink id⟩ =
      .ok (res, db') ∧ s' = { s with db := db' } := by
  simp only [move] at e
  split at e
  · exact commit_eq_some e
  · cases e

theorem confirm_effect (h : s.Initial) (hrun : PayConfig.run rail s es = some c)
    (hmove : c.hist.now.move rail (.confirm t a handle id) = some s')
    (hne : s'.db.links ≠ c.hist.now.db.links) :
    ∃ r, c.hist.now.taken t a handle = some r ∧ TookEffect t a c s' r := by
  obtain ⟨_, _, e, rfl⟩ := PayState.confirm_eq_some hmove
  unfold Db.confirmPayoutLinkRequest at e
  split at e
  · cases e; exact absurd rfl hne
  rename_i r db1 htake
  obtain ⟨htaken, rfl⟩ := Prod.mk.inj htake
  obtain ⟨ht, ha, hh⟩ := PayState.taken_eq_some htaken
  have hids := (PayConfig.run_inv h hrun).books.ids
  obtain ⟨hexp, hsuper, hversion, hraised⟩ := Db.confirmTaken_effect e hids hne
  rw [ht, ha] at hversion hraised
  refine ⟨r, htaken, hversion, hraised, fun s' hs' => ?_, fun q hq hacc hother hcreated => ?_⟩
  · exact (PayConfig.run_now hrun s' hs').trans_lt hexp
  by_contra hlive
  refine Bool.false_ne_true (hsuper.symm.trans (any_eq_true.2 ⟨q, ?_, ?_⟩))
  · refine mem_filter.2 ⟨hq, ?_⟩
    simp [PayoutLinkRequest.isRequest, ← hh, hother]
  · simp [ht, ha, hacc, hcreated, lt_of_not_ge hlive]

/-- After a confirm took a request, none with its handle is left. -/
theorem confirm_takes (hmove : c.hist.now.move rail (.confirm t a handle id) = some s') :
    ∀ q ∈ s'.db.requests, ¬ q.isRequest t a handle := by
  obtain ⟨_, _, e, rfl⟩ := PayState.confirm_eq_some hmove
  unfold Db.confirmPayoutLinkRequest at e
  split at e
  next htake =>
    cases e
    have hnone := find?_eq_none.1 (Prod.mk.inj htake).1
    exact hnone
  next r db1 htake =>
    obtain ⟨-, rfl⟩ := Prod.mk.inj htake
    intro q hq
    have hq := (Db.confirmTaken_later e).requests q hq
    simpa using (mem_filter.1 hq).2

/-- The run up to a confirm, the confirm, and the run after it are one run. -/
theorem PayConfig.run_confirm (hrun : PayConfig.run rail s es = some c)
    (hmove : c.hist.now.move rail (.confirm t a handle id) = some s')
    {es' : List (Event (payMachine rail) (PassOn rail))} {d : PayConfig}
    (hrest : PayConfig.runFrom rail (c.moved s') es' = some d) :
    PayConfig.run rail s (es ++ .move (Move.confirm t a handle id) :: es') = some d := by
  have hstep : Config.step (payMachine rail) (fun p : PassOn rail => p.1.runOnce) c
      (.move (Move.confirm t a handle id)) = some (c.moved s') :=
    Option.map_eq_some_iff.2 ⟨s', hmove, rfl⟩
  unfold PayConfig.run Config.run at hrun ⊢
  rw [foldlM_append, hrun, Option.bind_eq_bind, Option.bind_some, foldlM_cons, hstep]
  exact hrest

/-- At any confirm of any run: what follows from its changing a link, whatever the run does after
it, and that a request that is not made again is not taken again. -/
theorem link_request_protocol (h : s.Initial) (hrun : PayConfig.run rail s es = some c)
    (hmove : c.hist.now.move rail (.confirm t a handle id) = some s') :
    (s'.db.links ≠ c.hist.now.db.links →
      ∃ r, c.hist.now.taken t a handle = some r ∧ TookEffect t a c s' r ∧
        ∀ es' d handle' id' s'' r', PayConfig.runFrom rail (c.moved s') es' = some d →
          d.hist.now.move rail (.confirm t a handle' id') = some s'' →
          s''.db.links ≠ d.hist.now.db.links → d.hist.now.taken t a handle' = some r' →
          r'.expectedCurrentVersion.getD 0 ≠ r.expectedCurrentVersion.getD 0) ∧
    ∀ es' d r', PayConfig.runFrom rail (c.moved s') es' = some d →
      d.hist.now.taken t a handle = some r' →
      ∃ q, Event.move (Move.request q) ∈ es' ∧ q.isRequest t a handle = true := by
  refine ⟨fun hne => ?_, fun es' d r' hrest htaken => ?_⟩
  · obtain ⟨r, htaken, heff⟩ := confirm_effect h hrun hmove hne
    refine ⟨r, htaken, heff, fun es' d handle' id' s'' r' hrest hmove' hne' htaken' => ?_⟩
    obtain ⟨r1, htaken1, heff'⟩ :=
      confirm_effect h (PayConfig.run_confirm hrun hmove hrest) hmove' hne'
    obtain rfl : r1 = r' := Option.some.inj (htaken1.symm.trans htaken')
    -- The version was raised, and the rest of the run did not lower it.
    have hlater : s'.db.accountLinkVersion t a ≤ d.hist.now.db.accountLinkVersion t a :=
      PayConfig.runFrom_version hrest t a
    rw [heff.raised] at hlater
    rw [← heff.version, ← heff'.version]
    exact (Nat.lt_of_succ_le hlater).ne'
  · by_contra hnone
    have hgone := PayConfig.runFrom_absent (t := t) (a := a) hrest
      (fun q hq hreq => hnone ⟨q, hq, hreq⟩) (confirm_takes hmove)
    exact hgone r' (mem_of_find?_eq_some htaken) (find?_some htaken)

end protocol

/-! ## A request that was superseded for a while -/

/-- A link request of account 1, proved by its login. -/
def linkRequest (handle : String) (key : Uuid) (version : Option Nat) (created : Time) :
    PayoutLinkRequest where
  tenantId := "t"
  accountId := 1
  idempotencyKey := key
  handleHash := handle
  requestDigest := handle
  action := .link
  expectedCurrentVersion := version
  recipient := some "org"
  provingAnchorHash := some "x"
  createdAt := created
  expiresAt := 10

def firstRequest : PayoutLinkRequest := linkRequest "h1" 2 (some 1) 0

def requested : List (Event (payMachine plainRail) (PassOn plainRail)) :=
  [.move (.anchors [⟨"t", 1, "x"⟩]), .move (.request (linkRequest "h0" 1 none 0))]

/-- While a new link waits, two requests to replace it are made. The second is confirmed, and
refused because the link waits; then a pass activates the link. -/
def secondRefused : List (Event (payMachine plainRail) (PassOn plainRail)) := requested ++
  [.move (.confirm "t" 1 "h0" 7), .move (.request firstRequest), .move (.tick 1),
    .move (.request (linkRequest "h2" 3 (some 1) 1)), .move (.confirm "t" 1 "h2" 8),
    .start plainPass] ++ calls 8 5 ++ [.stop]

/-- The first request, superseded while the second waited, then links. -/
theorem superseded_request_links : oneCreditState.Initial ∧
    ∃ c s', PayConfig.run plainRail oneCreditState secondRefused = some c ∧
      (∃ p ∈ c.hist.states, firstRequest ∈ p.db.requests ∧ p.db.superseded firstRequest = true) ∧
      c.hist.now.taken "t" 1 "h1" = some firstRequest ∧
      c.hist.now.move plainRail (.confirm "t" 1 "h1" 8) = some s' ∧
      s'.db.links ≠ c.hist.now.db.links := by
  have h : (PayConfig.run plainRail oneCreditState secondRefused).map (fun c =>
      (c.hist.states.any fun p =>
        firstRequest ∈ p.db.requests && p.db.superseded firstRequest,
      c.hist.now.taken "t" 1 "h1", c.hist.now.db.links.length,
      (c.hist.now.move plainRail (.confirm "t" 1 "h1" 8)).map (·.db.links.length))) =
      some (true, some firstRequest, 1, some 2) := by
    decide +kernel
  obtain ⟨c, hc, hv⟩ := Option.map_eq_some_iff.1 h
  simp only [Prod.mk.injEq] at hv
  obtain ⟨hany, htaken, hlen, hmove⟩ := hv
  obtain ⟨p, hp, hsuper⟩ := any_eq_true.1 hany
  simp only [Bool.and_eq_true, decide_eq_true_eq] at hsuper
  obtain ⟨s', hs', hlen'⟩ := Option.map_eq_some_iff.1 hmove
  refine ⟨⟨rfl, rfl, rfl⟩, c, s', hc, ⟨p, hp, hsuper⟩, htaken, hs', fun he => ?_⟩
  rw [he, hlen] at hlen'
  cases hlen'

/-- The confirm of the account's first link. -/
theorem link_request_protocol_first : ∃ c s',
    PayConfig.run plainRail oneCreditState requested = some c ∧
    c.hist.now.move plainRail (.confirm "t" 1 "h0" 7) = some s' ∧
    s'.db.links ≠ c.hist.now.db.links ∧ TookEffect "t" 1 c s' (linkRequest "h0" 1 none 0) := by
  obtain ⟨c, s', hc, htaken, hs', hne⟩ : ∃ c s',
      PayConfig.run plainRail oneCreditState requested = some c ∧
      c.hist.now.taken "t" 1 "h0" = some (linkRequest "h0" 1 none 0) ∧
      c.hist.now.move plainRail (.confirm "t" 1 "h0" 7) = some s' ∧
      s'.db.links ≠ c.hist.now.db.links := ⟨_, _, rfl, rfl, rfl, by decide⟩
  obtain ⟨r, hr, heff, -⟩ := (link_request_protocol ⟨rfl, rfl, rfl⟩ hc hs').1 hne
  obtain rfl := Option.some.inj (htaken.symm.trans hr)
  exact ⟨c, s', hc, hs', hne, heff⟩

end TraceCommons.Payout
