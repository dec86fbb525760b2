import TraceCommons.Lib.Fold
import TraceCommons.Payout.Books

/-! # Transactions keep the books

Every store method that writes links or lines keeps the books of the rail, and moves each link
only forward. What a method needs from its caller for that is a hypothesis of its lemma. -/

namespace TraceCommons.Payout

open List

/-- What one step may do to the links: each stays, moves only forward, is final once closed, and
does not close over a pending line. -/
def LinkStep (lines : List PayoutLine) (links links' : List PayoutLink) : Prop :=
  ∀ l ∈ links, ∃ l' ∈ links', PayoutLink.Same l l' ∧ l.state.rank ≤ l'.state.rank ∧
    (l.state = .closed → l' = l) ∧
    (l'.state = .closed → l.state ≠ .closed →
      ∀ p ∈ lines, p.tenantId = l.tenantId → p.linkId = l.linkId → p.state ≠ .pending)

namespace LinkStep

variable {lines : List PayoutLine} {links links' links'' : List PayoutLink}

theorem of_subset (h : ∀ l ∈ links, l ∈ links') : LinkStep lines links links' :=
  fun l hl => ⟨l, h l hl, .refl l, le_rfl, fun _ => rfl, absurd⟩

theorem refl : LinkStep lines links links := of_subset fun _ h => h

theorem trans (h : LinkStep lines links links') (h' : LinkStep lines links' links'') :
    LinkStep lines links links'' := by
  intro l hl
  obtain ⟨l1, hl1, hsame, hrank, hfinal, hpend⟩ := h l hl
  obtain ⟨l2, hl2, hsame', hrank', hfinal', hpend'⟩ := h' l1 hl1
  refine ⟨l2, hl2, ⟨hsame'.tenantId.trans hsame.tenantId, hsame'.accountId.trans hsame.accountId,
    hsame'.linkId.trans hsame.linkId, hsame'.program.trans hsame.program⟩, hrank.trans hrank',
    fun hc => ?_, fun hc hne => ?_⟩
  · have e := hfinal hc
    rw [hfinal' (e ▸ hc), e]
  by_cases hc1 : l1.state = .closed
  · exact hpend hc1 hne
  · rw [← hsame.tenantId, ← hsame.linkId]
    exact hpend' hc hc1

theorem update (hids : (links.map (·.linkId)).Nodup) {l : PayoutLink} (hl : l ∈ links)
    {f : PayoutLink → PayoutLink} (hsame : PayoutLink.Same l (f l))
    (hrank : l.state.rank ≤ (f l).state.rank) (hopen : l.state ≠ .closed)
    (hpend : (f l).state = .closed →
      ∀ p ∈ lines, p.tenantId = l.tenantId → p.linkId = l.linkId → p.state ≠ .pending) :
    LinkStep lines links
      (links.map fun x => if x.isLink l.tenantId l.linkId then f x else x) := by
  intro x hx
  by_cases hxl : x.isLink l.tenantId l.linkId = true
  · obtain rfl := inj_on_of_nodup_map hids hx hl (PayoutLink.isLink_iff.1 hxl).2
    exact ⟨f x, mem_map.2 ⟨x, hx, if_pos hxl⟩, hsame, hrank, fun hc => absurd hc hopen,
      fun hc _ => hpend hc⟩
  · exact ⟨x, mem_map.2 ⟨x, hx, if_neg hxl⟩, .refl x, le_rfl, fun _ => rfl, absurd⟩

end LinkStep

def Db.books (db : Db) (g : Ledger) : Books := ⟨db.links, db.lines, g⟩

/-- A transaction that keeps the books. -/
structure Db.Keeps (rail : Rail) (peak : String → Uuid → Nat) (g : Ledger) (db db' : Db) : Prop where
  inv : (db'.books g).Inv rail peak
  links : LinkStep db.lines db.links db'.links

namespace Db

variable {rail : Rail} {peak : String → Uuid → Nat} {g : Ledger} {db db' : Db}

theorem Keeps.refl (h : (db.books g).Inv rail peak) : Keeps rail peak g db db := ⟨h, .refl⟩

variable {t : String} {id : Uuid}

theorem findLink_eq_some {st : PayoutLinkState} {l : PayoutLink}
    (h : db.findLink t id st = some l) :
    l ∈ db.links ∧ l.tenantId = t ∧ l.linkId = id ∧ l.state = st := by
  have hp := find?_some h
  simp only [Bool.and_eq_true, decide_eq_true_eq, PayoutLink.isLink_iff] at hp
  exact ⟨mem_of_find?_eq_some h, hp.1.1, hp.1.2, hp.2⟩

theorem liveTaken_eq_false {a : Uuid} :
    db.liveTaken t a id = false ↔ ∀ x ∈ db.links, x.tenantId = t → x.accountId = a →
      x.linkId ≠ id → x.state.live = false := by
  simp [liveTaken, PayoutLink.ofAccount_iff]

theorem hasPending_eq_false :
    db.hasPending t id = false ↔ ∀ p ∈ db.lines, p.tenantId = t → p.linkId = id →
      p.state ≠ .pending := by
  simp [hasPending, PayoutLine.ofLink]

theorem pendingPayoutLineForStream_eq_none {st : PayoutStream} :
    db.pendingPayoutLineForStream t id st = none ↔ ∀ p ∈ db.lines, p.tenantId = t →
      p.linkId = id → p.state = .pending → p.stream ≠ st := by
  simp [pendingPayoutLineForStream, PayoutLine.ofLink]

theorem freshLink_iff : db.freshLink id = true ↔ ∀ l ∈ db.links, l.linkId ≠ id := by
  simp [freshLink]

theorem hasWaiting_eq_false {a : Uuid} :
    db.hasWaiting t a = false ↔ ∀ l ∈ db.links, l.tenantId = t → l.accountId = a →
      l.state ≠ .waiting := by
  simp [hasWaiting, PayoutLink.ofAccount_iff]

/-! ## What a method wrote -/

section wrote

variable {r : PendingPayoutLineInsert} {w : PayoutLineWrite}

theorem transitionPayoutLink_cases {src dst : PayoutLinkState} {action : PayoutAuditAction}
    {r : PayoutLinkTransition} (e : db.transitionPayoutLink t id src dst action = .ok (r, db')) :
    db' = db ∨ ∃ l, action.fitsLinkTransition src dst = true ∧ db.findLink t id src = some l ∧
      (dst.live && db.liveTaken t l.accountId id) = false ∧
      db' = db.updateLink t id fun l => { l with state := dst } := by
  unfold transitionPayoutLink at e
  split at e
  · cases e
  rename_i hfits
  split at e
  · cases e; exact .inl rfl
  rename_i l hfind
  split at e <;> cases e
  · exact .inl rfl
  next hfree => exact .inr ⟨l, by simpa using hfits, hfind, by simpa using hfree, rfl⟩

theorem insertLine_cases (e : db.insertLine t w = .ok (r, db')) :
    (r ≠ .inserted ∧ db' = db) ∨ (r = .inserted ∧
      db' = { db with lines := db.lines ++ [PayoutLine.ofWrite t w] } ∧
      (∃ l, db.findLink t w.linkId .active = some l ∧ l.accountId = w.accountId) ∧
      db.pendingPayoutLineForStream t w.linkId w.stream = none ∧
      ∀ l ∈ db.lines, ¬(l.tenantId = t ∧ l.lineId = w.lineId)) := by
  unfold insertLine at e
  split at e
  · cases e; exact .inl ⟨nofun, rfl⟩
  rename_i l hfind
  split at e
  · cases e; exact .inl ⟨nofun, rfl⟩
  rename_i hacc
  split at e
  · cases e; exact .inl ⟨nofun, rfl⟩
  rename_i hpend
  split at e <;> cases e
  next hany =>
    exact .inr ⟨rfl, rfl, ⟨l, hfind, not_not.1 hacc⟩, by simpa using hpend, by simpa using hany⟩

theorem insertReferralLine_cases {q : String} (e : db.insertReferralLine t w q = .ok (r, db')) :
    (r ≠ .inserted ∧ db' = db) ∨ (r = .inserted ∧ ∃ l owed,
      db.findLink t w.linkId .active = some l ∧ db.owedOnTx t w.accountId = .ok owed ∧
      w.delta ≤ owed.unsent ∧ (db.updateLink t w.linkId fun l =>
        { l with referralProgram := some q }).insertLine t w = .ok (.inserted, db')) := by
  unfold insertReferralLine at e
  split at e
  · cases e; exact .inl ⟨nofun, rfl⟩
  rename_i l hfind
  split at e
  · cases e; exact .inl ⟨nofun, rfl⟩
  split at e
  · cases e; exact .inl ⟨nofun, rfl⟩
  split at e
  · cases e
  split at e
  · cases e; exact .inl ⟨nofun, rfl⟩
  obtain ⟨owed, howed, e⟩ := bind_eq_ok.1 e
  split at e
  · cases e; exact .inl ⟨nofun, rfl⟩
  rename_i hfits
  obtain ⟨⟨r', _⟩, hins, e⟩ := bind_eq_ok.1 e
  cases r' with
  | inserted => cases e; exact .inr ⟨rfl, l, owed, hfind, howed, not_lt.1 hfits, hins⟩
  | _ => cases e; exact .inl ⟨nofun, rfl⟩

end wrote

/-- A request taken changes nothing, or it was still good and of the current version, and it adds a
link or marks one. -/
theorem confirmTaken_cases {db db' : Db} {r : PayoutLinkRequest} {w : PayoutLinkConfirmWrite}
    {res : PayoutLinkConfirm} (e : db.confirmTaken r w = .ok (res, db')) :
    db' = db ∨ (db.now < r.expiresAt ∧ db.superseded r = false ∧
      db.accountLinkVersion r.tenantId r.accountId = r.expectedCurrentVersion.getD 0) ∧
      ((db.hasWaiting r.tenantId r.accountId = false ∧ ∃ recipient,
          db' = { db with links := db.links ++ [newLink r w recipient] }) ∨
        db' = (db.confirmUnlink r).2) := by
  unfold confirmTaken at e
  split at e
  · cases e; exact .inl rfl
  rename_i hexpired
  split at e
  · cases e; exact .inl rfl
  rename_i hsuper
  split at e
  · cases e; exact .inl rfl
  rename_i hversion
  have hgood := And.intro (lt_of_not_ge hexpired)
    (And.intro (Bool.eq_false_iff.2 hsuper) (not_not.1 hversion).symm)
  split at e
  · unfold confirmLink at e
    split at e
    · cases e; exact .inl rfl
    rename_i hwaiting
    split at e
    · cases e; exact .inl rfl
    split at e
    · cases e
    split at e <;> cases e
    exact .inr ⟨hgood, .inl ⟨Bool.eq_false_iff.2 hwaiting, _, rfl⟩⟩
  · exact .inr ⟨hgood, .inr (congrArg Prod.snd (Except.ok.inj e)).symm⟩

/-! ## One link -/

section kept

variable (h : (db.books g).Inv rail peak)
include h

section link

variable {l : PayoutLink} (hl : l ∈ db.links)
include hl

theorem keeps_activate (hw : l.state = .waiting)
    (hfree : db.liveTaken l.tenantId l.accountId l.linkId = false) :
    Keeps rail peak g db
      (db.updateLink l.tenantId l.linkId fun l => { l with state := .active }) := by
  refine ⟨h.updateLink hl (fun x => ⟨rfl, rfl, rfl, rfl⟩) (h.referral l hl) (by simp)
    (fun _ x hx ht ha hlive => ?_) (fun _ => h.unpaid l hl (by simp [hw])) (by simp)
    fun p hp hof => absurd hw hof.started, .update h.ids hl ⟨rfl, rfl, rfl, rfl⟩ ?_ ?_ (by simp)⟩
  · refine h.link_ext hx hl (by_contra fun hne => ?_)
    rw [liveTaken_eq_false.1 hfree x hx ht ha hne] at hlive
    cases hlive
  · simp [hw, PayoutLinkState.rank]
  · simp [hw]

theorem keeps_startClosing (ha : l.state = .active) :
    Keeps rail peak g db
      (db.updateLink l.tenantId l.linkId fun l => { l with state := .closing }) := by
  have hlive : l.state.live = true := by rw [ha]; rfl
  refine ⟨h.updateLink hl (fun x => ⟨rfl, rfl, rfl, rfl⟩) (h.referral l hl) (by simp)
    (fun _ x hx ht ha' hx' => h.oneLive x hx l hl ht ha' hx' hlive)
    (fun _ => h.unpaid l hl (by simp [ha])) (by simp)
    fun p hp hof => { hof with started := by simp, live := fun _ => rfl },
    .update h.ids hl ⟨rfl, rfl, rfl, rfl⟩ ?_ ?_ (by simp)⟩
  · simp [ha, PayoutLinkState.rank]
  · simp [ha]

/-- A link closes with its programs' totals, and with no pending line. -/
theorem keeps_close (hopen : l.state ≠ .closed) (paid : Nat) (referral : Option Nat)
    (hpaid : paid = g.total l.program) (href : referral = l.referralProgram.map g.total)
    (hpend : ∀ p ∈ db.lines, p.tenantId = l.tenantId → p.linkId = l.linkId → p.state ≠ .pending) :
    Keeps rail peak g db (db.updateLink l.tenantId l.linkId fun l =>
      { l with state := .closed, finalPaid := some paid, finalPaidReferral := referral }) := by
  refine ⟨h.updateLink hl (fun x => ⟨rfl, rfl, rfl, rfl⟩) (h.referral l hl) (by simp)
    (fun hlive => nomatch hlive) (absurd rfl) (fun _ => ⟨congrArg _ hpaid, href⟩)
    fun p hp hof => { hof with
      started := by simp
      live := fun hs => absurd hs (hpend p hp hof.tenantId.symm hof.linkId.symm) },
    .update h.ids hl ⟨rfl, rfl, rfl, rfl⟩ ?_ hopen fun _ => hpend⟩
  cases hs : l.state <;> simp [PayoutLinkState.rank]

/-- A mark on an open link, or the referral program of a started one. -/
theorem keeps_mark {f : PayoutLink → PayoutLink} (hf : ∀ x, PayoutLink.Same x (f x))
    (hstate : (f l).state = l.state) (hpaid : (f l).finalPaid = l.finalPaid)
    (hpaid' : (f l).finalPaidReferral = l.finalPaidReferral)
    (href : (f l).referralProgram = l.referralProgram ∨
      ∃ q, (f l).referralProgram = some q ∧ rail.referralProgramForLink l.linkId = some q)
    (hlive : l.state.live = true) :
    Keeps rail peak g db (db.updateLink l.tenantId l.linkId f) := by
  have hopen : l.state ≠ .closed := fun hc => by rw [hc] at hlive; cases hlive
  have hstarted : l.state ≠ .waiting := fun hw => by rw [hw] at hlive; cases hlive
  refine ⟨h.updateLink hl hf (fun q hq => ?_) (hstate ▸ hstarted)
    (fun _ x hx ht ha hx' => h.oneLive x hx l hl ht ha hx' hlive) (fun _ => ?_)
    (fun hc => absurd (hstate ▸ hc) hopen) fun p hp hof => ?_,
    .update h.ids hl (hf l) (hstate ▸ le_rfl) hopen fun hc => absurd (hstate ▸ hc) hopen⟩
  · rcases href with e | ⟨q', e, hq'⟩
    · exact h.referral l hl q (e ▸ hq)
    · rw [e] at hq
      exact hq ▸ hq'
  · rw [hpaid, hpaid']
    exact h.unpaid l hl hopen
  · refine ⟨(hf l).linkId.trans hof.linkId, (hf l).tenantId.trans hof.tenantId,
      (hf l).accountId.trans hof.accountId, hstate ▸ hof.started, fun hs => hstate ▸ hof.live hs,
      fun hs => ?_⟩
    rcases href with e | ⟨q, e, -⟩
    · exact e ▸ hof.program hs
    · rw [e]; rfl

end link

/-! ## The methods of the pass -/

theorem transitionPayoutLink_keeps {src dst : PayoutLinkState}
    {action : PayoutAuditAction} {r : PayoutLinkTransition}
    (e : db.transitionPayoutLink t id src dst action = .ok (r, db')) :
    Keeps rail peak g db db' := by
  rcases transitionPayoutLink_cases e with rfl | ⟨l, hfits, hfind, hfree, rfl⟩
  · exact .refl h
  obtain ⟨hl, rfl, rfl, rfl⟩ := findLink_eq_some hfind
  -- Only two moves fit an action.
  obtain ⟨hs, rfl⟩ | ⟨hs, rfl⟩ : (l.state = .waiting ∧ dst = .active) ∨
      (l.state = .active ∧ dst = .closing) := by
    revert hfits
    cases action <;> cases l.state <;> cases dst <;> simp [PayoutAuditAction.fitsLinkTransition]
  · exact keeps_activate h hl hs (by simpa [PayoutLinkState.live] using hfree)
  · exact keeps_startClosing h hl hs

/-- Closing records what the pass read of the rail, so it must have read the totals as they are. -/
theorem closePayoutLinkStreams_keeps {paid : Nat}
    {referral : Option Nat} {next : Option Uuid} {r : PayoutLinkClose}
    (hpaid : g.total (rail.programForLink id) = paid)
    (href : ∀ n, referral = some n → ∃ q, rail.referralProgramForLink id = some q ∧ g.total q = n)
    (e : db.closePayoutLinkStreams t id paid referral next = .ok (r, db')) :
    Keeps rail peak g db db' := by
  unfold closePayoutLinkStreams at e
  split at e
  · cases e; exact .refl h
  rename_i l hfind
  obtain ⟨hl, rfl, rfl, hs⟩ := findLink_eq_some hfind
  split at e
  · cases e; exact .refl h
  rename_i hshape
  split at e
  · cases e; exact .refl h
  rename_i hpend
  have hclose := keeps_close h hl (by simp [hs]) _ referral
    (hpaid.symm.trans (by rw [h.program l hl])) ?_
    (hasPending_eq_false.1 (by simpa using hpend))
  · cases next with
    | none => cases e; exact hclose
    | some succ =>
      simp only at e
      split at e
      · cases e; exact .refl h
      rename_i x hfind'
      split at e
      · cases e; exact .refl h
      rename_i hacc
      split at e
      · cases e
      rename_i hfree
      cases e
      obtain ⟨hx, ht, rfl, hxs⟩ := findLink_eq_some hfind'
      have hnext := keeps_activate hclose.inv hx hxs
        (by rw [ht, not_not.1 hacc]; simpa using hfree)
      rw [ht] at hnext
      exact ⟨hnext.inv, hclose.links.trans hnext.links⟩
  · -- The stored referral program is the one whose total was read.
    cases hr : referral with
    | none =>
      rw [hr] at hshape
      cases hq : l.referralProgram with
      | none => rfl
      | some q => rw [hq] at hshape; simp at hshape
    | some n =>
      obtain ⟨q, hq, hn⟩ := href n hr
      rw [hr] at hshape
      cases hq' : l.referralProgram with
      | none => rw [hq'] at hshape; simp at hshape
      | some q' =>
        have := (h.referral l hl q' hq').symm.trans hq
        cases this
        exact congrArg _ hn.symm

theorem markPayoutLinkRecipientUnavailable_keeps (t : String)
    (id : Uuid) : Keeps rail peak g db (db.markPayoutLinkRecipientUnavailable t id).2 := by
  unfold markPayoutLinkRecipientUnavailable
  split
  next hany =>
    obtain ⟨l, hl, hcond⟩ := any_eq_true.1 hany
    simp only [Bool.and_eq_true, PayoutLink.isLink_iff] at hcond
    obtain ⟨⟨⟨rfl, rfl⟩, hlive⟩, -⟩ := hcond
    exact keeps_mark h hl (fun _ => ⟨rfl, rfl, rfl, rfl⟩) rfl rfl rfl (.inl rfl) hlive
  next => exact .refl h

variable {r : PendingPayoutLineInsert} {w : PayoutLineWrite}

section

variable (hfresh : ∀ p ∈ db.lines, p.lineId ≠ w.lineId)

include hfresh

/-- A line goes onto the account's active link; an earned one within what the peak leaves. -/
theorem insertLine_keeps (hbound : w.stream = .earned →
      w.targetTotal + (db.books g).closedFinal t w.accountId ≤ peak t w.accountId)
    (href : w.stream = .referral → ∀ l ∈ db.links, l.tenantId = t → l.linkId = w.linkId →
      l.referralProgram.isSome) (e : db.insertLine t w = .ok (r, db')) :
    Keeps rail peak g db db' ∧ (r = .inserted → PayoutLine.ofWrite t w ∈ db'.lines) := by
  rcases insertLine_cases e with ⟨hr, rfl⟩ | ⟨-, rfl, ⟨l, hfind, hacc⟩, hpend, -⟩
  · exact ⟨.refl h, fun h => absurd h hr⟩
  obtain ⟨hl, rfl, hid, hs⟩ := findLink_eq_some hfind
  have hlive : l.state.live = true := by rw [hs]; rfl
  have hnone := pendingPayoutLineForStream_eq_none.1 hpend
  refine ⟨⟨h.addLine hl ⟨hid, rfl, hacc, by simp [hs], fun _ => hlive,
    fun hr => href hr l hl rfl hid⟩ hfresh rfl rfl (fun p hp hlink hstream hps => ?_)
    fun he => ?_, .refl⟩, fun _ => mem_append_right _ (mem_singleton.2 rfl)⟩
  · obtain ⟨x, hx, hof⟩ := h.lineOf p hp
    obtain rfl := h.link_ext hx hl (hof.linkId.trans (hlink.trans hid.symm))
    exact hnone p hp hof.tenantId.symm hlink hps hstream
  · have := h.others_eq hl hlive
    change w.targetTotal + (db.books g).others l.tenantId w.accountId w.linkId ≤
      peak l.tenantId w.accountId
    rw [← hid, ← hacc, this, hacc]
    exact hbound he

theorem insertReferralLine_keeps {q : String} (hw : w.stream = .referral)
    (hq : rail.referralProgramForLink w.linkId = some q)
    (e : db.insertReferralLine t w q = .ok (r, db')) :
    Keeps rail peak g db db' ∧ (r = .inserted → PayoutLine.ofWrite t w ∈ db'.lines) := by
  rcases insertReferralLine_cases e with ⟨hr, rfl⟩ | ⟨rfl, l, -, hfind, -, -, hins⟩
  · exact ⟨.refl h, fun h => absurd h hr⟩
  obtain ⟨hl, rfl, hid, hs⟩ := findLink_eq_some hfind
  have hset : Keeps rail peak g db
      (db.updateLink l.tenantId w.linkId fun l => { l with referralProgram := some q }) := by
    rw [← hid] at hq ⊢
    exact keeps_mark h hl (fun _ => ⟨rfl, rfl, rfl, rfl⟩) rfl rfl rfl (.inr ⟨q, rfl, hq⟩)
      (by rw [hs]; rfl)
  have hprogram : ∀ x ∈ (db.updateLink l.tenantId w.linkId fun l =>
      { l with referralProgram := some q }).links, x.tenantId = l.tenantId →
      x.linkId = w.linkId → x.referralProgram.isSome := by
    refine forall_mem_map.2 fun y hy _ hy' => ?_
    by_cases hrow : y.isLink l.tenantId w.linkId = true
    · rw [if_pos hrow]; rfl
    · rw [if_neg hrow] at hy'
      have hyl := h.link_ext hy hl (hy'.trans hid.symm)
      exact absurd (PayoutLink.isLink_iff.2 ⟨congrArg _ hyl, hy'⟩) hrow
  obtain ⟨hkeeps, hmem⟩ := insertLine_keeps hset.inv hfresh (fun he => by simp [hw] at he)
    (fun _ => hprogram) hins
  exact ⟨⟨hkeeps.inv, hset.links.trans hkeeps.links⟩, hmem⟩

theorem insertPendingPayoutLine_keeps (hbound : w.stream = .earned →
      w.targetTotal + (db.books g).closedFinal t w.accountId ≤ peak t w.accountId)
    (hq : ∀ q, w.referralProgram = some q → rail.referralProgramForLink w.linkId = some q)
    (e : db.insertPendingPayoutLine t w = .ok (r, db')) :
    Keeps rail peak g db db' ∧ (r = .inserted → PayoutLine.ofWrite t w ∈ db'.lines) := by
  unfold insertPendingPayoutLine at e
  split at e
  next hw _ => exact insertLine_keeps h hfresh hbound (fun hr => by simp [hw] at hr) e
  next q hw hr => exact insertReferralLine_keeps h hfresh hw (hq q hr) e
  next => cases e

end

/-- A confirmation must name a record of the line's program. -/
theorem resolvePayoutLine_keeps {r : PayoutLineResolution}
    (hrec : ∀ x d, r = .confirmed x d → ∀ p ∈ db.lines, p.lineId = id → ∃ e ∈ g,
      e.receiptHash = x ∧ e.delta = d ∧ rail.streamProgram p.linkId p.stream = some e.program) :
    Keeps rail peak g db (db.resolvePayoutLine t id r).2 := by
  unfold resolvePayoutLine
  split
  · exact .refl h
  rename_i hany
  split
  · exact .refl h
  rename_i htaken
  simp only [Bool.not_eq_true, Bool.not_eq_false', any_eq_true, Bool.and_eq_true,
    decide_eq_true_eq] at hany
  obtain ⟨p, hp, ⟨rfl, rfl⟩, hs⟩ := hany
  refine ⟨h.resolve hp hs r fun x d hr => ⟨hrec x d hr p hp rfl, ?_⟩, .refl⟩
  subst hr
  simpa [receiptTaken, Db.books] using htaken

/-! ## What others do -/

/-- A transaction of somebody else: it writes no line and no closed link's total. -/
structure Moves (rail : Rail) (peak : String → Uuid → Nat) (g : Ledger) (db db' : Db) : Prop
    extends Keeps rail peak g db db' where
  lines : db'.lines = db.lines
  closed : ∀ t a, (db'.books g).closedFinal t a = (db.books g).closedFinal t a

omit h in
theorem Moves.trans {db'' : Db} (h : Moves rail peak g db db') (h' : Moves rail peak g db' db'') :
    Moves rail peak g db db'' where
  inv := h'.inv
  links := h.links.trans (h.lines ▸ h'.links)
  lines := h'.lines.trans h.lines
  closed t a := (h'.closed t a).trans (h.closed t a)

theorem Moves.of_eq (hlinks : db'.links = db.links)
    (hlines : db'.lines = db.lines) : Moves rail peak g db db' where
  inv := by rw [Db.books, hlinks, hlines]; exact h
  links := hlinks ▸ .refl
  lines := hlines
  closed t a := by rw [Db.books, hlinks]; rfl

theorem Moves.update {l : PayoutLink} (hl : l ∈ db.links) {f : PayoutLink → PayoutLink}
    (hf : ∀ x, PayoutLink.Same x (f x))
    (hrec : (f l).recorded = l.recorded)
    (hk : Keeps rail peak g db (db.updateLink l.tenantId l.linkId f)) :
    Moves rail peak g db (db.updateLink l.tenantId l.linkId f) := by
  refine { hk with lines := rfl, closed := fun t a => ?_ }
  refine Books.closedFinal_mapLinks (b := db.books g) (fun x => ?_) (fun x hx => ?_) t a
  · split
    · exact hf x
    · exact .refl x
  · split
    next hrow => rw [h.link_ext hx hl (PayoutLink.isLink_iff.1 hrow).2, hrec]
    next => rfl

theorem transitionPayoutLink_moves {action : PayoutAuditAction}
    {r : PayoutLinkTransition}
    (e : db.transitionPayoutLink t id .active .closing action = .ok (r, db')) :
    Moves rail peak g db db' := by
  have hk := transitionPayoutLink_keeps h e
  rcases transitionPayoutLink_cases e with rfl | ⟨l, -, hfind, -, rfl⟩
  · exact .of_eq h rfl rfl
  · obtain ⟨hl, rfl, rfl, hs⟩ := findLink_eq_some hfind
    exact .update h hl (fun _ => ⟨rfl, rfl, rfl, rfl⟩) (by simp [PayoutLink.recorded, hs]) hk

theorem releaseCarry_moves (t : String) (id : Uuid) :
    Moves rail peak g db (db.releaseCarry t id) := by
  unfold releaseCarry
  split
  next hcond =>
    simp only [Bool.and_eq_true, Option.isSome_iff_exists] at hcond
    obtain ⟨⟨l, hfind⟩, -⟩ := hcond
    obtain ⟨hl, rfl, rfl, hs⟩ := findLink_eq_some hfind
    have hunpaid := h.unpaid l hl (by simp [hs])
    -- A waiting link was never paid, so it closes at its total.
    have hk := keeps_close h hl (by simp [hs]) 0 none (h.waiting_total hl hs).symm
      (by rw [h.waiting l hl hs]; rfl)
      fun p hp _ hid => absurd hid (h.no_line hl hs p hp)
    have heq : (db.updateLink l.tenantId l.linkId fun l =>
        { l with state := .closed, finalPaid := some 0 }) =
        db.updateLink l.tenantId l.linkId fun l =>
          { l with state := .closed, finalPaid := some 0, finalPaidReferral := none } := by
      simp only [updateLink]
      congr 1
      refine map_congr_left fun x hx => ?_
      split
      next hrow => rw [h.link_ext hx hl (PayoutLink.isLink_iff.1 hrow).2, hunpaid.2]
      next => rfl
    rw [heq]
    exact .update h hl (fun _ => ⟨rfl, rfl, rfl, rfl⟩) (by simp [PayoutLink.recorded, hs]) hk
  next =>
    split
    next hcond =>
      obtain ⟨l, hfind⟩ := Option.isSome_iff_exists.1 hcond
      obtain ⟨hl, rfl, rfl, hs⟩ := findLink_eq_some hfind
      exact .update h hl (fun _ => ⟨rfl, rfl, rfl, rfl⟩) (by simp [PayoutLink.recorded])
        (keeps_mark h hl (fun _ => ⟨rfl, rfl, rfl, rfl⟩) rfl rfl rfl (.inl rfl) (by rw [hs]; rfl))
    next => exact .of_eq h rfl rfl

theorem releaseCarries_moves (t : String) (ids : List Uuid) :
    Moves rail peak g db (ids.foldl (·.releaseCarry t ·) db) := by
  induction ids generalizing db with
  | nil => exact .of_eq h rfl rfl
  | cons id ids ih =>
    have hm := releaseCarry_moves h t id
    exact hm.trans (ih hm.inv)

theorem rebind_moves (t : String) (a : Uuid) :
    Moves rail peak g db (db.rebind t a) := by
  have hf : ∀ l : PayoutLink, PayoutLink.Same l
      (if l.ofAccount t a ∧ l.state = .active then { l with unlinkRequested := true } else l) := by
    intro l
    split
    · exact ⟨rfl, rfl, rfl, rfl⟩
    · exact .refl l
  -- A mark changes no other column.
  have hcol : ∀ {β : Type} (f : PayoutLink → β) (l : PayoutLink),
      (f { l with unlinkRequested := true } = f l) →
      f (if l.ofAccount t a ∧ l.state = .active then { l with unlinkRequested := true } else l) =
        f l := by
    intro β f l hfl
    split
    · exact hfl
    · rfl
  refine ⟨⟨h.mapLinks hf (fun l hl q hq => ?_) (fun l hl hw => ?_) (fun l hl l' hl' ht ha h1 h2 => ?_)
    (fun l hl hc => ?_) (fun l hl hc => ?_) fun p hp l hl hof => ?_, fun l hl => ?_⟩, rfl,
    Books.closedFinal_mapLinks (b := db.books g) hf fun l hl => hcol _ l rfl⟩
  · exact h.referral l hl q ((hcol _ l rfl).symm.trans hq)
  · refine if_neg fun hcond => ?_
    rw [hcol (·.state) l rfl, hcond.2] at hw
    cases hw
  · rw [hcol (·.state.live) l rfl] at h1
    rw [hcol (·.state.live) l' rfl] at h2
    exact h.oneLive l hl l' hl' ht ha h1 h2
  · rw [hcol (·.state) l rfl] at hc
    rw [hcol (·.finalPaid) l rfl, hcol (·.finalPaidReferral) l rfl]
    exact h.unpaid l hl hc
  · rw [hcol (·.state) l rfl] at hc
    rw [hcol (·.finalPaid) l rfl, hcol (·.finalPaidReferral) l rfl, hcol (·.referralProgram) l rfl]
    exact h.final l hl hc
  · split
    · exact ⟨hof.linkId, hof.tenantId, hof.accountId, hof.started, hof.live, hof.program⟩
    · exact hof
  · refine ⟨_, mem_map_of_mem hl, hf l, (hcol (·.state.rank) l rfl).ge, fun hc => ?_,
      fun hc hne => absurd (hcol (·.state) l rfl ▸ hc) hne⟩
    refine if_neg fun hcond => ?_
    rw [hc] at hcond
    cases hcond.2

/-- A new link waits, with a program of its own. -/
theorem addLink_moves {l : PayoutLink}
    (hfresh : db.freshLink l.linkId = true) (hnone : db.hasWaiting l.tenantId l.accountId = false)
    (hprogram : l.program = rail.programForLink l.linkId) (hw : l.state = .waiting)
    (href : l.referralProgram = none) (hpaid : l.finalPaid = none ∧ l.finalPaidReferral = none) :
    Moves rail peak g db { db with links := db.links ++ [l] } where
  inv := h.addLink (freshLink_iff.1 hfresh) hprogram hw href hpaid (hasWaiting_eq_false.1 hnone)
  links := .of_subset fun _ hx => mem_append_left _ hx
  lines := rfl
  closed t a := by
    simp only [Books.closedFinal_eq, Db.books]
    by_cases hacc : l.ofAccount t a = true <;> simp [hacc, PayoutLink.recorded, hw]

variable {res : PayoutLinkConfirm}

theorem confirmUnlink_moves (r : PayoutLinkRequest) :
    Moves rail peak g db (db.confirmUnlink r).2 := by
  unfold confirmUnlink
  split
  · exact .of_eq h rfl rfl
  rename_i l hfind
  have hl := mem_of_find?_eq_some hfind
  have hcond := find?_some hfind
  simp only [Bool.and_eq_true, PayoutLink.ofAccount_iff, decide_eq_true_eq] at hcond
  obtain ⟨⟨⟨ht, -⟩, hs⟩, -⟩ := hcond
  rw [← ht]
  exact .update h hl (fun _ => ⟨rfl, rfl, rfl, rfl⟩) (by simp [PayoutLink.recorded])
    (keeps_mark h hl (fun _ => ⟨rfl, rfl, rfl, rfl⟩) rfl rfl rfl (.inl rfl) (by rw [hs]; rfl))

theorem confirmTaken_moves {r : PayoutLinkRequest}
    (hfresh : db.freshLink id = true)
    (e : db.confirmTaken r ⟨id, rail.programForLink id⟩ = .ok (res, db')) :
    Moves rail peak g db db' := by
  rcases confirmTaken_cases e with rfl | ⟨-, ⟨hwaiting, _, rfl⟩ | rfl⟩
  · exact .of_eq h rfl rfl
  · exact addLink_moves h hfresh hwaiting rfl rfl rfl ⟨rfl, rfl⟩
  · exact confirmUnlink_moves h r

theorem confirmPayoutLinkRequest_moves {a : Uuid} {handle : String}
    (hfresh : db.freshLink id = true)
    (e : db.confirmPayoutLinkRequest t a handle ⟨id, rail.programForLink id⟩ = .ok (res, db')) :
    Moves rail peak g db db' := by
  unfold confirmPayoutLinkRequest takePayoutLinkRequest at e
  split at e
  · cases e; exact .of_eq h rfl rfl
  rename_i r db1 heq
  obtain ⟨-, rfl⟩ := Prod.mk.inj heq
  -- Taking the request out leaves links and lines alone.
  have hm : Moves rail peak g
      { db with requests := db.requests.filter _ } db' :=
    confirmTaken_moves h hfresh e
  exact { hm with }

end kept

end Db

end TraceCommons.Payout
