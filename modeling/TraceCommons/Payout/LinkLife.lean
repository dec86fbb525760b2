import TraceCommons.Payout.PayoutRuns

/-! # The life of a link

What holds of an account's links and lines in every reachable state, and what a closed link's
recorded totals are: the rail's, which is the link's confirmed lines and the records no confirmed
line claims. -/

namespace TraceCommons.Payout

open Conc List

/-! ## Claims on records -/

section claims

variable {α β κ : Type} [DecidableEq κ] {L : List α} {R : List β} (ka : α → Option κ) (kb : β → κ)
  (va : α → Nat) (vb : β → Nat)

/-- Where each of `L` claims one of `R` by its key and amount, the sum over `R` is that over `L`
and that over what nobody claims. -/
theorem sum_claimed (hR : (R.map kb).Nodup) (hL : (L.map ka).Nodup)
    (hmatch : ∀ a ∈ L, ∃ b ∈ R, ka a = some (kb b) ∧ va a = vb b) :
    (R.map vb).sum = (L.map va).sum +
      ((R.filter fun b => !L.any fun a => ka a = some (kb b)).map vb).sum := by
  have hperm : ((R.filter fun b => L.any fun a => ka a = some (kb b)).map fun b =>
      (some (kb b), vb b)).Perm (L.map fun a => (ka a, va a)) := by
    refine (perm_ext_iff_of_nodup (.of_map Prod.fst ?_) (.of_map Prod.fst ?_)).2 fun x => ?_
    · have hsub := (filter_sublist (p := fun b => L.any fun a => ka a = some (kb b))
        (l := R)).map kb
      simpa [Function.comp_def] using (hR.sublist hsub).map (Option.some_injective κ)
    · simpa [Function.comp_def] using hL
    constructor
    · intro hx
      obtain ⟨b, hb, rfl⟩ := mem_map.1 hx
      obtain ⟨hbR, hclaim⟩ := mem_filter.1 hb
      obtain ⟨a, ha, hkey⟩ := any_eq_true.1 hclaim
      have hkey := of_decide_eq_true hkey
      obtain ⟨b', hb', hkey', hval⟩ := hmatch a ha
      obtain rfl := inj_on_of_nodup_map hR hbR hb' (Option.some.inj (hkey.symm.trans hkey'))
      exact mem_map.2 ⟨a, ha, by rw [hkey, hval]⟩
    · intro hx
      obtain ⟨a, ha, rfl⟩ := mem_map.1 hx
      obtain ⟨b, hb, hkey, hval⟩ := hmatch a ha
      refine mem_map.2 ⟨b, mem_filter.2 ⟨hb, ?_⟩, by rw [hkey, hval]⟩
      exact any_eq_true.2 ⟨a, ha, decide_eq_true hkey⟩
  have hclaimed := (hperm.map Prod.snd).sum_eq
  simp only [map_map, Function.comp_def] at hclaimed
  rw [← ((filter_append_perm _ R).map vb).sum_eq, map_append, sum_append, hclaimed]

end claims

/-! ## Links and lines -/

namespace PayState

def confirmedLines (s : PayState) (l : PayoutLink) (stream : PayoutStream) : List PayoutLine :=
  s.db.lines.filter fun p => p.ofLink l.tenantId l.linkId && p.state = .confirmed &&
    p.stream = stream

def confirmedPaid (s : PayState) (l : PayoutLink) (stream : PayoutStream) : Nat :=
  ((s.confirmedLines l stream).map (·.delta)).sum

/-- What landed on the program and no confirmed line claims. -/
def unclaimed (s : PayState) (l : PayoutLink) (stream : PayoutStream) (program : String) : Nat :=
  (((s.ledger.history program).filter fun r =>
    !(s.confirmedLines l stream).any fun p => p.receiptHash = some r.receiptHash).map (·.delta)).sum

end PayState

/-- What holds of the links and lines of a state. -/
structure LinkLife (s : PayState) : Prop where
  oneLive : ∀ l ∈ s.db.links, ∀ l' ∈ s.db.links, l.tenantId = l'.tenantId →
    l.accountId = l'.accountId → l.state.live = true → l'.state.live = true → l = l'
  oneWaiting : ∀ l ∈ s.db.links, ∀ l' ∈ s.db.links, l.tenantId = l'.tenantId →
    l.accountId = l'.accountId → l.state = .waiting → l'.state = .waiting → l = l'
  onePending : ∀ p ∈ s.db.lines, ∀ p' ∈ s.db.lines, p.linkId = p'.linkId → p.stream = p'.stream →
    p.state = .pending → p'.state = .pending → p = p'
  finalPaid : ∀ l ∈ s.db.links, l.state = .closed →
    l.finalPaid = some (s.confirmedPaid l .earned + s.unclaimed l .earned l.program) ∧
      l.finalPaid = some (s.ledger.total l.program)
  finalPaidReferral : ∀ l ∈ s.db.links, l.state = .closed → ∀ q, l.referralProgram = some q →
    l.finalPaidReferral = some (s.confirmedPaid l .referral + s.unclaimed l .referral q) ∧
      l.finalPaidReferral = some (s.ledger.total q)
  noReferral : ∀ l ∈ s.db.links, l.state = .closed → l.referralProgram = none →
    l.finalPaidReferral = none ∧ s.confirmedPaid l .referral = 0

section run

variable {rail : Rail} {peak : String → Uuid → Nat} {s : PayState}

theorem Books.Inv.receipts_nodup {b : Books} (h : b.Inv rail peak) :
    (b.ledger.map (·.receiptHash)).Nodup := by
  have hmap : b.ledger.map (·.receiptHash) = (range b.ledger.length).map rail.receiptHash := by
    refine ext_getElem? fun i => ?_
    rw [getElem?_map, getElem?_map]
    cases hi : b.ledger[i]? with
    | none =>
      rw [getElem?_eq_none (by simpa using getElem?_eq_none_iff.1 hi)]
      rfl
    | some r =>
      rw [List.getElem?_range (List.getElem?_eq_some_iff.1 hi).1]
      simp [h.receipts i r hi]
  rw [hmap]
  exact nodup_range.map rail.receipt_inj

/-- A program's total, by who claims it. -/
theorem Books.Inv.total_eq (h : s.books.Inv rail peak) {l : PayoutLink} {stream : PayoutStream}
    {q : String} (hq : rail.streamProgram l.linkId stream = some q) :
    s.ledger.total q = s.confirmedPaid l stream + s.unclaimed l stream q := by
  have hline : ∀ p ∈ s.confirmedLines l stream, p ∈ s.db.lines ∧ p.linkId = l.linkId ∧
      p.state = .confirmed ∧ p.stream = stream := by
    intro p hp
    obtain ⟨hp, hcond⟩ := mem_filter.1 hp
    simp only [Bool.and_eq_true, PayoutLine.ofLink, decide_eq_true_eq] at hcond
    exact ⟨hp, hcond.1.1.2, hcond.1.2, hcond.2⟩
  refine sum_claimed _ _ _
    _ ?_ ?_ fun p hp => ?_
  · exact h.receipts_nodup.sublist (filter_sublist.map _)
  · refine List.Nodup.map_on (fun p hp p' hp' he => ?_)
      ((List.Nodup.of_map _ h.lineIds).filter _)
    obtain ⟨hp, -, hs, -⟩ := hline p hp
    obtain ⟨r, -, hr, -⟩ := h.confirmed p hp hs
    exact h.oneReceipt p hp p' (hline p' hp').1 _ hr (he ▸ hr)
  · obtain ⟨hp, hid, hs, hstream⟩ := hline p hp
    obtain ⟨r, hr, hreceipt, hdelta, hprogram⟩ := h.confirmed p hp hs
    rw [hid, hstream, hq] at hprogram
    exact ⟨r, mem_filter.2 ⟨hr, decide_eq_true (Option.some.inj hprogram).symm⟩, hreceipt, hdelta⟩

theorem Books.Inv.linkLife (h : s.books.Inv rail peak) : LinkLife s where
  oneLive := h.oneLive
  oneWaiting := h.oneWaiting
  onePending := h.onePending
  finalPaid l hl hc := by
    have htotal := h.total_eq (h.stream hl)
    exact ⟨htotal ▸ (h.final l hl hc).1, (h.final l hl hc).1⟩
  finalPaidReferral l hl hc q hq := by
    have hprogram : rail.streamProgram l.linkId .referral = some q := h.referral l hl q hq
    have htotal := h.total_eq hprogram
    have hfinal := (h.final l hl hc).2
    rw [hq] at hfinal
    exact ⟨htotal ▸ hfinal, hfinal⟩
  noReferral l hl hc hq := by
    refine ⟨by rw [(h.final l hl hc).2, hq]; rfl, ?_⟩
    -- A referral line is on a link that has a referral program.
    have hnone : s.confirmedLines l .referral = [] := by
      refine filter_eq_nil_iff.2 fun p hp hcond => ?_
      simp only [Bool.and_eq_true, PayoutLine.ofLink, decide_eq_true_eq] at hcond
      obtain ⟨l', hl', hof⟩ := h.lineOf p hp
      obtain rfl := h.link_ext hl hl' (hcond.1.1.2.symm.trans hof.linkId.symm)
      have := hof.program hcond.2
      rw [hq] at this
      cases this
    rw [PayState.confirmedPaid, hnone]
    rfl

/-- In every reachable state the account's links and lines are in order, and on the way there every
link only moved forward and none closed over a pending line. -/
theorem link_life (h : s.Initial) {es : List (Event (payMachine rail) (PassOn rail))}
    {c : PayConfig} (hrun : PayConfig.run rail s es = some c) :
    LinkLife c.hist.now ∧
      c.hist.states.IsChain fun s s' => LinkStep s'.db.lines s'.db.links s.db.links :=
  ⟨(PayConfig.run_inv h hrun).books.linkLife, (PayConfig.run_inv h hrun).steps⟩

end run

/-! ## A close over an unclaimed record -/

def unlinkRequest : PayoutLinkRequest where
  tenantId := "t"
  accountId := 1
  idempotencyKey := 1
  handleHash := "h"
  requestDigest := "d"
  action := .unlink
  expectedCurrentVersion := some 1
  recipient := none
  provingAnchorHash := none
  createdAt := 0
  expiresAt := 10

/-- The send lands and its reply is lost; the next pass is told the program is at the target, and
the lookup of the receipt is refused, which ends the line as held. Then the contributor unlinks,
and the third pass closes the link. -/
def heldThenUnlinked : List (Event (payMachine plainRail) (PassOn plainRail)) :=
  lostReply (.retry "timeout") ++ [.stop, .start plainPass] ++ calls 14 6 ++
    [.call { fault := some (.holdLine "unreadable", false) }] ++ calls 2 6 ++
    [.stop, .move (.request unlinkRequest), .move (.confirm "t" 1 "h" 8), .start plainPass] ++
    calls 11 6

/-- The close records what the rail holds, of which no line is confirmed. -/
theorem close_records_unclaimed : oneCreditState.Initial ∧
    ∃ c, PayConfig.run plainRail oneCreditState heldThenUnlinked = some c ∧
      ∃ l ∈ c.hist.now.db.links, l.state = .closed ∧ l.finalPaid = some 100 ∧
        c.hist.now.confirmedPaid l .earned = 0 := by
  have h : (PayConfig.run plainRail oneCreditState heldThenUnlinked).map
      (fun c => c.hist.now.db.links.map fun l =>
        (l.state, l.finalPaid, c.hist.now.confirmedPaid l .earned)) =
      some [(.closed, some 100, 0)] := by
    decide +kernel
  obtain ⟨c, hc, hv⟩ := Option.map_eq_some_iff.1 h
  obtain ⟨l, hl, hval⟩ := mem_map.1 (hv ▸ mem_singleton.2 rfl)
  simp only [Prod.mk.injEq] at hval
  exact ⟨⟨rfl, rfl, rfl⟩, c, hc, l, hl, hval⟩

theorem link_life_unlinked : ∃ c,
    PayConfig.run plainRail oneCreditState heldThenUnlinked = some c ∧ LinkLife c.hist.now := by
  have h : (PayConfig.run plainRail oneCreditState heldThenUnlinked).isSome = true := by
    decide +kernel
  obtain ⟨c, hc⟩ := Option.isSome_iff_exists.1 h
  exact ⟨c, hc, (link_life ⟨rfl, rfl, rfl⟩ hc).1⟩

end TraceCommons.Payout
