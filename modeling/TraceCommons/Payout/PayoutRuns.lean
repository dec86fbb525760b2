import TraceCommons.Payout.PassSafety

/-! # Whole runs of the payout system

From a rail with no link, no line and no record, through any moves of the others and any passes,
each stopped wherever, the books fit. What the rail holds for an account is then within the
largest net owed the account has had. -/

namespace TraceCommons.Payout

open Conc

variable {rail : Rail} {s : PayState}

theorem Books.Inv.empty (peak : String → Uuid → Nat) : Books.Inv rail peak ⟨[], [], []⟩ := by
  constructor <;> simp [Books.paid, Ledger.total, Ledger.history]

theorem RunInv.initial (h : s.Initial) : RunInv rail ⟨s, []⟩ where
  books := by
    rw [PayState.books, h.links, h.lines, h.ledger]
    exact .empty _
  steps := .singleton s

namespace PayConfig

variable {es : List (Event (payMachine rail) (PassOn rail))} {c : PayConfig}

theorem run_inv (h : s.Initial) (hrun : PayConfig.run rail s es = some c) : RunInv rail c.hist := by
  have hstart : Config.Good (runInv rail) (⟨⟨s, []⟩, none⟩ : PayConfig) :=
    ⟨.initial h, fun p hp => absurd hp (Option.not_mem_none p)⟩
  exact (hstart.run (fun p _ hi => p.1.runOnce_safe p.2 hi) hrun).1

end PayConfig

/-- The rail never holds more for an account than the account has been owed. -/
theorem paid_le_peakOwed (h : s.Initial) {es : List (Event (payMachine rail) (PassOn rail))}
    {c : PayConfig} (hrun : PayConfig.run rail s es = some c) (tenant : String) (account : Uuid) :
    c.hist.now.paid tenant account ≤ peakOwed c.hist tenant account :=
  (PayConfig.run_inv h hrun).books.paid _ _

/-- The lines confirmed on a stream of a link. -/
def confirmedOn (lines : List PayoutLine) (id : Uuid) (stream : PayoutStream) : List PayoutLine :=
  lines.filter fun p => p.linkId = id ∧ p.stream = stream ∧ p.state = .confirmed

/-- They record different payments, and the rail has each on the stream's program. -/
theorem Books.Inv.confirmed_le {peak : String → Uuid → Nat} {b : Books} (h : b.Inv rail peak)
    {id : Uuid} {stream : PayoutStream} {q : String} (hq : rail.streamProgram id stream = some q) :
    ((confirmedOn b.lines id stream).map (·.delta)).sum ≤ b.ledger.total q := by
  have hrecord : ∀ p ∈ confirmedOn b.lines id stream, ∃ r ∈ b.ledger.history q,
      p.receiptHash = some r.receiptHash ∧ p.delta = r.delta := by
    intro p hp
    simp only [confirmedOn, List.mem_filter, decide_eq_true_eq] at hp
    obtain ⟨hp, rfl, rfl, hstate⟩ := hp
    obtain ⟨r, hr, hreceipt, hdelta, hprogram⟩ := h.confirmed p hp hstate
    have heq : r.program = q := Option.some.inj (hprogram.symm.trans hq)
    exact ⟨r, List.mem_filter.2 ⟨hr, decide_eq_true heq⟩, hreceipt, hdelta⟩
  have : Inhabited RailRecord := ⟨⟨"", "", 0, 0⟩⟩
  choose! f hmem hreceipt hdelta using hrecord
  have hnodup : ((confirmedOn b.lines id stream).map f).Nodup := by
    refine ((List.Nodup.of_map _ h.lineIds).filter _).map_on fun p hp p' hp' heq => ?_
    refine h.oneReceipt p (List.mem_filter.1 hp).1 p' (List.mem_filter.1 hp').1 _ (hreceipt p hp) ?_
    rw [heq]
    exact hreceipt p' hp'
  obtain ⟨l, hperm, hsub⟩ := List.subperm_of_subset hnodup (List.forall_mem_map.2 hmem)
  calc ((confirmedOn b.lines id stream).map (·.delta)).sum
      = (((confirmedOn b.lines id stream).map f).map (·.delta)).sum := by
        rw [List.map_map, List.map_congr_left hdelta]
        rfl
    _ = (l.map (·.delta)).sum := (hperm.map _).sum_eq.symm
    _ ≤ b.ledger.total q := (hsub.map _).sum_le_sum fun _ _ => Nat.zero_le _

/-- At every point of a run, what is confirmed on a link's stream is within what the rail holds. -/
theorem confirmed_le_rail (h : s.Initial) {es : List (Event (payMachine rail) (PassOn rail))}
    {c : PayConfig} (hrun : PayConfig.run rail s es = some c) {id : Uuid} {stream : PayoutStream}
    {q : String} (hq : rail.streamProgram id stream = some q) :
    ((confirmedOn c.hist.now.db.lines id stream).map (·.delta)).sum ≤ c.hist.now.ledger.total q :=
  (PayConfig.run_inv h hrun).books.confirmed_le hq

/-! ## A run -/

section sample

/-- A name for each number. -/
def unary (n : Nat) : String := String.ofList (List.replicate n '0')

theorem unary_injective : Function.Injective unary := by
  intro a b h
  have hlen := congrArg (fun s : String => s.toList.length) h
  simpa [unary] using hlen

def plainRail : Rail :=
  nearAiRail (fun _ id => unary id) unary (fun _ => unary_injective) unary_injective

def plainPass : PassOn plainRail :=
  ⟨⟨plainRail, fun _ => true, ⟨.live, 1000, 50, true⟩, none, false⟩, rfl⟩

/-- One credit of account 1, of 100 units, and a reversal of so many. -/
def oneCredit (reversed : Nat) : World where
  batches := []
  events := []
  epochs := []
  principalAccounts _ := none
  now := 0
  stored := [⟨"near_ai", .credit, 1, "h", none, some 1, 100, 100, "v1", "near_ai_usd"⟩,
    ⟨"near_ai", .reversal, 1, "h", some 2, some 1, reversed, reversed, "v1", "near_ai_usd"⟩]

def oneCreditState : PayState where
  db := {
    accrual := fun _ => oneCredit 0, links := [], lines := [], holds := [], requests := []
    bonuses := [], anchors := [], standing := fun _ _ => ⟨true, false, false, false⟩
    halted := false, referralHalted := false, now := 0 }
  ledger := []

/-- The calls of a pass that all succeed; new rows get that id. -/
def calls (n id : Nat) : List (Event (payMachine plainRail) (PassOn plainRail)) :=
  List.replicate n (.call { uuid := id })

/-- A pass whose send lands and whose reply is lost, then it stops. -/
def lostReply (refusal : RailRefusal) : List (Event (payMachine plainRail) (PassOn plainRail)) :=
  [.move (.carry "t" 1 7 "r"), .start plainPass] ++ calls 21 5 ++
    [.call { fault := some (refusal, true) }]

/-- The credit is reversed in part after the lost reply, and the next pass recovers the line. -/
def recovered : List (Event (payMachine plainRail) (PassOn plainRail)) :=
  lostReply (.retry "timeout") ++ [.stop, .move (.accruals "t" (oneCredit 40)), .start plainPass] ++
    calls 17 6

end sample

theorem paid_le_peakOwed_recovered : ∃ c, PayConfig.run plainRail oneCreditState recovered = some c ∧
    c.hist.now.db.netOwed "t" 1 = 60 ∧ c.hist.now.paid "t" 1 = 100 ∧
    c.hist.now.paid "t" 1 ≤ peakOwed c.hist "t" 1 := by
  have h : (PayConfig.run plainRail oneCreditState recovered).map
      (fun c => (c.hist.now.db.netOwed "t" 1, c.hist.now.paid "t" 1)) = some (60, 100) := by
    decide +kernel
  obtain ⟨c, hc, hv⟩ := Option.map_eq_some_iff.1 h
  obtain ⟨howed, hpaid⟩ := Prod.mk.inj hv
  exact ⟨c, hc, howed, hpaid, paid_le_peakOwed ⟨rfl, rfl, rfl⟩ hc "t" 1⟩

/-- The recovered line is recorded with what the lost reply had landed. -/
theorem confirmed_le_rail_recovered :
    ∃ c, PayConfig.run plainRail oneCreditState recovered = some c ∧
      ((confirmedOn c.hist.now.db.lines 7 .earned).map (·.delta)).sum = 100 ∧
      100 ≤ c.hist.now.ledger.total (plainRail.programForLink 7) := by
  have h : (PayConfig.run plainRail oneCreditState recovered).map
      (fun c => ((confirmedOn c.hist.now.db.lines 7 .earned).map (·.delta)).sum) = some 100 := by
    decide +kernel
  obtain ⟨c, hc, hsum⟩ := Option.map_eq_some_iff.1 h
  refine ⟨c, hc, hsum, ?_⟩
  rw [← hsum]
  exact confirmed_le_rail ⟨rfl, rfl, rfl⟩ hc rfl

end TraceCommons.Payout
