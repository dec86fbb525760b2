import TraceCommons.Payout.Store

/-! # A cumulative rail

What the payout pass knows of a rail (`PayoutRail`) and the external ledger behind it: a program
holds a total, made of the records of the sends that landed in it. -/

namespace TraceCommons.Payout

/-- `is_safe_identifier`. -/
def isSafeIdentifier (value : String) : Bool :=
  value ≠ "" && value.utf8ByteSize ≤ 64 && value.toList.all fun c =>
    c.isLower || c.isDigit || c = '_' || c = '-' || c = '.'

inductive RailRefusal
  | retry (label : String)
  | stopPass (label : String)
  | holdLine (label : String)
  | recipientUnavailable
  | failed (label : String)
  deriving DecidableEq

def railRefusalFallbackLabel : String := "payout_rail_label_invalid"

namespace RailRefusal

def label : RailRefusal → String
  | .retry label | .stopPass label | .holdLine label | .failed label => label
  | .recipientUnavailable => "payout_recipient_unavailable"

def safeLabel (r : RailRefusal) : String :=
  if isSafeIdentifier r.label then r.label else railRefusalFallbackLabel

end RailRefusal

structure RailCapacity where
  sendingEnabled : Bool
  stopLabel : Option String
  perSendMax : Nat
  sendsRemaining : Option Nat
  deriving DecidableEq

/-- The fixed part of a rail: its descriptor, its programs and its receipts. A link has a program
of its own, and no link's referral program is any link's program. -/
structure Rail where
  descriptor : RailDescriptor
  wireMax : Option Nat
  programForLink : Uuid → String
  referralProgramForLink : Uuid → Option String
  receiptHash : Nat → String
  program_inj : Function.Injective programForLink
  referral_inj : ∀ a b p, referralProgramForLink a = some p → referralProgramForLink b = some p →
    a = b
  referral_ne : ∀ a b, referralProgramForLink a ≠ some (programForLink b)
  receipt_inj : Function.Injective receiptHash

/-- The NEAR AI rail. `digest` is the part of the SHA-256 of a domain and a link id that a program
keeps, `receiptHash` the hash of the n-th transfer's id; neither collides. -/
def nearAiRail (digest : String → Uuid → String) (receiptHash : Nat → String)
    (hdigest : ∀ domain, Function.Injective (digest domain))
    (hreceipt : Function.Injective receiptHash) : Rail where
  descriptor := ⟨"near_ai", "near_ai_usd"⟩
  wireMax := some (2 ^ 63 - 1)
  programForLink id := "tc1-" ++ digest "nearai-payout-program-v1:" id
  referralProgramForLink id := some ("tr1-" ++ digest "nearai-referral-program-v1:" id)
  receiptHash := receiptHash
  program_inj a b h := hdigest _ (String.append_right_inj _ |>.1 h)
  referral_inj a b q ha hb :=
    hdigest _ (String.append_right_inj _ |>.1 (Option.some.inj (ha.trans hb.symm)))
  referral_ne a b h := by
    have h := congrArg String.toList (Option.some.inj h)
    simp at h
  receipt_inj := hreceipt

/-- One external record on a program. -/
structure RailRecord where
  receiptHash : String
  program : String
  delta : Nat
  totalAfter : Nat
  deriving DecidableEq

/-- `RailLine`, less its recipient: the program decides that. -/
structure RailLine where
  lineId : Uuid
  program : String
  targetTotal : Nat
  delta : Nat
  confirmedTotal : Nat
  deriving DecidableEq

/-- `RailLine::new`. -/
def RailLine.new (lineId : Uuid) (program : String) (targetTotal confirmedTotal : Nat) :
    Option RailLine :=
  if program = "" then none
  else (checkedSub targetTotal confirmedTotal).map fun delta =>
    ⟨lineId, program, targetTotal, delta, confirmedTotal⟩

inductive SendOutcome
  | committed (receiptHash : String) (delta : Nat) (totalAfter : Option Nat)
  | alreadyAtOrAbove (total : Nat)
  deriving DecidableEq

inductive ReceiptLookup
  | found (receiptHash : String) (delta : Nat)
  | notFound
  deriving DecidableEq

/-- The external ledger, oldest record first. -/
abbrev Ledger := List RailRecord

namespace Ledger

def history (g : Ledger) (program : String) : List RailRecord := g.filter (·.program = program)

def total (g : Ledger) (program : String) : Nat := ((g.history program).map (·.delta)).sum

/-- `send`: lands what the program's total is short of the line's target. -/
def send (g : Ledger) (rail : Rail) (line : RailLine) : SendOutcome × Ledger :=
  if line.targetTotal ≤ g.total line.program then (.alreadyAtOrAbove (g.total line.program), g)
  else
    let r : RailRecord := ⟨rail.receiptHash g.length, line.program,
      line.targetTotal - g.total line.program, line.targetTotal⟩
    (.committed r.receiptHash r.delta (some r.totalAfter), g ++ [r])

/-- `find_receipt`: the latest record that brought the program to the line's target and is not
excluded. -/
def findReceipt (g : Ledger) (line : RailLine) (exclude : List String) : ReceiptLookup :=
  match (g.history line.program).reverse.find? fun r =>
      r.totalAfter = line.targetTotal && r.receiptHash ∉ exclude with
  | some r => .found r.receiptHash r.delta
  | none => .notFound

theorem findReceipt_eq_found {g : Ledger} {line : RailLine} {exclude : List String}
    {receipt : String} {delta : Nat} (h : g.findReceipt line exclude = .found receipt delta) :
    ∃ r ∈ g, r.receiptHash = receipt ∧ r.delta = delta ∧ r.program = line.program := by
  unfold findReceipt at h
  split at h
  next r hfind =>
    cases h
    have hmem := List.mem_reverse.1 (List.mem_of_find?_eq_some hfind)
    obtain ⟨hr, hprogram⟩ := List.mem_filter.1 hmem
    exact ⟨r, hr, rfl, rfl, of_decide_eq_true hprogram⟩
  next => cases h

theorem total_append (g : Ledger) (r : RailRecord) (program : String) :
    total (g ++ [r]) program = g.total program + if r.program = program then r.delta else 0 := by
  by_cases h : r.program = program <;> simp [total, history, h]

/-- A send replaces the program's total by the larger of it and the target, and touches no other
program. -/
theorem send_total (g : Ledger) (rail : Rail) (line : RailLine) (program : String) :
    (g.send rail line).2.total program =
      if program = line.program then max (g.total program) line.targetTotal
      else g.total program := by
  unfold send
  split
  next h =>
    split
    next hp => subst hp; exact (max_eq_left h).symm
    next => rfl
  next h =>
    simp only [total_append]
    split
    next hp => subst hp; simp only [if_true]; omega
    next hp => rw [if_neg fun h => hp h.symm, Nat.add_zero]

/-- What a send appends, when it lands. -/
theorem send_cases (g : Ledger) (rail : Rail) (line : RailLine) :
    (g.send rail line).2 = g ∨
      (g.send rail line).2 = g ++ [⟨rail.receiptHash g.length, line.program,
        line.targetTotal - g.total line.program, line.targetTotal⟩] := by
  unfold send
  split
  · exact .inl rfl
  · exact .inr rfl

theorem mem_send {g : Ledger} {rail : Rail} {line : RailLine} {r : RailRecord} (h : r ∈ g) :
    r ∈ (g.send rail line).2 := by
  rcases g.send_cases _ _ with e | e <;> rw [e]
  · exact h
  · exact List.mem_append_left _ h

end Ledger

end TraceCommons.Payout
