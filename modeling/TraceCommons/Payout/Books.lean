import TraceCommons.Lib.Table
import TraceCommons.Payout.PassSystem

/-! # The books of a rail

The part of the state that money depends on: links, lines and the rail's ledger. `Books.Inv` says
when they fit together, against a bound `peak` on what each account may have received; each way a
transaction or a send changes the books keeps it. -/

namespace TraceCommons.Payout

open List

structure Books where
  links : List PayoutLink
  lines : List PayoutLine
  ledger : Ledger

def PayState.books (s : PayState) : Books := ⟨s.db.links, s.db.lines, s.ledger⟩

/-- The program a stream of a link pays into. -/
def Rail.streamProgram (rail : Rail) (linkId : Uuid) : PayoutStream → Option String
  | .earned => some (rail.programForLink linkId)
  | .referral => rail.referralProgramForLink linkId

/-- A program belongs to one link and one stream. -/
theorem Rail.streamProgram_inj {rail : Rail} {a b : Uuid} {s s' : PayoutStream} {q : String}
    (h : rail.streamProgram a s = some q) (h' : rail.streamProgram b s' = some q) :
    a = b ∧ s = s' := by
  cases s <;> cases s' <;> simp only [streamProgram, Option.some.injEq] at h h'
  · exact ⟨rail.program_inj (h.trans h'.symm), rfl⟩
  · exact absurd (h ▸ h') (rail.referral_ne b a)
  · exact absurd (h' ▸ h) (rail.referral_ne a b)
  · exact ⟨rail.referral_inj a b q h h', rfl⟩

/-- Order along the life of a link. -/
def PayoutLinkState.rank : PayoutLinkState → Nat
  | .waiting => 0
  | .active => 1
  | .closing => 2
  | .closed => 3

/-- The columns of a link that no update writes. -/
structure PayoutLink.Same (l l' : PayoutLink) : Prop where
  tenantId : l'.tenantId = l.tenantId
  accountId : l'.accountId = l.accountId
  linkId : l'.linkId = l.linkId
  program : l'.program = l.program

theorem PayoutLink.Same.refl (l : PayoutLink) : PayoutLink.Same l l := ⟨rfl, rfl, rfl, rfl⟩

theorem PayoutLink.Same.ofAccount {l l' : PayoutLink} (h : PayoutLink.Same l l') (t : String)
    (a : Uuid) :
    l'.ofAccount t a = l.ofAccount t a := by
  simp [PayoutLink.ofAccount, h.tenantId, h.accountId]

theorem PayoutLink.isLink_iff {t : String} {id : Uuid} {l : PayoutLink} :
    l.isLink t id = true ↔ l.tenantId = t ∧ l.linkId = id := by
  simp [isLink]

theorem PayoutLink.ofAccount_iff {t : String} {a : Uuid} {l : PayoutLink} :
    l.ofAccount t a = true ↔ l.tenantId = t ∧ l.accountId = a := by
  simp [ofAccount]

/-- What a link counts for among the closed ones. -/
def PayoutLink.recorded (l : PayoutLink) : Nat :=
  if l.state = .closed then l.finalPaid.getD 0 else 0

/-- The columns of a line that no update writes. -/
structure PayoutLine.Same (p p' : PayoutLine) : Prop where
  lineId : p'.lineId = p.lineId
  linkId : p'.linkId = p.linkId
  tenantId : p'.tenantId = p.tenantId
  accountId : p'.accountId = p.accountId
  stream : p'.stream = p.stream
  targetTotal : p'.targetTotal = p.targetTotal

theorem PayoutLine.Same.refl (p : PayoutLine) : PayoutLine.Same p p := ⟨rfl, rfl, rfl, rfl, rfl, rfl⟩

theorem PayoutLine.resolve_same (p : PayoutLine) (r : PayoutLineResolution) :
    PayoutLine.Same p (p.resolve r) := by
  cases r <;> exact ⟨rfl, rfl, rfl, rfl, rfl, rfl⟩

/-- A line as a row of a link. -/
structure LineOf (p : PayoutLine) (l : PayoutLink) : Prop where
  linkId : l.linkId = p.linkId
  tenantId : l.tenantId = p.tenantId
  accountId : l.accountId = p.accountId
  started : l.state ≠ .waiting
  live : p.state = .pending → l.state.live = true
  program : p.stream = .referral → l.referralProgram.isSome

namespace Books

variable (b : Books)

/-- What the rail holds over the programs of an account's links. -/
def paid (t : String) (a : Uuid) : Nat :=
  ((b.links.filter (·.ofAccount t a)).map fun l => b.ledger.total l.program).sum

/-- The same, leaving one link out. -/
def others (t : String) (a id : Uuid) : Nat :=
  ((b.links.filter fun l => l.ofAccount t a && l.linkId ≠ id).map fun l =>
    b.ledger.total l.program).sum

/-- What the closed links of an account recorded. -/
def closedFinal (t : String) (a : Uuid) : Nat :=
  ((b.links.filter fun l => l.ofAccount t a && l.state = .closed).map (·.finalPaid.getD 0)).sum

/-- An account's total, one of its links apart. -/
theorem paid_eq {b : Books} (hids : (b.links.map (·.linkId)).Nodup) {l : PayoutLink}
    (hl : l ∈ b.links) : b.paid l.tenantId l.accountId =
      b.ledger.total l.program + b.others l.tenantId l.accountId l.linkId := by
  have hmem : l ∈ b.links.filter (·.ofAccount l.tenantId l.accountId) :=
    mem_filter.2 ⟨hl, PayoutLink.ofAccount_iff.2 ⟨rfl, rfl⟩⟩
  have hnd : (b.links.filter (·.ofAccount l.tenantId l.accountId)).Nodup :=
    (List.Nodup.of_map _ hids).filter _
  rw [paid, ← sum_map_erase _ hmem, hnd.erase_eq_filter, filter_filter]
  congr 3
  refine filter_congr fun x hx => ?_
  have hne : (x != l) = decide (x.linkId ≠ l.linkId) := by
    by_cases hxl : x = l
    · simp [hxl]
    · have hid : x.linkId ≠ l.linkId := fun hid =>
        hxl (inj_on_of_nodup_map hids hx hl hid)
      simp [hxl, hid]
  rw [hne, Bool.and_comm]

structure Inv (rail : Rail) (peak : String → Uuid → Nat) (b : Books) : Prop where
  ids : (b.links.map (·.linkId)).Nodup
  program : ∀ l ∈ b.links, l.program = rail.programForLink l.linkId
  referral : ∀ l ∈ b.links, ∀ q, l.referralProgram = some q →
    rail.referralProgramForLink l.linkId = some q
  waiting : ∀ l ∈ b.links, l.state = .waiting → l.referralProgram = none
  oneLive : ∀ l ∈ b.links, ∀ l' ∈ b.links, l.tenantId = l'.tenantId → l.accountId = l'.accountId →
    l.state.live = true → l'.state.live = true → l = l'
  oneWaiting : ∀ l ∈ b.links, ∀ l' ∈ b.links, l.tenantId = l'.tenantId →
    l.accountId = l'.accountId → l.state = .waiting → l'.state = .waiting → l = l'
  unpaid : ∀ l ∈ b.links, l.state ≠ .closed → l.finalPaid = none ∧ l.finalPaidReferral = none
  final : ∀ l ∈ b.links, l.state = .closed → l.finalPaid = some (b.ledger.total l.program) ∧
    l.finalPaidReferral = l.referralProgram.map b.ledger.total
  lineIds : (b.lines.map (·.lineId)).Nodup
  lineOf : ∀ p ∈ b.lines, ∃ l ∈ b.links, LineOf p l
  onePending : ∀ p ∈ b.lines, ∀ p' ∈ b.lines, p.linkId = p'.linkId → p.stream = p'.stream →
    p.state = .pending → p'.state = .pending → p = p'
  confirmed : ∀ p ∈ b.lines, p.state = .confirmed → ∃ r ∈ b.ledger,
    p.receiptHash = some r.receiptHash ∧ p.delta = r.delta ∧
      rail.streamProgram p.linkId p.stream = some r.program
  oneReceipt : ∀ p ∈ b.lines, ∀ p' ∈ b.lines, ∀ x, p.receiptHash = some x →
    p'.receiptHash = some x → p = p'
  receipts : ∀ i r, b.ledger[i]? = some r → r.receiptHash = rail.receiptHash i
  unused : ∀ id s q, rail.streamProgram id s = some q →
    (∀ p ∈ b.lines, p.linkId = id → p.stream ≠ s) → b.ledger.total q = 0
  bound : ∀ p ∈ b.lines, p.state = .pending → p.stream = .earned →
    p.targetTotal + b.others p.tenantId p.accountId p.linkId ≤ peak p.tenantId p.accountId
  paid : ∀ t a, b.paid t a ≤ peak t a

/-! ## Reading the books -/

namespace Inv

variable {b} {rail : Rail} {peak : String → Uuid → Nat} (h : b.Inv rail peak)
include h

variable {l : PayoutLink}

theorem link_ext {l' : PayoutLink} (hl : l ∈ b.links) (hl' : l' ∈ b.links)
    (hid : l.linkId = l'.linkId) : l = l' :=
  inj_on_of_nodup_map h.ids hl hl' hid

theorem line_ext {p p' : PayoutLine} (hp : p ∈ b.lines) (hp' : p' ∈ b.lines)
    (hid : p.lineId = p'.lineId) : p = p' :=
  inj_on_of_nodup_map h.lineIds hp hp' hid

theorem stream (hl : l ∈ b.links) : rail.streamProgram l.linkId .earned = some l.program := by
  rw [Rail.streamProgram, h.program l hl]

theorem no_line (hl : l ∈ b.links) (hw : l.state = .waiting) :
    ∀ p ∈ b.lines, p.linkId ≠ l.linkId := by
  intro p hp hid
  obtain ⟨l', hl', hof⟩ := h.lineOf p hp
  obtain rfl := h.link_ext hl hl' (hid ▸ hof.linkId.symm)
  exact hof.started hw

theorem waiting_total (hl : l ∈ b.links) (hw : l.state = .waiting) : b.ledger.total l.program = 0 :=
  h.unused _ _ _ (h.stream hl) fun p hp hid => absurd hid (h.no_line hl hw p hp)

/-- With one link live, the others of the account hold what its closed links recorded. -/
theorem others_eq (hl : l ∈ b.links) (hlive : l.state.live = true) :
    b.others l.tenantId l.accountId l.linkId = b.closedFinal l.tenantId l.accountId := by
  have key : ∀ L : List PayoutLink, (∀ x ∈ L, x ∈ b.links) →
      ((L.filter fun x => x.ofAccount l.tenantId l.accountId && x.linkId ≠ l.linkId).map fun x =>
        b.ledger.total x.program).sum =
      ((L.filter fun x => x.ofAccount l.tenantId l.accountId && x.state = .closed).map
        (·.finalPaid.getD 0)).sum := by
    intro L hL
    induction L with
    | nil => rfl
    | cons x L ih =>
      have hx := hL x (.head _)
      have ih := ih fun y hy => hL y (.tail _ hy)
      by_cases hacc : x.ofAccount l.tenantId l.accountId = true
      · obtain ⟨ht, ha⟩ := PayoutLink.ofAccount_iff.1 hacc
        by_cases hid : x.linkId = l.linkId
        · obtain rfl := h.link_ext hx hl hid
          have hnc : x.state ≠ .closed := by
            intro hc
            rw [hc] at hlive
            exact nomatch hlive
          simpa [hnc] using ih
        · -- Another link of the account is closed or waiting.
          cases hs : x.state with
          | closed => simpa [hacc, hid, hs, (h.final x hx hs).1] using ih
          | waiting => simpa [hacc, hid, hs, h.waiting_total hx hs] using ih
          | active | closing =>
            exact absurd (h.oneLive x hx l hl ht ha (by rw [hs]; rfl) hlive ▸ rfl) hid
      · simpa [hacc] using ih
  exact key _ fun _ hx => hx

theorem mono {peak' : String → Uuid → Nat} (hpeak : ∀ t a, peak t a ≤ peak' t a) :
    b.Inv rail peak' :=
  { h with
    bound := fun p hp hs he => (h.bound p hp hs he).trans (hpeak _ _)
    paid := fun t a => (h.paid t a).trans (hpeak t a) }

end Inv

/-! ## Changing the books -/

def updateLink (t : String) (id : Uuid) (f : PayoutLink → PayoutLink) : Books :=
  { b with links := b.links.map fun l => if l.isLink t id then f l else l }

def updateLine (t : String) (id : Uuid) (f : PayoutLine → PayoutLine) : Books :=
  { b with lines := b.lines.map fun p => if p.tenantId = t ∧ p.lineId = id then f p else p }

def addLink (l : PayoutLink) : Books := { b with links := b.links ++ [l] }

def addLine (p : PayoutLine) : Books := { b with lines := b.lines ++ [p] }

def send (rail : Rail) (line : RailLine) : Books := { b with ledger := (b.ledger.send rail line).2 }

variable {b}

variable {f : PayoutLink → PayoutLink}

theorem paid_mapLinks (hf : ∀ l, PayoutLink.Same l (f l)) (t : String) (a : Uuid) :
    ({ b with links := b.links.map f } : Books).paid t a = b.paid t a := by
  simp [paid, filter_map, Function.comp_def, (hf _).ofAccount, (hf _).program]

theorem others_mapLinks (hf : ∀ l, PayoutLink.Same l (f l)) (t : String) (a id : Uuid) :
    ({ b with links := b.links.map f } : Books).others t a id = b.others t a id := by
  simp [others, filter_map, Function.comp_def, (hf _).ofAccount, (hf _).program, (hf _).linkId]

theorem closedFinal_eq (t : String) (a : Uuid) :
    b.closedFinal t a = ((b.links.filter (·.ofAccount t a)).map (·.recorded)).sum := by
  rw [closedFinal]
  induction b.links with
  | nil => rfl
  | cons l L ih =>
    by_cases ha : l.ofAccount t a = true <;> by_cases hs : l.state = .closed <;>
      simp [PayoutLink.recorded, ha, hs, ih]

theorem closedFinal_mapLinks (hf : ∀ l, PayoutLink.Same l (f l))
    (hrec : ∀ l ∈ b.links, (f l).recorded = l.recorded) (t : String) (a : Uuid) :
    ({ b with links := b.links.map f } : Books).closedFinal t a = b.closedFinal t a := by
  simp only [closedFinal_eq, filter_map, map_map, Function.comp_def, (hf _).ofAccount]
  refine congrArg sum (map_congr_left fun l hl => ?_)
  exact hrec l (mem_filter.1 hl).1

namespace Inv

variable {rail : Rail} {peak : String → Uuid → Nat}

section

variable (h : b.Inv rail peak)

include h

/-- Updating links keeps the books when it keeps what rows of links say on their own. -/
theorem mapLinks {f : PayoutLink → PayoutLink} (hf : ∀ l, PayoutLink.Same l (f l))
    (href : ∀ l ∈ b.links, ∀ q, (f l).referralProgram = some q →
      rail.referralProgramForLink l.linkId = some q)
    (hwait : ∀ l ∈ b.links, (f l).state = .waiting → f l = l)
    (hlive : ∀ l ∈ b.links, ∀ l' ∈ b.links, l.tenantId = l'.tenantId →
      l.accountId = l'.accountId → (f l).state.live = true → (f l').state.live = true → l = l')
    (hunpaid : ∀ l ∈ b.links, (f l).state ≠ .closed →
      (f l).finalPaid = none ∧ (f l).finalPaidReferral = none)
    (hfinal : ∀ l ∈ b.links, (f l).state = .closed →
      (f l).finalPaid = some (b.ledger.total l.program) ∧
        (f l).finalPaidReferral = (f l).referralProgram.map b.ledger.total)
    (hline : ∀ p ∈ b.lines, ∀ l ∈ b.links, LineOf p l → LineOf p (f l)) :
    ({ b with links := b.links.map f } : Books).Inv rail peak where
  ids := by
    rw [map_map, show (fun l : PayoutLink => l.linkId) ∘ f = (·.linkId) from
      funext fun l => (hf l).linkId]
    exact h.ids
  program := forall_mem_map.2 fun l hl => by
    rw [(hf l).program, (hf l).linkId, h.program l hl]
  referral := forall_mem_map.2 fun l hl q hq => (hf l).linkId ▸ href l hl q hq
  waiting := forall_mem_map.2 fun l hl hw => by
    have e := hwait l hl hw
    rw [e] at hw ⊢
    exact h.waiting l hl hw
  oneLive := forall_mem_map.2 fun l hl => forall_mem_map.2 fun l' hl' ht ha h1 h2 => by
    rw [(hf l).tenantId, (hf l').tenantId] at ht
    rw [(hf l).accountId, (hf l').accountId] at ha
    rw [hlive l hl l' hl' ht ha h1 h2]
  oneWaiting := forall_mem_map.2 fun l hl => forall_mem_map.2 fun l' hl' ht ha h1 h2 => by
    have e := hwait l hl h1
    have e' := hwait l' hl' h2
    rw [e, e'] at ht ha ⊢
    rw [e] at h1
    rw [e'] at h2
    exact h.oneWaiting l hl l' hl' ht ha h1 h2
  unpaid := forall_mem_map.2 hunpaid
  final := forall_mem_map.2 fun l hl hc => (hf l).program ▸ hfinal l hl hc
  lineIds := h.lineIds
  lineOf := fun p hp => by
    obtain ⟨l, hl, hof⟩ := h.lineOf p hp
    exact ⟨f l, mem_map_of_mem hl, hline p hp l hl hof⟩
  onePending := h.onePending
  confirmed := h.confirmed
  oneReceipt := h.oneReceipt
  receipts := h.receipts
  unused := h.unused
  bound := fun p hp hs he => by
    rw [others_mapLinks hf]
    exact h.bound p hp hs he
  paid := fun t a => by
    rw [paid_mapLinks hf]
    exact h.paid t a

theorem updateLink {l : PayoutLink} (hl : l ∈ b.links)
    {g : PayoutLink → PayoutLink} (hg : ∀ x, PayoutLink.Same x (g x))
    (href : ∀ q, (g l).referralProgram = some q → rail.referralProgramForLink l.linkId = some q)
    (hwait : (g l).state ≠ .waiting)
    (hlive : (g l).state.live = true → ∀ x ∈ b.links, x.tenantId = l.tenantId →
      x.accountId = l.accountId → x.state.live = true → x = l)
    (hunpaid : (g l).state ≠ .closed → (g l).finalPaid = none ∧ (g l).finalPaidReferral = none)
    (hfinal : (g l).state = .closed → (g l).finalPaid = some (b.ledger.total l.program) ∧
      (g l).finalPaidReferral = (g l).referralProgram.map b.ledger.total)
    (hline : ∀ p ∈ b.lines, LineOf p l → LineOf p (g l)) :
    (b.updateLink l.tenantId l.linkId g).Inv rail peak := by
  have hf : ∀ x, PayoutLink.Same x (if x.isLink l.tenantId l.linkId then g x else x) := fun x => by
    split
    · exact hg x
    · exact .refl x
  -- Only the row of `l` is updated.
  have hrow : ∀ x ∈ b.links, x = l ∧ (if x.isLink l.tenantId l.linkId then g x else x) = g l ∨
      x ≠ l ∧ (if x.isLink l.tenantId l.linkId then g x else x) = x := fun x hx => by
    by_cases hxl : x = l
    · subst hxl
      exact .inl ⟨rfl, if_pos (PayoutLink.isLink_iff.2 ⟨rfl, rfl⟩)⟩
    · refine .inr ⟨hxl, if_neg fun hi => hxl (h.link_ext hx hl (PayoutLink.isLink_iff.1 hi).2)⟩
  refine h.mapLinks hf (fun x hx q hq => ?_) (fun x hx hw => ?_)
    (fun x hx y hy ht ha h1 h2 => ?_) (fun x hx hc => ?_) (fun x hx hc => ?_)
    fun p hp x hx hof => ?_
  · obtain ⟨rfl, e⟩ | ⟨-, e⟩ := hrow x hx
    · exact href q (e ▸ hq)
    · exact h.referral x hx q (e ▸ hq)
  · obtain ⟨rfl, e⟩ | ⟨-, e⟩ := hrow x hx
    · exact absurd (e ▸ hw) hwait
    · exact e
  · obtain ⟨rfl, e⟩ | ⟨_, e⟩ := hrow x hx <;> obtain ⟨rfl, e'⟩ | ⟨_, e'⟩ := hrow y hy
    · rfl
    · exact (hlive (e ▸ h1) y hy ht.symm ha.symm (e' ▸ h2)).symm
    · exact hlive (e' ▸ h2) x hx ht ha (e ▸ h1)
    · exact h.oneLive x hx y hy ht ha (e ▸ h1) (e' ▸ h2)
  · obtain ⟨rfl, e⟩ | ⟨-, e⟩ := hrow x hx <;> rw [e] at hc ⊢
    · exact hunpaid hc
    · exact h.unpaid x hx hc
  · obtain ⟨rfl, e⟩ | ⟨-, e⟩ := hrow x hx <;> rw [e] at hc ⊢
    · exact hfinal hc
    · exact h.final x hx hc
  · obtain ⟨rfl, e⟩ | ⟨-, e⟩ := hrow x hx <;> rw [e]
    · exact hline p hp hof
    · exact hof

theorem addLink {l : PayoutLink} (hfresh : ∀ x ∈ b.links, x.linkId ≠ l.linkId)
    (hprogram : l.program = rail.programForLink l.linkId) (hw : l.state = .waiting)
    (href : l.referralProgram = none) (hpaid : l.finalPaid = none ∧ l.finalPaidReferral = none)
    (hone : ∀ x ∈ b.links, x.tenantId = l.tenantId → x.accountId = l.accountId →
      x.state ≠ .waiting) : (b.addLink l).Inv rail peak := by
  have hmem : ∀ x, x ∈ b.links ++ [l] ↔ x ∈ b.links ∨ x = l := by simp
  have hnew : ∀ p ∈ b.lines, p.linkId ≠ l.linkId := fun p hp hid => by
    obtain ⟨x, hx, hof⟩ := h.lineOf p hp
    exact hfresh x hx (hof.linkId.trans hid)
  have hzero : b.ledger.total l.program = 0 :=
    h.unused _ _ _ (by rw [Rail.streamProgram, hprogram])
      fun p hp hid => absurd hid (hnew p hp)
  have hopen : l.state ≠ .closed := by simp [hw]
  refine { h with
    ids := Table.append_key h.ids hfresh
    program := forall_mem_append.2 ⟨h.program, forall_mem_singleton.2 hprogram⟩
    referral := forall_mem_append.2 ⟨h.referral, forall_mem_singleton.2 (by simp [href])⟩
    waiting := forall_mem_append.2 ⟨h.waiting, forall_mem_singleton.2 fun _ => href⟩
    unpaid := forall_mem_append.2 ⟨h.unpaid, forall_mem_singleton.2 fun _ => hpaid⟩
    final := forall_mem_append.2 ⟨h.final, forall_mem_singleton.2 fun hc => absurd hc hopen⟩
    oneLive := ?_, oneWaiting := ?_, lineOf := ?_, bound := ?_, paid := ?_ }
  · intro x hx y hy ht ha h1 h2
    rcases (hmem x).1 hx with hx | rfl <;> rcases (hmem y).1 hy with hy | rfl
    · exact h.oneLive x hx y hy ht ha h1 h2
    · rw [hw] at h2; cases h2
    · rw [hw] at h1; cases h1
    · rfl
  · intro x hx y hy ht ha h1 h2
    rcases (hmem x).1 hx with hx' | rfl <;> rcases (hmem y).1 hy with hy' | rfl
    · exact h.oneWaiting x hx' y hy' ht ha h1 h2
    · exact absurd h1 (hone x hx' ht ha)
    · exact absurd h2 (hone y hy' ht.symm ha.symm)
    · rfl
  · intro p hp
    obtain ⟨x, hx, hof⟩ := h.lineOf p hp
    exact ⟨x, mem_append_left _ hx, hof⟩
  · intro p hp hs he
    have hothers : (b.addLink l).others p.tenantId p.accountId p.linkId =
        b.others p.tenantId p.accountId p.linkId := by
      simp only [others, Books.addLink, filter_append]
      simp only [filter_cons]
      split <;> simp [hzero]
    rw [hothers]
    exact h.bound p hp hs he
  · intro t a
    have hsum : (b.addLink l).paid t a = b.paid t a := by
      simp only [Books.paid, Books.addLink, filter_append]
      simp only [filter_cons]
      split <;> simp [hzero]
    rw [hsum]
    exact h.paid t a

theorem addLine {p : PayoutLine} {l : PayoutLink} (hl : l ∈ b.links)
    (hof : LineOf p l) (hid : ∀ x ∈ b.lines, x.lineId ≠ p.lineId) (hs : p.state = .pending)
    (hr : p.receiptHash = none)
    (hone : ∀ x ∈ b.lines, x.linkId = p.linkId → x.stream = p.stream → x.state ≠ .pending)
    (hbound : p.stream = .earned →
      p.targetTotal + b.others p.tenantId p.accountId p.linkId ≤ peak p.tenantId p.accountId) :
    (b.addLine p).Inv rail peak := by
  have hmem : ∀ x, x ∈ b.lines ++ [p] ↔ x ∈ b.lines ∨ x = p := by simp
  have hopen : p.state ≠ .confirmed := by simp [hs]
  refine { h with
    lineIds := Table.append_key h.lineIds hid
    lineOf := forall_mem_append.2 ⟨h.lineOf, forall_mem_singleton.2 ⟨l, hl, hof⟩⟩
    confirmed := forall_mem_append.2 ⟨h.confirmed, forall_mem_singleton.2 fun hc => absurd hc hopen⟩
    bound := forall_mem_append.2 ⟨h.bound, forall_mem_singleton.2 fun _ he => hbound he⟩
    onePending := ?_, oneReceipt := ?_
    unused := fun id s q hq hno => h.unused id s q hq fun x hx => hno x (mem_append_left _ hx) }
  · intro x hx y hy hlink hstream h1 h2
    rcases (hmem x).1 hx with hx' | rfl <;> rcases (hmem y).1 hy with hy' | rfl
    · exact h.onePending x hx' y hy' hlink hstream h1 h2
    · exact absurd h1 (hone x hx' hlink hstream)
    · exact absurd h2 (hone y hy' hlink.symm hstream.symm)
    · rfl
  · intro x hx y hy z h1 h2
    rcases (hmem x).1 hx with hx | rfl <;> rcases (hmem y).1 hy with hy | rfl
    · exact h.oneReceipt x hx y hy z h1 h2
    · rw [hr] at h2; cases h2
    · rw [hr] at h1; cases h1
    · rfl

/-- Updating lines keeps the books when no line becomes pending and every receipt is one line's,
of a record of its program. -/
theorem mapLines {f : PayoutLine → PayoutLine} (hf : ∀ p, PayoutLine.Same p (f p))
    (hpending : ∀ p ∈ b.lines, (f p).state = .pending → p.state = .pending)
    (hconfirmed : ∀ p ∈ b.lines, (f p).state = .confirmed → ∃ r ∈ b.ledger,
      (f p).receiptHash = some r.receiptHash ∧ (f p).delta = r.delta ∧
        rail.streamProgram p.linkId p.stream = some r.program)
    (hreceipt : ∀ p ∈ b.lines, ∀ p' ∈ b.lines, ∀ x, (f p).receiptHash = some x →
      (f p').receiptHash = some x → p = p') :
    ({ b with lines := b.lines.map f } : Books).Inv rail peak := by
  refine { h with
    lineIds := ?_, lineOf := ?_, onePending := ?_, confirmed := ?_, oneReceipt := ?_
    unused := ?_, bound := ?_ }
  · simp only [map_map]
    rw [show (fun p : PayoutLine => p.lineId) ∘ f = (·.lineId) from funext fun p => (hf p).lineId]
    exact h.lineIds
  · refine forall_mem_map.2 fun p hp => ?_
    obtain ⟨l, hl, hof⟩ := h.lineOf p hp
    exact ⟨l, hl, hof.linkId.trans (hf p).linkId.symm, hof.tenantId.trans (hf p).tenantId.symm,
      hof.accountId.trans (hf p).accountId.symm, hof.started,
      fun hs => hof.live (hpending p hp hs), fun hs => hof.program ((hf p).stream ▸ hs)⟩
  · refine forall_mem_map.2 fun p hp => forall_mem_map.2 fun p' hp' hlink hstream h1 h2 => ?_
    rw [(hf p).linkId, (hf p').linkId] at hlink
    rw [(hf p).stream, (hf p').stream] at hstream
    rw [h.onePending p hp p' hp' hlink hstream (hpending p hp h1) (hpending p' hp' h2)]
  · refine forall_mem_map.2 fun p hp hc => ?_
    rw [(hf p).linkId, (hf p).stream]
    exact hconfirmed p hp hc
  · refine forall_mem_map.2 fun p hp => forall_mem_map.2 fun p' hp' x h1 h2 => ?_
    rw [hreceipt p hp p' hp' x h1 h2]
  · intro id s q hq hno
    refine h.unused id s q hq fun p hp hid hs => ?_
    exact hno _ (mem_map_of_mem hp) ((hf p).linkId.trans hid) ((hf p).stream.trans hs)
  · refine forall_mem_map.2 fun p hp hs he => ?_
    rw [(hf p).targetTotal, (hf p).tenantId, (hf p).accountId, (hf p).linkId]
    exact h.bound p hp (hpending p hp hs) ((hf p).stream ▸ he)

/-- Resolving a pending line keeps the books; a confirmation must name a record of the line's
program that no line has claimed. -/
theorem resolve {p : PayoutLine} (hp : p ∈ b.lines)
    (hs : p.state = .pending) (r : PayoutLineResolution)
    (hrec : ∀ x d, r = .confirmed x d → (∃ e ∈ b.ledger, e.receiptHash = x ∧ e.delta = d ∧
      rail.streamProgram p.linkId p.stream = some e.program) ∧
      ∀ y ∈ b.lines, y.receiptHash ≠ some x) :
    (b.updateLine p.tenantId p.lineId (·.resolve r)).Inv rail peak := by
  have hrow : ∀ x ∈ b.lines,
      x = p ∧ (if x.tenantId = p.tenantId ∧ x.lineId = p.lineId then x.resolve r else x) =
        p.resolve r ∨
      x ≠ p ∧ (if x.tenantId = p.tenantId ∧ x.lineId = p.lineId then x.resolve r else x) = x := by
    intro x hx
    by_cases hxp : x = p
    · subst hxp
      exact .inl ⟨rfl, if_pos ⟨rfl, rfl⟩⟩
    · exact .inr ⟨hxp, if_neg fun hi => hxp (h.line_ext hx hp hi.2)⟩
  have hnew : ∀ x, (p.resolve r).receiptHash = some x →
      p.receiptHash = some x ∨ ∃ d, r = .confirmed x d := fun x hx => by
    cases r with
    | confirmed y d => exact .inr ⟨d, by cases hx; rfl⟩
    | noOp | held | failed | retry => exact .inl hx
  refine h.mapLines (fun x => ?_) (fun x hx hxs => ?_) (fun x hx hc => ?_)
    fun x hx y hy z h1 h2 => ?_
  · split
    · exact x.resolve_same r
    · exact .refl x
  · obtain ⟨rfl, -⟩ | ⟨-, e⟩ := hrow x hx
    · exact hs
    · exact e ▸ hxs
  · obtain ⟨rfl, e⟩ | ⟨-, e⟩ := hrow x hx <;> rw [e] at hc ⊢
    · cases r with
      | confirmed y d =>
        obtain ⟨⟨g, hg, rfl, rfl, hq⟩, -⟩ := hrec y d rfl
        exact ⟨g, hg, rfl, rfl, hq⟩
      | noOp | held | failed => cases hc
      | retry label => exact absurd (hs.symm.trans hc) (by decide)
    · exact h.confirmed x hx hc
  · obtain ⟨rfl, e⟩ | ⟨-, e⟩ := hrow x hx <;> obtain ⟨hyp, e'⟩ | ⟨-, e'⟩ := hrow y hy
    · exact hyp.symm
    all_goals rw [e] at h1; rw [e'] at h2
    · obtain h1 | ⟨d, hr⟩ := hnew z h1
      · exact h.oneReceipt x hx y hy z h1 h2
      · exact absurd h2 ((hrec z d hr).2 y hy)
    · obtain h2 | ⟨d, hr⟩ := hnew z h2
      · exact h.oneReceipt x hx y hy z h1 (hyp ▸ h2)
      · exact absurd h1 ((hrec z d hr).2 x hx)
    · exact h.oneReceipt x hx y hy z h1 h2

end

section send

variable (h : b.Inv rail peak) {p : PayoutLine} (hp : p ∈ b.lines) (hs : p.state = .pending)
  {line : RailLine} (hq : rail.streamProgram p.linkId p.stream = some line.program)
  (htarget : line.targetTotal = p.targetTotal)

include hq in
/-- A send for a line touches the total of the line's own program only. -/
theorem send_total_other {id : Uuid} {s : PayoutStream} {q : String}
    (hid : rail.streamProgram id s = some q) (hne : id = p.linkId → s ≠ p.stream) :
    (b.ledger.send rail line).2.total q = b.ledger.total q := by
  rw [Ledger.send_total, if_neg]
  rintro rfl
  obtain ⟨e, e'⟩ := Rail.streamProgram_inj hid hq
  exact hne e e'

include h hp hs hq in
/-- The other links of a pending line's account keep their totals when another of the account's
pending lines is sent: they are on the same link. -/
theorem send_others {p' : PayoutLine} (hp' : p' ∈ b.lines) (hs' : p'.state = .pending) :
    (b.send rail line).others p'.tenantId p'.accountId p'.linkId =
      b.others p'.tenantId p'.accountId p'.linkId := by
  refine congrArg sum (map_congr_left fun l hl => ?_)
  obtain ⟨hl, hcond⟩ := mem_filter.1 hl
  simp only [Bool.and_eq_true, decide_eq_true_eq, PayoutLink.ofAccount_iff] at hcond
  obtain ⟨⟨ht, ha⟩, hne⟩ := hcond
  refine send_total_other hq (h.stream hl) fun hid _ => hne ?_
  obtain ⟨x, hx, hof⟩ := h.lineOf p hp
  obtain ⟨y, hy, hof'⟩ := h.lineOf p' hp'
  obtain rfl := h.link_ext hl hx (hid.trans hof.linkId.symm)
  rw [← hof'.linkId, h.oneLive l hl y hy (ht.trans hof'.tenantId.symm) (ha.trans hof'.accountId.symm)
    (hof.live hs) (hof'.live hs')]

include h hp hs hq htarget in
theorem send_paid (t : String) (a : Uuid) : (b.send rail line).paid t a ≤ peak t a := by
  obtain ⟨l, hl, hof⟩ := h.lineOf p hp
  by_cases hacc : p.stream = .earned ∧ l.tenantId = t ∧ l.accountId = a
  · obtain ⟨he, rfl, rfl⟩ := hacc
    have hprogram : line.program = l.program := by
      rw [he, ← hof.linkId, h.stream hl] at hq
      exact (Option.some.inj hq).symm
    -- The other links keep their totals; the line's own goes to its target at most.
    have hothers := h.send_others hp hs hq hp hs
    have hbound := h.bound p hp hs he
    have hpaid := paid_eq h.ids hl
    have hpaid' : (b.send rail line).paid l.tenantId l.accountId =
        (b.ledger.send rail line).2.total l.program +
          (b.send rail line).others l.tenantId l.accountId l.linkId :=
      paid_eq (b := b.send rail line) h.ids hl
    rw [hof.tenantId, hof.accountId, hof.linkId, hothers, Ledger.send_total,
      if_pos hprogram.symm, htarget] at hpaid'
    rw [hof.tenantId, hof.accountId, hof.linkId] at hpaid
    have hle := h.paid p.tenantId p.accountId
    rw [hof.tenantId, hof.accountId, hpaid']
    omega
  · have hsame : (b.send rail line).paid t a = b.paid t a := by
      refine congrArg sum (map_congr_left fun x hx => ?_)
      obtain ⟨hx, hcond⟩ := mem_filter.1 hx
      obtain ⟨ht, ha⟩ := PayoutLink.ofAccount_iff.1 hcond
      refine send_total_other hq (h.stream hx) fun hid hstream => hacc ?_
      obtain rfl := h.link_ext hx hl (hid.trans hof.linkId.symm)
      exact ⟨hstream.symm, ht, ha⟩
    rw [hsame]
    exact h.paid t a

include h hp hs hq htarget in
theorem send : (b.send rail line).Inv rail peak := by
  obtain ⟨l, hl, hof⟩ := h.lineOf p hp
  refine { h with
    final := ?_, confirmed := ?_, receipts := ?_, unused := ?_, bound := ?_
    paid := h.send_paid hp hs hq htarget }
  · intro x hx hc
    -- The sent line's link is live, so a closed link's programs keep their totals.
    have hne : x.linkId ≠ p.linkId := fun hid => by
      obtain rfl := h.link_ext hx hl (hid.trans hof.linkId.symm)
      have hlive := hof.live hs
      rw [hc] at hlive
      cases hlive
    obtain ⟨h1, h2⟩ := h.final x hx hc
    refine ⟨?_, ?_⟩
    · rw [h1]
      exact congrArg some (send_total_other hq (h.stream hx) fun hid => absurd hid hne).symm
    rw [h2]
    cases hr : x.referralProgram with
    | none => rfl
    | some q =>
      exact congrArg some (send_total_other (s := .referral) hq (h.referral x hx q hr)
        fun hid => absurd hid hne).symm
  · intro x hx hc
    obtain ⟨r, hr, hfacts⟩ := h.confirmed x hx hc
    exact ⟨r, Ledger.mem_send hr, hfacts⟩
  · intro i r hi
    change (b.ledger.send rail line).2[i]? = some r at hi
    rcases b.ledger.send_cases rail line with e | e <;> rw [e] at hi
    · exact h.receipts i r hi
    rw [getElem?_append] at hi
    split at hi
    · exact h.receipts i r hi
    rw [getElem?_singleton] at hi
    split at hi
    · cases hi
      rw [show i = b.ledger.length by omega]
    · cases hi
  · intro id s q hid hno
    change (b.ledger.send rail line).2.total q = 0
    rw [send_total_other hq hid fun e => (hno p hp e.symm).symm]
    exact h.unused id s q hid hno
  · intro x hx hxs he
    rw [h.send_others hp hs hq hx hxs]
    exact h.bound x hx hxs he

end send

end Inv

end Books

end TraceCommons.Payout
