import TraceCommons.Payout.PassLogic

/-! # What a payout pass keeps

One triple for each function of the pass, from the calls up to a whole run. -/

namespace TraceCommons.Payout

open Conc Option

variable {rail : Rail} {F : BookFact rail} {α β : Type} {t : String} {a : Uuid}

/-! ## Programs that leave the books alone -/

/-- Whatever is known of the books is still known after. -/
def Calm (rail : Rail) (x : PassM α) : Prop := ∀ F : BookFact rail, PassTriple rail F x fun _ => F

namespace Calm

theorem bind {x : PassM α} {f : α → PassM β} (hx : Calm rail x) (hf : ∀ a, Calm rail (f a)) :
    Calm rail (x >>= f) :=
  fun F => (hx F).bind fun a => hf a F

theorem pure (a : α) : Calm rail (Pure.pure a : PassM α) := fun _ => .pure fun _ _ h => h

theorem raise (e : Halt) : Calm rail (Proc.raise e : PassM α) := fun _ => .raise

theorem store {o : StoreOp} (ho : o.writesBooks = false) : Calm rail (Payout.store o) :=
  fun _ => .quiet ho fun _ _ _ _ _ _ _ hf _ => hf

theorem storeCall {o : StoreOp} (ho : o.writesBooks = false) :
    Calm rail (Payout.storeCall o) := by
  refine fun _ => .moved fun peak c s r s' hi e => ?_
  rcases PayState.reply_cases (some.inj e) with ⟨-, rfl⟩ | ⟨a, db, hrun, rfl, -⟩
  · exact ⟨.of_eq hi rfl rfl, rfl⟩
  · obtain ⟨hlinks, hlines, -⟩ := StoreOp.run_books ho hrun
    exact ⟨.of_eq hi hlinks hlines, rfl⟩

theorem onReport (f : PayoutPassReport → PayoutPassReport) : Calm rail (Payout.onReport f) :=
  fun _ => .setLocals

theorem skip (label : String) : Calm rail (Payout.skip label) := onReport _

theorem spend (b : BudgetRef) : Calm rail (Payout.spend b) := fun _ => .setLocals

theorem budgetOf (b : BudgetRef) : Calm rail (Payout.budgetOf b) :=
  bind (fun _ => .locals) fun _ => pure _

theorem checkHalt : Calm rail Payout.checkHalt := by
  refine bind (store rfl) fun halted => ?_
  split
  · exact raise _
  · exact pure _

theorem hold (stream : PayoutStream) (label : String) :
    Calm rail (Payout.hold t a stream label) := by
  refine bind (store rfl) fun opened => ?_
  split
  · exact onReport _
  · exact pure _

theorem streamHeld (stream : PayoutStream) : Calm rail (Payout.streamHeld t a stream) :=
  bind (store rfl) fun _ => pure _

theorem standingHold (stream : PayoutStream) : Calm rail (Payout.standingHold t a stream) := by
  refine bind (store rfl) fun standing => ?_
  split
  · exact pure _
  refine bind (streamHeld _) fun held => ?_
  split
  · split <;> exact pure _
  · exact pure _

theorem clearOverCeiling (label cleared : String) :
    Calm rail (Payout.clearOverCeiling t a label cleared) := by
  refine bind (store rfl) fun done => ?_
  split
  · exact skip _
  · exact pure _

theorem stopReferral (label : String) : Calm rail (PayoutPass.stopReferral label) :=
  fun _ => .setLocals

variable (p : PayoutPass)

theorem countReferralDryRun (link : PayoutLink) :
    Calm rail (p.countReferralDryRun t a link) := by
  refine bind (standingHold _) fun held => ?_
  split
  · exact skip _
  refine bind (store rfl) fun owed => ?_
  split
  · exact skip _
  split
  · exact skip _
  refine bind (store rfl) fun closed => bind (store rfl) fun confirmed => ?_
  split
  · exact pure _
  · exact onReport _

theorem countEarnedDryRun (link : PayoutLink) : Calm rail (p.countEarnedDryRun t a link) := by
  refine bind (standingHold _) fun held => ?_
  split
  · exact skip _
  refine bind (store rfl) fun owed => ?_
  split
  · exact skip _
  split
  · exact skip _
  refine bind (store rfl) fun closed => bind (store rfl) fun confirmed => ?_
  split
  · exact pure _
  · exact onReport _

theorem countDryRun (links : AccountLinks) : Calm rail (p.countDryRun t a links) := by
  unfold PayoutPass.countDryRun
  split
  · exact pure _
  · split
    · exact bind (countReferralDryRun p _) fun _ => countEarnedDryRun p _
    · exact countEarnedDryRun p _

theorem referralRun : Calm rail p.referralRun := by
  unfold PayoutPass.referralRun
  split
  · exact fun _ => .setLocals
  · exact fun _ => .setLocals
  refine bind (storeCall rfl) fun control => ?_
  split
  · exact stopReferral _
  · exact fun _ => .setLocals
  split
  · exact stopReferral _
  split
  · exact fun _ => .setLocals
  refine bind (fun _ => .preflight) fun capacity => ?_
  split
  · exact stopReferral _
  split
  · exact fun _ => .setLocals
  · exact stopReferral _

theorem readCapacity : Calm rail p.readCapacity := by
  unfold PayoutPass.readCapacity
  split
  · refine bind (fun _ => .preflight) fun capacity => ?_
    split
    · exact raise _
    split
    · exact fun _ => .setLocals
    · exact raise _
  · exact pure _

theorem runReferralBonus : Calm rail (p.runReferralBonus t) := by
  unfold PayoutPass.runReferralBonus
  split
  · refine bind (fun _ => .referralBonusHook) fun tripped => ?_
    split
    · exact fun _ => .setLocals
    · exact pure _
  · exact pure _

end Calm

namespace PassTriple

theorem after {x : PassM α} {f : α → PassM β} {Q : β → BookFact rail} (hx : Calm rail x)
    (hf : ∀ a, PassTriple rail F (f a) Q) : PassTriple rail F (x >>= f) Q :=
  (hx F).bind hf

theorem forget {x : PassM α} (hx : PassTriple rail .top x fun _ => .top) :
    PassTriple rail F x fun _ => .top :=
  hx.pre fun _ _ _ => trivial

end PassTriple

theorem Calm.top {x : PassM α} (hx : Calm rail x) : PassTriple rail F x fun _ => .top :=
  (hx F).weaken

/-! ## Lines -/

section line

variable {stream : PayoutStream} {line : PayoutLine} {label : String}

theorem endLine_keeps (hF : F.Settled) :
    PassTriple rail F (endLine t a stream line label) fun _ => F :=
  (PassTriple.resolveOther hF rfl).bind fun _ => Calm.hold _ _ F

theorem failLine_keeps (hF : F.Settled) :
    PassTriple rail F (failLine t a stream line label) fun _ => F :=
  (PassTriple.resolveOther hF rfl).bind fun _ => Calm.hold _ _ F

theorem refused_keeps {link : PayoutLink} (refusal : RailRefusal) :
    PassTriple rail F (refused t a stream link line refusal) fun _ => .top := by
  refine .forget ?_
  cases refusal with
  | retry _ => exact (PassTriple.resolveOther .top rfl).bind fun _ => Calm.onReport _ _
  | stopPass _ => exact .raise
  | holdLine _ => exact endLine_keeps .top
  | recipientUnavailable =>
    exact (PassTriple.resolveOther .top rfl).bind fun _ =>
      PassTriple.markPayoutLinkRecipientUnavailable.bind fun _ => .pure fun _ _ h => h
  | failed _ => exact failLine_keeps .top

theorem refusedWithoutLine_keeps {link : PayoutLink} (refusal : RailRefusal) :
    PassTriple rail F (refusedWithoutLine t a stream link refusal) fun _ => .top := by
  cases refusal with
  | retry _ => exact (Calm.skip _).top
  | stopPass _ => exact .raise
  | holdLine | failed => exact (Calm.hold _ _).top
  | recipientUnavailable =>
    exact PassTriple.markPayoutLinkRecipientUnavailable.bind fun _ => .pure fun _ _ h => h

end line

theorem railLine_eq_some {program : String} {line : PayoutLine} {rl : RailLine}
    (h : railLine program line = some rl) :
    rl.program = program ∧ rl.targetTotal = line.targetTotal := by
  simp only [railLine, bind_eq_some_iff, RailLine.new] at h
  obtain ⟨c, -, h⟩ := h
  split at h
  · cases h
  · obtain ⟨d, -, rfl⟩ := map_eq_some_iff.1 h
    exact ⟨rfl, rfl⟩

section send

variable {on : On} {line : PayoutLine} {rl : RailLine}

/-- A match is a record of the line's own program, whatever was excluded before. -/
theorem matchReceiptFrom_keeps (hF : F.Settled)
    (hq : rail.streamProgram line.linkId line.stream = some rl.program) (n : Nat)
    (exclude : List String) :
    PassTriple rail (F.and (.lineKnown line)) (matchReceiptFrom t on line rl n exclude)
      fun _ => F.and (.lineKnown line) := by
  induction n generalizing exclude with
  | zero => exact Calm.pure _ _
  | succ n ih =>
    refine PassTriple.findReceipt.bind fun r => ?_
    rcases r with _ | r
    · exact Calm.pure _ _
    cases r with
    | notFound => exact Calm.pure _ _
    | found x d =>
      refine .after (.store rfl) fun claimed => ?_
      split
      · exact (ih _).pre fun _ _ h => h.1
      refine (PassTriple.resolveConfirmed hF hq).bind fun done => ?_
      cases done with
      | resolved => exact .after (.onReport _) fun _ => Calm.pure _ _
      | receiptAlreadyClaimed => exact ih _
      | notPending => exact Calm.pure _ _

theorem matchReceipt_keeps (hF : F.Settled)
    (hq : rail.streamProgram line.linkId line.stream = some rl.program) :
    PassTriple rail (F.and (.lineKnown line)) (matchReceipt t on line rl)
      fun _ => F.and (.lineKnown line) :=
  matchReceiptFrom_keeps hF hq _ _

theorem sendCommitted_keeps {q receipt : String} {delta : Nat} {totalAfter : Option Nat}
    (hq : rail.streamProgram line.linkId line.stream = some q) :
    PassTriple rail (.and (.lineKnown line) (.recorded q receipt delta))
      (sendCommitted t a on line receipt delta totalAfter) fun _ => .top := by
  refine PassTriple.bind ((PassTriple.resolveConfirmed .top hq).pre
    fun _ _ h => ⟨⟨trivial, h.1⟩, h.2⟩) fun done => .forget ?_
  have hfinish : Calm rail (if totalAfter.any (· ≠ line.targetTotal) then
      hold t a on.stream payoutProgramTotalMismatch else Pure.pure ()) := by
    split
    · exact .hold _ _
    · exact .pure _
  cases done with
  | resolved => exact .after (.onReport _) fun _ => hfinish _
  | receiptAlreadyClaimed => exact endLine_keeps .top
  | notPending =>
    refine .after (.store rfl) fun claimed => ?_
    split
    · exact .after (.skip _) fun _ => hfinish _
    · exact Calm.hold _ _ _

/-- A line is sent only while its row is pending, into its own program. -/
theorem sendLine_keeps {link : PayoutLink} {program : String} {b : BudgetRef}
    (hq : rail.streamProgram line.linkId line.stream = some program) :
    PassTriple rail (.linePending line) (sendLine t a on link program line b) fun _ => .top := by
  refine .after .checkHalt fun _ => ?_
  split
  · exact .forget (failLine_keeps .top)
  rename_i rl hrl
  obtain ⟨rfl, htarget⟩ := railLine_eq_some hrl
  refine .after (.spend b) fun _ => .after (.onReport _) fun _ =>
    (PassTriple.railSend hq htarget).bind fun r => ?_
  rcases r with refusal | out
  · exact refused_keeps _
  cases out with
  | committed receipt delta totalAfter => exact sendCommitted_keeps hq
  | alreadyAtOrAbove total =>
    dsimp only
    split
    · exact .forget (endLine_keeps .top)
    refine PassTriple.bind ((matchReceipt_keeps .top hq).pre fun _ _ h => ⟨trivial, h⟩)
      fun matched => .forget ?_
    cases matched with
    | confirmed => exact Calm.pure _ _
    | unmatched => exact endLine_keeps .top
    | refused refusal => exact refused_keeps _

end send

/-! ## Paying -/

namespace PayoutPass

variable {p : PayoutPass} {on : On} {link : PayoutLink} {program : String} {b : BudgetRef}

/-- A new line's target leaves room for what the closed links recorded. -/
theorem newLine_keeps {next : NewLine}
    (hq : rail.streamProgram link.linkId on.stream = some program)
    (hbound : on.stream = .earned → ∀ peak b, F.holds peak b →
      next.targetFull + b.closedFinal t a ≤ peak t a) :
    PassTriple rail F (p.newLine t a on link program next b) fun _ => .top := by
  refine .after (.budgetOf b) fun budget => ?_
  split
  · exact (Calm.skip _).top
  split
  · exact (Calm.skip _).top
  refine .after (.spend b) fun _ => PassTriple.readTotal.bind fun r => ?_
  rcases r with refusal | programTotal
  · exact refusedWithoutLine_keeps _
  refine .pre (G := F) ?_ fun _ _ h => h.1
  dsimp only
  split
  · exact (Calm.hold _ _).top
  split
  · exact (Calm.hold _ _).top
  refine .after .checkHalt fun _ => PassTriple.newUuid.bind fun lineId => ?_
  refine PassTriple.bind (PassTriple.insertPendingPayoutLine rfl (fun hs peak b hf => ?_)
    fun q hq' => ?_) fun done => ?_
  · have hcap := cappedStreamTarget_le next.targetFull programTotal budget.perSendMax
    exact (Nat.add_le_add_right hcap _).trans (hbound hs _ b hf)
  · split at hq'
    next hs =>
      cases hq'
      rw [hs] at hq
      exact hq
    next => cases hq'
  cases done with
  | inserted => exact sendLine_keeps hq
  | referralProgramMismatch => exact (Calm.hold _ _).top
  | _ => exact (Calm.skip _).top

/-- What is due on a stream is what is owed less what the closed links recorded. -/
theorem payOwed_keeps {owed owedCount : Nat} {closedFinal : StoreOp}
    {read : closedFinal.Result → Nat} {nothingOwed : String} {C : closedFinal.Result → BookFact rail}
    (hq : rail.streamProgram link.linkId on.stream = some program)
    (hclosed : PassTriple rail F (store closedFinal) C)
    (hC : on.stream = .earned → ∀ r n peak b, n + read r = owed → (C r).holds peak b →
      n + b.closedFinal t a ≤ peak t a) :
    PassTriple rail F
      (p.payOwed t a on link program owed owedCount closedFinal read nothingOwed b)
      fun _ => .top := by
  refine PassTriple.pendingPayoutLineForStream.bind fun pending => ?_
  cases pending with
  | some line =>
    refine .pre (G := (BookFact.linePending _).and _) (.lift fun hline => ?_) fun _ _ h => h.2
    refine .after (.budgetOf b) fun budget => ?_
    split
    · exact (Calm.skip _).top
    · exact sendLine_keeps (by rw [hline.1, hline.2, hq])
  | none =>
    refine hclosed.bind fun closed => .after (.store rfl) fun confirmed => ?_
    split
    · split
      · exact (Calm.skip _).top
      · exact (Calm.pure _).top
    next n hn =>
      exact newLine_keeps hq fun hs peak b hc => hC hs _ n _ b (streamTarget_eq_some.1 hn).1 hc

theorem pay_keeps (hlink : Snap rail link) :
    PassTriple rail .top (p.pay t a link) fun _ => .top := by
  unfold pay
  split
  · exact Calm.skip _ _
  refine .after (.store rfl) fun standing => ?_
  split
  · exact Calm.skip _ _
  refine PassTriple.payoutOwed.bind fun owed => ?_
  cases howed : owed.net with
  | none => exact (Calm.hold _ _).top
  | some owedNet =>
    dsimp only
    split
    · exact (Calm.hold _ _).top
    refine .after (.clearOverCeiling _ _) fun _ => .after (.streamHeld _) fun held => ?_
    split
    · exact (Calm.skip _).top
    split
    · exact (Calm.hold _ _).top
    refine payOwed_keeps (by rw [hlink.program]; rfl) .payoutClosedLinksFinalPaid ?_
    rintro - _ n _ b hn ⟨⟨-, hseen⟩, hclosed⟩
    exact (congrArg _ hclosed).le.trans (hn.le.trans hseen)

theorem referralProgram_eq_some (hp : p.rail = rail) (hlink : Snap rail link)
    (h : p.referralProgram link = some program) :
    rail.streamProgram link.linkId .referral = some program := by
  simp only [referralProgram, filter_eq_some_iff, or_eq_some_iff, hp] at h
  rcases h.1 with h | ⟨-, h⟩
  · exact hlink.referral _ h
  · exact h

theorem payReferral_keeps (hp : p.rail = rail) (hlink : Snap rail link) :
    PassTriple rail .top (p.payReferral t a link b) fun _ => .top := by
  unfold payReferral
  split
  · exact Calm.skip _ _
  rename_i on hon
  have hstream : on.stream = .referral := by
    unfold referralRail at hon
    split at hon <;> cases hon
    rfl
  split
  · exact Calm.skip _ _
  refine .after (.store rfl) fun standing => ?_
  split
  · exact Calm.skip _ _
  refine .after (.store rfl) fun owed => ?_
  split
  · exact Calm.hold _ _ _
  split
  · exact Calm.pure _ _
  split
  · exact Calm.hold _ _ _
  refine .after (.clearOverCeiling _ _) fun _ => .after (.streamHeld _) fun held => ?_
  split
  · exact Calm.skip _ _
  split
  · exact Calm.hold _ _ _
  split
  · exact Calm.skip _ _
  rename_i program hprogram
  refine payOwed_keeps ?_ (Calm.store rfl _) fun hs => ?_
  · rw [hstream]
    exact referralProgram_eq_some hp hlink hprogram
  · rw [hstream] at hs
    cases hs

/-! ## Closing -/

theorem foldlM_checkedAdd {bits : Nat} {entries : List RailRecord} {start n : Nat}
    (h : entries.foldlM (fun sum entry => checkedAdd bits sum entry.delta) start = some n) :
    start + (entries.map (·.delta)).sum = n := by
  induction entries generalizing start with
  | nil => simpa using h
  | cons e entries ih =>
    simp only [List.foldlM_cons, bind_eq_bind, bind_eq_some_iff, checkedAdd_eq_some] at h
    obtain ⟨m, ⟨-, rfl⟩, h⟩ := h
    rw [List.map_cons, List.sum_cons, ← add_assoc, ih h]

/-- The total the pass reads for a close is the rail's. -/
def totalRead (F : BookFact rail) (program : String) : Option Nat → BookFact rail
  | some n => F.and (.railTotal program n)
  | none => F

theorem programTotal_keeps :
    PassTriple rail F (programTotal on program) (totalRead F program) := by
  refine PassTriple.readTotal.bind fun r => ?_
  rcases r with refusal | _
  · cases refusal with
    | recipientUnavailable =>
      refine PassTriple.history.bind fun r => ?_
      rcases r with refusal | _
      · cases refusal with
        | stopPass label => exact .raise
        | _ => exact .pure fun _ _ h => h
      · refine .pure fun peak b h => ?_
        unfold totalRead
        split
        next n hn =>
          refine ⟨h.1, h.2.trans ?_⟩
          rw [← foldlM_checkedAdd hn, zero_add]
        next => exact h.1
    | stopPass label => exact .raise
    | _ => exact .pure fun _ _ h => h
  · exact .pure fun _ _ h => h

theorem settlePending_keeps (hF : F.Settled) {total : Nat} {line : PayoutLine}
    (hq : rail.streamProgram line.linkId line.stream = some program) :
    PassTriple rail (F.and (.lineKnown line)) (settlePending t a on program total line)
      fun _ => F := by
  unfold settlePending
  split
  · split
    · exact .pure fun _ _ h => h.1
    next rl hrl =>
      obtain ⟨rfl, -⟩ := railLine_eq_some hrl
      refine (matchReceipt_keeps hF hq).bind fun matched => ?_
      refine .pre (G := F) ?_ fun _ _ h => h.1
      cases matched with
      | confirmed => exact Calm.pure _ _
      | unmatched => exact (endLine_keeps hF).bind fun _ => Calm.pure _ _
      | refused refusal =>
        cases refusal with
        | stopPass label => exact .raise
        | _ => exact Calm.pure _ _
  · refine .pre (G := F) ?_ fun _ _ h => h.1
    refine (PassTriple.resolveOther hF rfl).bind fun done => ?_
    cases done with
    | resolved => exact .after (.onReport _) fun _ => Calm.pure _ _
    | _ => exact Calm.pure _ _

theorem settleStreamForClose_keeps (hF : F.Settled)
    (hq : rail.streamProgram link.linkId on.stream = some program) :
    PassTriple rail F (settleStreamForClose t a link on program) (totalRead F program) := by
  refine programTotal_keeps.bind fun r => ?_
  cases r with
  | none => exact .pure fun _ _ h => h
  | some total =>
    refine PassTriple.pendingPayoutLineForStream.bind fun pending => ?_
    cases pending with
    | none => exact .pure fun _ _ h => h
    | some line =>
      have hF' : (F.and (.railTotal program total)).Settled := hF.and (.railTotal program total)
      refine .pre (G := ((F.and (.railTotal program total)).and (.lineKnown line)).and
        (.lift (line.linkId = link.linkId ∧ line.stream = on.stream))) (.lift fun hline => ?_) ?_
      · refine (settlePending_keeps hF' (by rw [hline.1, hline.2, hq])).bind fun settled => ?_
        split
        · exact .pure fun _ _ h => h
        · exact .pure fun _ _ h => h.1
      · rintro _ b ⟨hf, ⟨q, hmem, hsame, -⟩, hline⟩
        exact ⟨⟨hf, q, hmem, hsame⟩, hline⟩

/-- What the referral part of a close leaves for the close to record. -/
def referralRead (F : BookFact rail) (id : Uuid) : Option (Option Nat) → BookFact rail
  | some referral => F.and (.referralTotal id referral)
  | none => .top

theorem settleReferralForClose_keeps (hF : F.Settled) (hlink : Snap rail link) :
    PassTriple rail F (p.settleReferralForClose t a link) (referralRead F link.linkId) := by
  unfold settleReferralForClose
  split
  · exact .pure fun _ _ h => ⟨h, nofun⟩
  rename_i program hprogram
  refine .after (fun _ => .locals) fun l => ?_
  split
  next credential b through _ =>
    refine .after (.budgetOf b) fun budget => ?_
    split
    · exact .after (.skip _) fun _ => .pure fun _ _ _ => trivial
    have hq : rail.streamProgram link.linkId .referral = some program :=
      hlink.referral _ hprogram
    have hsettle : PassTriple rail F (settleStreamForClose t a link ⟨.referral, credential⟩ program)
        (totalRead F program) := settleStreamForClose_keeps hF hq
    refine .after (.spend b) fun _ => .bind (.attempt
      (A := PassTriple.onOk _ .top) hsettle (fun _ _ _ h => h)
      fun _ _ _ => trivial) fun r => ?_
    rcases r with halt | total
    · cases halt with
      | stop label =>
        dsimp only
        split
        · exact .after (.stopReferral _) fun _ => .pure fun _ _ _ => trivial
        · exact .raise
      | _ => exact .raise
    cases total with
    | none => exact .pure fun _ _ _ => trivial
    | some n =>
      refine .pure fun peak b h => ⟨h.1, fun m hm => ⟨program, hq, ?_⟩⟩
      cases hm
      exact h.2

/-- A link closes at the totals read before, which nobody else can change. -/
theorem closeLink_keeps (hlink : Snap rail link) {successor : Option PayoutLink} :
    PassTriple rail .top (p.closeLink t a link successor) fun _ => .top := by
  unfold closeLink
  split
  · exact .after (.hold _ _) fun _ => Calm.pure _ _
  refine .after (.spend _) fun _ => ?_
  refine (settleStreamForClose_keeps .top (by rw [hlink.program]; rfl)).bind fun r => ?_
  cases r with
  | none => exact Calm.pure _ _
  | some total =>
    refine (settleReferralForClose_keeps (.and .top (.railTotal _ _)) hlink).bind fun r => ?_
    cases r with
    | none => exact Calm.pure _ _
    | some referral =>
      refine PassTriple.bind (PassTriple.closePayoutLinkStreams.pre fun _ _ h => ⟨?_, h.2⟩)
        fun done => ?_
      · rw [← hlink.program]
        exact h.1.2
      · cases done <;> exact Calm.pure _ _

/-! ## A whole pass -/

theorem reloadLive_keeps :
    PassTriple rail F (reloadLive t a) fun link => F.and (.lift (∀ l ∈ link, Snap rail l)) :=
  PassTriple.payoutLiveLink

section

variable (hp : p.rail = rail)

include hp

theorem runReferralLive_keeps (hlink : Snap rail link) :
    PassTriple rail .top (p.runReferralLive t a link b) fun _ => .top := by
  refine reloadLive_keeps.bind fun live => .lift fun hlive => ?_
  have hsnap : Snap rail (live.getD link) := by
    cases live with
    | none => exact hlink
    | some l => exact hlive l rfl
  refine .bind (.attempt (A := fun _ => .top) (payReferral_keeps hp hsnap)
    (fun _ _ _ h => h) fun _ _ _ => trivial) fun r => ?_
  split
  · exact Calm.stopReferral _ _
  · exact .raise
  · exact Calm.pure _ _

theorem runReferral_keeps (hlink : Snap rail link) :
    PassTriple rail .top (p.runReferral t a link) fun _ => .top := by
  refine .after (fun _ => .locals) fun l => ?_
  split
  · exact Calm.pure _ _
  · exact Calm.pure _ _
  · exact Calm.countReferralDryRun p _ _
  · exact runReferralLive_keeps hp hlink
  · exact runReferralLive_keeps hp hlink

theorem payActive_keeps {active : Option PayoutLink} (hactive : ∀ l ∈ active, Snap rail l) :
    PassTriple rail .top (p.payActive t a active) fun _ => .top := by
  cases active with
  | none => exact Calm.pure _ _
  | some link =>
    exact (pay_keeps (hactive _ rfl)).bind fun _ => runReferral_keeps hp (hactive _ rfl)

/-- Every link of an account's is as the rail derives it. -/
structure Snaps (rail : Rail) (links : AccountLinks) : Prop where
  waiting : ∀ l ∈ links.waiting, Snap rail l
  active : ∀ l ∈ links.active, Snap rail l
  closing : ∀ l ∈ links.closing, Snap rail l

omit hp in
theorem applyRequests_keeps {links : AccountLinks} (hlinks : Snaps rail links) :
    PassTriple rail .top (applyRequests t links) fun r => .and .top (.lift
      (∀ x ∈ r, (∀ l ∈ x.1, Snap rail l) ∧ ∀ l ∈ x.2, Snap rail l)) := by
  have hnone : ∀ {F : BookFact rail}, PassTriple rail F
      (pure none : PassM (Option (Option PayoutLink × Option PayoutLink))) fun r => .and .top (.lift
        (∀ x ∈ r, (∀ l ∈ x.1, Snap rail l) ∧ ∀ l ∈ x.2, Snap rail l)) :=
    .pure fun _ _ _ => ⟨trivial, fun x hx => absurd hx (not_mem_none x)⟩
  unfold applyRequests
  split
  · refine .pure fun _ _ _ => ⟨trivial, fun x hx => ?_⟩
    cases hx
    exact ⟨fun l hl => absurd hl (not_mem_none l), hlinks.closing⟩
  next link hactive =>
    have hlink := hlinks.active link hactive
    split
    · refine PassTriple.transitionPayoutLink.bind fun done => ?_
      split
      · split
        · refine .pure fun _ _ _ => ⟨trivial, fun x hx => ?_⟩
          cases hx
          refine ⟨fun l hl => absurd hl (not_mem_none l), fun l hl => ?_⟩
          cases hl
          exact ⟨hlink.program, hlink.referral⟩
        · exact .after (.skip _) fun _ => hnone
      · exact .after (.skip _) fun _ => hnone
    · refine .pure fun _ _ _ => ⟨trivial, fun x hx => ?_⟩
      cases hx
      refine ⟨fun l hl => ?_, hlinks.closing⟩
      cases hl
      exact hlink

theorem runAccount_keeps {links : AccountLinks} (hlinks : Snaps rail links) :
    PassTriple rail .top (p.runAccount t a links) fun _ => .top := by
  have hpay : PassTriple rail .top (reloadLive t a >>= p.payActive t a) fun _ => .top :=
    reloadLive_keeps.bind fun live => .lift fun hlive => payActive_keeps hp hlive
  refine (applyRequests_keeps hlinks).bind fun r => .lift fun hr => ?_
  split
  · exact Calm.pure _ _
  next active link =>
    refine .after (.budgetOf _) fun budget => ?_
    split
    · exact Calm.skip _ _
    refine (closeLink_keeps ((hr _ rfl).2 _ rfl)).bind fun closed => ?_
    split
    · exact .after (.onReport _) fun _ => hpay
    · exact .after (.onReport _) fun _ => Calm.skip _ _
  next link => exact payActive_keeps hp (hr _ rfl).1
  next =>
    split
    · exact Calm.pure _ _
    refine PassTriple.transitionPayoutLink.bind fun done => ?_
    split
    · exact .after (.onReport _) fun _ => hpay
    · exact hpay

omit hp in
theorem accountLinks_snaps {links : List PayoutLink} (h : ∀ l ∈ links, Snap rail l) (a : Uuid) :
    Snaps rail (accountLinks links a) := by
  have hlast : ∀ f : PayoutLink → Bool, ∀ l ∈ (links.filter f).getLast?, Snap rail l :=
    fun f l hl => h l (List.mem_filter.1 (List.mem_of_getLast? hl)).1
  exact ⟨hlast _, hlast _, hlast _⟩

theorem runAccounts_keeps : PassTriple rail .top (p.runAccounts t) fun _ => .top := by
  refine PassTriple.payoutLinks.bind fun links => .lift fun hlinks => .forEach fun a _ => ?_
  split
  · exact runAccount_keeps hp (accountLinks_snaps hlinks a)
  · exact Calm.countDryRun p _ _

theorem runTenant_keeps : PassTriple rail .top (p.runTenant t) fun _ => .top := by
  unfold runTenant
  split
  on_goal 1 => refine PassTriple.releaseUnprovenLegacyCarries.bind fun _ => ?_
  all_goals
    refine PassTriple.accrueRailCall.bind fun r => ?_
    split
    · exact Calm.skip _ _
    · exact .after (.onReport _) fun _ => .after (.runReferralBonus p) fun _ => runAccounts_keeps hp

theorem runLocked_keeps : PassTriple rail .top p.runLocked fun _ => .top := by
  refine .after .checkHalt fun _ => .after (.store rfl) fun tenants => ?_
  refine .after (.onReport _) fun _ => ?_
  split
  · exact Calm.pure _ _
  · exact .after (.readCapacity p) fun _ => .after (.referralRun p) fun _ =>
      .forEach fun t _ => runTenant_keeps hp

/-- A pass that starts within the invariant stays within it, however far it gets. -/
theorem runOnce_safe {h : Hist PayState} (hi : RunInv rail h) :
    (p.runOnce).Safe (M := payMachine rail) (runInv rail) (fun _ _ => True) h := by
  unfold runOnce
  split
  · trivial
  split
  · trivial
  intro h' hr c r s hc
  obtain ⟨-, rfl⟩ := Prod.mk.inj (some.inj hc)
  have hi' : RunInv rail (h'.push h'.now) := (runInv _).again ((runInv _).rely hi hr)
  refine ⟨hi', ?_⟩
  rcases r with e | locked
  · trivial
  cases locked with
  | false => trivial
  | true =>
    refine .bind ((runLocked_keeps hp _ _ hi' ⟨hi', trivial⟩).mono ?_ hi')
    intro r h1 hi1 _ h2 hr2 c2 r2 s2 hc2
    obtain ⟨-, rfl⟩ := Prod.mk.inj (some.inj hc2)
    exact ⟨(runInv _).again ((runInv _).rely hi1 hr2), trivial⟩

end

end PayoutPass

end TraceCommons.Payout
