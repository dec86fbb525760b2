import TraceCommons.Admission.Ledger

/-! # What every run of the admission ledger keeps

A budget row holds at least the charges that can still be given back from it, since a submission
names the row and the cost of its last charge until the charge is released or written over. The
statement shows every charge and every refund, so that it accounts for every row to the unit. -/

namespace TraceCommons.Admission

open List

/-- What a submission can still ask back from a row. -/
def Submission.heldIn (row : Uuid × List Char) (s : Submission) : Nat :=
  if s.budgetKey = row ∧ s.lastCharged then s.lastCostBound else 0

def held (submissions : List Submission) (row : Uuid × List Char) : Nat :=
  (submissions.map (·.heldIn row)).sum

def Budget.usedIn (row : Uuid × List Char) (b : Budget) : Nat :=
  if b.key = row then b.costUsed else 0

/-- `cost_used` of the row, zero if there is none. -/
def used (budgets : List Budget) (row : Uuid × List Char) : Nat :=
  (budgets.map (·.usedIn row)).sum

/-- The account's spend over all policy versions that share the bucket. -/
def bucketSpend (budgets : List Budget) (account : Uuid) (raw : List Char) : Nat :=
  ((budgets.filter fun b =>
    b.account = account ∧ b.periodId = b.policyVersion ++ ':' :: raw).map (·.costUsed)).sum

/-- Every refund answers the submission's latest entry before it, and that entry is a charge of
the same cost to the same row. -/
def Settled (journal : List Entry) : Prop :=
  ∀ newer older id row cost, journal = newer ++ .refunded id row cost :: older →
    ∃ lease, older.find? (·.submission = id) = some (.reserved id lease row cost true)

/-- The lease of the submission's latest reservation. -/
def currentLease (journal : List Entry) (id : Uuid) : Option Uuid :=
  journal.findSome? (·.leaseOf id)

/-! ## Buckets -/

theorem colon_not_mem_version (p : BoundedPolicy) : ':' ∉ p.version := fun h =>
  absurd (p.versionChars ':' h) (by decide)

theorem bucketOf_append {version : List Char} (h : ':' ∉ version) (raw : List Char) :
    bucketOf (version ++ ':' :: raw) = raw := by
  have hdrop : (version ++ ':' :: raw).dropWhile (· ≠ ':') = ':' :: raw := by
    rw [dropWhile_append_of_pos]
    · simp
    · intro c hc
      simpa using fun he : c = ':' => h (he ▸ hc)
  rw [bucketOf, if_pos (by simp), hdrop, drop_one, tail_cons]

/-- A row's period is its policy version, a colon and the bucket. -/
def Budget.Versioned (b : Budget) : Prop :=
  ':' ∉ b.policyVersion ∧ ∃ raw, b.periodId = b.policyVersion ++ ':' :: raw

variable {b : Budget}

theorem Budget.Versioned.bucketOf_eq_iff (h : b.Versioned) (raw : List Char) :
    bucketOf b.periodId = raw ↔ b.periodId = b.policyVersion ++ ':' :: raw := by
  obtain ⟨hcolon, _, he⟩ := h
  rw [he, bucketOf_append hcolon]
  simp

theorem Ledger.periodSpend_eq {l : Ledger} (h : ∀ b ∈ l.budgets, b.Versioned) (account : Uuid)
    (raw : List Char) : l.periodSpend account raw = bucketSpend l.budgets account raw := by
  rw [periodSpend, bucketSpend, filter_congr]
  intro b hb
  simp [(h b hb).bucketOf_eq_iff]

/-! ## The debit -/

section

variable {l : Ledger} {account : Uuid} {raw period : List Char} {p : BoundedPolicy}

theorem ensureBudget_cases (l : Ledger) (account : Uuid) (period : List Char) (p : BoundedPolicy) :
    ensureBudget l account period p = l.budgets ∨
    (∀ b ∈ l.budgets, b.key ≠ (account, period)) ∧ ensureBudget l account period p =
      l.budgets ++ [⟨account, period, p.version, p.boundedAllowance, p.processingCostBound, 0⟩] := by
  unfold ensureBudget
  split
  · exact .inl rfl
  next h =>
    refine .inr ⟨fun b hb hk => h ?_, rfl⟩
    exact any_eq_true.2 ⟨b, hb, decide_eq_true hk⟩

theorem ensureBudget_key (h : (l.budgets.map Budget.key).Nodup) :
    ((ensureBudget l account period p).map Budget.key).Nodup := by
  rcases ensureBudget_cases l _ _ p with he | ⟨hne, he⟩
  · rwa [he]
  · rw [he]
    exact Table.append_key h hne

theorem ensureBudget_sum (w : Budget → Nat)
    (hw : w ⟨account, period, p.version, p.boundedAllowance, p.processingCostBound, 0⟩ = 0) :
    ((ensureBudget l account period p).map w).sum = (l.budgets.map w).sum := by
  rcases ensureBudget_cases l _ _ p with he | ⟨-, he⟩
  · rw [he]
  · rw [he]
    simp [hw]

theorem ensureBudget_versioned (h : ∀ b ∈ l.budgets, b.Versioned) :
    ∀ b ∈ ensureBudget l account (periodId p raw) p, b.Versioned := by
  rcases ensureBudget_cases l _ _ p with he | ⟨-, he⟩
  · rwa [he]
  rw [he]
  refine forall_mem_append.2 ⟨h, fun b hb => ?_⟩
  rw [mem_singleton.1 hb]
  exact ⟨colon_not_mem_version p, raw, rfl⟩

variable {budgets : List Budget}

theorem debit_paid {limit : Int} (h : debit l account raw p limit = .ok (.paid budgets)) :
    ∃ b ∈ ensureBudget l account (periodId p raw) p,
      b.key = (account, periodId p raw) ∧ b.policyVersion = p.version ∧
      budgets = Table.set Budget.key { b with costUsed := b.costUsed + p.processingCostBound }
        (ensureBudget l account (periodId p raw) p) ∧
      (l.periodSpend account raw + p.processingCostBound : Nat) ≤ limit := by
  have hspend : { l with budgets := ensureBudget l account (periodId p raw) p }.periodSpend account
      raw = l.periodSpend account raw := by
    rw [Ledger.periodSpend, Ledger.periodSpend, Table.sum_filter, Table.sum_filter]
    exact ensureBudget_sum _ (ite_self 0)
  unfold debit at h
  simp only [hspend] at h
  split at h
  · cases h
  rename_i b hb
  obtain ⟨hmem, hkey⟩ := Table.mem_of_find hb
  split at h
  · cases h
  rename_i hfrozen
  split at h
  · cases h
  split at h
  · cases h
  rename_i hlimit
  cases h
  push Not at hfrozen hlimit
  exact ⟨b, hmem, hkey, hfrozen.2.2, rfl, hlimit⟩

theorem sum_costUsed (h : (budgets.map Budget.key).Nodup) (hb : b ∈ budgets) (n : Nat)
    (w : Budget → Nat) : ((Table.set Budget.key { b with costUsed := n } budgets).map w).sum + w b =
      (budgets.map w).sum + w { b with costUsed := n } := by
  have hk : b.key = Budget.key { b with costUsed := n } := rfl
  exact Table.sum_set h hb hk w

theorem used_set (h : (budgets.map Budget.key).Nodup) (hb : b ∈ budgets) (n : Nat)
    (row : Uuid × List Char) :
    used (Table.set Budget.key { b with costUsed := n } budgets) row +
        (if b.key = row then b.costUsed else 0) =
      used budgets row + if b.key = row then n else 0 :=
  sum_costUsed h hb n (·.usedIn row)

/-- The charge goes to the one row, and the bucket grows by it. -/
theorem debit_spec {limit : Int} (hkeys : (l.budgets.map Budget.key).Nodup)
    (hver : ∀ b ∈ l.budgets, b.Versioned) (h : debit l account raw p limit = .ok (.paid budgets)) :
    (budgets.map Budget.key).Nodup ∧ (∀ b ∈ budgets, b.Versioned) ∧
    (∀ row, used budgets row =
      used l.budgets row + if (account, periodId p raw) = row then p.processingCostBound else 0) ∧
    (bucketSpend budgets account raw : Int) ≤ limit := by
  obtain ⟨b, hmem, hkey, hversion, rfl, hlimit⟩ := debit_paid h
  have hkeys' := @ensureBudget_key _ account (periodId p raw) p hkeys
  have hver' := @ensureBudget_versioned _ account raw p hver
  have hsum := sum_costUsed hkeys' hmem (b.costUsed + p.processingCostBound)
  refine ⟨?_, ?_, ?_, ?_⟩
  · rwa [Table.set_key]
  · intro c hc
    rcases Table.mem_set.1 hc with ⟨hc, -⟩ | ⟨rfl, -⟩
    · exact hver' c hc
    · exact hver' b hmem
  · intro row
    have hrow := used_set hkeys' hmem (b.costUsed + p.processingCostBound) row
    rw [used, used, ensureBudget_sum _ (ite_self 0)] at hrow
    rw [used, used, ← hkey]
    split at hrow
    next he =>
      rw [if_pos he]
      omega
    next he =>
      rw [if_neg he]
      omega
  · have hperiod : b.account = account ∧ b.periodId = b.policyVersion ++ ':' :: raw := by
      rw [hversion]
      exact Prod.mk.inj hkey
    rw [Ledger.periodSpend_eq hver, bucketSpend, Table.sum_filter,
      ← @ensureBudget_sum l account (periodId p raw) p _ (ite_self 0)] at hlimit
    have hall := hsum fun c => if c.account = account ∧ c.periodId = c.policyVersion ++ ':' :: raw
      then c.costUsed else 0
    rw [if_pos hperiod, if_pos (by exact hperiod)] at hall
    rw [bucketSpend, Table.sum_filter]
    simp only [decide_eq_true_eq] at hlimit hall ⊢
    omega

end

/-! ## What a call does -/

/-- What a reservation that was answered `reserved` wrote. -/
structure Admitted (l : Ledger) (r : Reservation) (e : Reads) (charged : Bool) (l' : Ledger) :
    Prop where
  submissions : ∃ attested version, l'.submissions =
    Table.put Submission.submissionId (r.row e attested charged version) l.submissions
  free : charged = false → l'.budgets = l.budgets
  paid : charged = true →
    debit l r.account (r.rawPeriodId e) r.policy e.allowance = .ok (.paid l'.budgets)

variable {l' : Ledger}

variable {trust : TrustRow} {r : Reservation} {charged : Bool}

theorem admitAs_cases {l : Ledger} {e : Reads} {attested : Bool} {result : AdmissionResult}
    (h : admitAs l r e trust attested charged = .ok (result, l')) :
    (l' = l ∧ result.decision ≠ .reserved) ∨
    (result.decision = .reserved ∧ Admitted l r e (result.authority = some .bounded) l') := by
  cases charged with
  | true =>
    simp only [admitAs] at h
    split at h
    · cases h
    · cases h
      exact .inl ⟨rfl, nofun⟩
    · cases h
      exact .inl ⟨rfl, nofun⟩
    next budgets hdebit =>
      cases h
      exact .inr ⟨rfl, ⟨_, _, rfl⟩, nofun, fun _ => hdebit⟩
  | false =>
    cases h
    have hauth : decide (some (if attested then AuthorityLabel.attested else .invited) =
        some .bounded) = false := by cases attested <;> rfl
    refine .inr ⟨rfl, ?_⟩
    rw [hauth]
    exact ⟨⟨_, _, rfl⟩, fun _ => rfl, nofun⟩

theorem reserve_cases {l : Ledger} {e : Reads} {result : AdmissionResult}
    (h : reserveAccountAdmission l r e = .ok (result, l')) :
    (l' = l ∧ result.decision ≠ .reserved) ∨
    (result.decision = .reserved ∧ Admitted l r e (result.authority = some .bounded) l') := by
  unfold reserveAccountAdmission at h
  split at h
  · cases h
    exact .inl ⟨rfl, nofun⟩
  split at h
  · cases h
  · cases h
    exact .inl ⟨rfl, nofun⟩
  · split at h
    next d hd =>
      obtain ⟨_, -, hprior⟩ := Option.bind_eq_some_iff.1 hd
      unfold priorDecision at hprior
      grind
    · exact admitAs_cases h

/-- What a transition that answered true did to the row it found. -/
inductive Moved (l : Ledger) (next : Next) (prior : Submission) : Ledger → Prop
  | on (status : Status) (hnext : next = .processing ∨ next = .completed) :
      Moved l next prior ⟨l.trust, l.budgets,
        Table.set Submission.submissionId { prior with status } l.submissions⟩
  | released (budgets : List Budget) (hnext : next = .released ∨ next = .releasedWithoutEffect)
      (hback : (if prior.lastCharged then refund l.budgets prior else some l.budgets) =
        some budgets) :
      Moved l next prior ⟨l.trust, budgets, Table.set Submission.submissionId
        { prior with status := .released, lastCharged := false } l.submissions⟩

variable {e : TransitionReads}

theorem advance_cases {l : Ledger} {prior : Submission} {next : Next} {changed : Bool}
    (h : advance l trust prior next e = (changed, l')) :
    (changed = false ∧ l' = l) ∨ (changed = true ∧ Moved l next prior l') := by
  unfold advance at h
  split at h
  next hnext =>
    split at h
    · cases h
      exact .inl ⟨rfl, rfl⟩
    · cases h
      exact .inr ⟨rfl, .on _ (.inl hnext.1)⟩
  · split at h
    next hnext =>
      cases h
      exact .inr ⟨rfl, .on _ (.inr hnext.1)⟩
    · split at h
      next hreleases =>
        split at h
        · cases h
          exact .inl ⟨rfl, rfl⟩
        rename_i budgets hback
        cases h
        refine .inr ⟨rfl, .released _ ?_ hback⟩
        cases next <;> simp_all [Next.releases]
      · cases h
        exact .inl ⟨rfl, rfl⟩

theorem transition_cases {l : Ledger} {t : Transition} {changed : Bool}
    (h : transitionAccountAdmission l t e = (changed, l')) :
    (changed = false ∧ l' = l) ∨
    (changed = true ∧ ∃ prior, l.leased? t.submissionId t.leaseId = some prior ∧
      Moved l t.next prior l') := by
  unfold transitionAccountAdmission at h
  split at h
  · cases h
    exact .inl ⟨rfl, rfl⟩
  split at h
  · cases h
    exact .inl ⟨rfl, rfl⟩
  split at h
  · cases h
    exact .inl ⟨rfl, rfl⟩
  rename_i prior hprior
  split at h
  · cases h
    exact .inl ⟨rfl, rfl⟩
  · exact (advance_cases h).imp_right fun hm => ⟨hm.1, prior, hprior, hm.2⟩

/-! ## The invariant -/

theorem used_of_mem {budgets : List Budget} (h : (budgets.map Budget.key).Nodup)
    (hb : b ∈ budgets) :
    used budgets b.key = b.costUsed :=
  Table.sum_key h hb _

variable {row : Uuid × List Char}

theorem exists_of_used_pos {budgets : List Budget} (h : 0 < used budgets row) :
    ∃ b ∈ budgets, b.key = row := by
  by_contra hne
  push Not at hne
  refine h.ne' (sum_eq_zero fun n hn => ?_)
  obtain ⟨b, hb, rfl⟩ := mem_map.1 hn
  exact if_neg (hne b hb)

theorem le_held {submissions : List Submission} {x : Submission} (hx : x ∈ submissions)
    (hc : x.lastCharged) : x.lastCostBound ≤ held submissions x.budgetKey := by
  have hself : x.heldIn x.budgetKey = x.lastCostBound := if_pos ⟨rfl, hc⟩
  rw [← hself]
  exact le_sum_of_mem (mem_map_of_mem hx)

/-- What the statement says of a submission's row: its lease is the latest one given out, and a
charge it still holds is the submission's latest entry. -/
structure Submission.Recorded (journal : List Entry) (x : Submission) : Prop where
  lease : currentLease journal x.submissionId = some x.leaseId
  charge : x.lastCharged → ∃ lease, journal.find? (·.submission = x.submissionId) =
    some (.reserved x.submissionId lease x.budgetKey x.lastCostBound true)

structure State.Sound (s : State) : Prop where
  budgetKeys : (s.ledger.budgets.map Budget.key).Nodup
  submissionIds : (s.ledger.submissions.map Submission.submissionId).Nodup
  versioned : ∀ b ∈ s.ledger.budgets, b.Versioned
  backed : ∀ row, held s.ledger.submissions row ≤ used s.ledger.budgets row
  accounted : ∀ row, used s.ledger.budgets row + (s.journal.map (·.credited row)).sum =
    (s.journal.map (·.debited row)).sum
  recorded : ∀ x ∈ s.ledger.submissions, x.Recorded s.journal
  settled : Settled s.journal

variable {journal : List Entry}

theorem Settled.reserved (h : Settled journal) {id lease : Uuid} {cost : Nat} :
    Settled (.reserved id lease row cost charged :: journal) := by
  intro newer older id' row' cost' he
  cases newer with
  | nil => cases he
  | cons x newer => exact h _ _ id' _ _ (List.cons.inj he).2

theorem Settled.refunded (h : Settled journal) {id : Uuid} {cost : Nat}
    (hlast : ∃ lease, journal.find? (·.submission = id) = some (.reserved id lease row cost true)) :
    Settled (.refunded id row cost :: journal) := by
  intro newer older id' row' cost' he
  cases newer with
  | nil =>
    cases he
    exact hlast
  | cons x newer => exact h _ _ id' _ _ (List.cons.inj he).2

/-- An entry of another submission does not touch what is recorded of this one. -/
theorem Submission.Recorded.cons {x : Submission} (h : x.Recorded journal) {entry : Entry}
    (hne : entry.submission ≠ x.submissionId) : x.Recorded (entry :: journal) := by
  have hlease : entry.leaseOf x.submissionId = none := by
    cases entry with
    | reserved => exact if_neg hne
    | refunded => rfl
  refine ⟨?_, fun hc => ?_⟩
  · rw [currentLease, findSome?_cons, hlease]
    exact h.lease
  · rw [find?_cons_of_neg (by simpa using hne)]
    exact h.charge hc

namespace State.Sound

variable {s : State}

theorem admitted (h : s.Sound) {e : Reads} {l : Ledger} (hl : Admitted s.ledger r e charged l) :
    State.Sound ⟨l, .reserved r.submissionId r.leaseId (r.account, r.periodId e)
      r.policy.processingCostBound charged :: s.journal⟩ := by
  obtain ⟨attested, version, hsubs⟩ := hl.submissions
  have hbudgets : (l.budgets.map Budget.key).Nodup ∧ (∀ b ∈ l.budgets, b.Versioned) ∧
      ∀ row, used l.budgets row = used s.ledger.budgets row +
        if (r.account, r.periodId e) = row ∧ charged then r.policy.processingCostBound else 0 := by
    cases charged with
    | false =>
      rw [hl.free rfl]
      exact ⟨h.budgetKeys, h.versioned, fun row => by simp⟩
    | true =>
      obtain ⟨hk, hv, hu, -⟩ := debit_spec h.budgetKeys h.versioned (hl.paid rfl)
      refine ⟨hk, hv, fun row => ?_⟩
      rw [hu row]
      simp [Reservation.periodId]
  obtain ⟨hkeys, hver, hused⟩ := hbudgets
  refine ⟨hkeys, ?_, hver, ?_, ?_, ?_, h.settled.reserved⟩
  · rw [hsubs]
    exact Table.put_key h.submissionIds _
  · intro row
    have hput := Table.sum_put h.submissionIds (r.row e attested charged version) (·.heldIn row)
    have hnew : (r.row e attested charged version).heldIn row =
      if (r.account, r.periodId e) = row ∧ charged then r.policy.processingCostBound else 0 := rfl
    have := h.backed row
    rw [hused, hsubs]
    simp only [held] at this ⊢
    omega
  · intro row
    have := h.accounted row
    have hnew : Entry.debited row (.reserved r.submissionId r.leaseId (r.account, r.periodId e)
      r.policy.processingCostBound charged) =
      if (r.account, r.periodId e) = row ∧ charged then r.policy.processingCostBound else 0 := rfl
    have hzero : Entry.credited row (.reserved r.submissionId r.leaseId (r.account, r.periodId e)
      r.policy.processingCostBound charged) = 0 := rfl
    rw [map_cons, map_cons, sum_cons, sum_cons, hused]
    omega
  · intro x hx
    rw [hsubs] at hx
    rcases Table.mem_put.1 hx with ⟨hx, hne⟩ | rfl
    · exact (h.recorded x hx).cons fun he => hne he.symm
    refine ⟨?_, fun hc => ⟨r.leaseId, ?_⟩⟩
    · simp [currentLease, Entry.leaseOf, Reservation.row]
    · obtain rfl : charged = true := hc
      simp [Entry.submission, Reservation.row, Submission.budgetKey]

variable {x : Submission}

/-- A charge that a submission still holds can be given back. -/
theorem refund_eq (h : s.Sound) (hx : x ∈ s.ledger.submissions) (hc : x.lastCharged) :
    ∃ b ∈ s.ledger.budgets, b.key = x.budgetKey ∧
      x.lastCostBound ≤ b.costUsed ∧ refund s.ledger.budgets x = some (Table.set Budget.key
        { b with costUsed := b.costUsed - x.lastCostBound } s.ledger.budgets) := by
  have hheld := (le_held hx hc).trans (h.backed _)
  obtain ⟨b, hb, hk⟩ := exists_of_used_pos (x.costPositive.trans_le hheld)
  rw [← hk, used_of_mem h.budgetKeys hb] at hheld
  cases hf : s.ledger.budgets.find?
      (fun b => b.key = (x.account, x.periodId) ∧ x.lastCostBound ≤ b.costUsed) with
  | none =>
    refine absurd ?_ (find?_eq_none.1 hf b hb)
    exact decide_eq_true ⟨hk, hheld⟩
  | some c =>
    have hck : c.key = x.budgetKey := by
      have := find?_some hf
      exact (of_decide_eq_true this).1
    obtain rfl := inj_on_of_nodup_map h.budgetKeys hb (mem_of_find?_eq_some hf)
      (hk.trans hck.symm)
    refine ⟨b, hb, hk, hheld, ?_⟩
    rw [refund, hf]

theorem advance_releases (h : s.Sound) {prior : Submission} {next : Next}
    (hp : prior ∈ s.ledger.submissions) (hr : next.releases prior.status) :
    (advance s.ledger trust prior next e).1 = true := by
  have hback : ∃ budgets, (if prior.lastCharged then refund s.ledger.budgets prior
      else some s.ledger.budgets) = some budgets := by
    split
    next hc =>
      obtain ⟨b, -, -, -, heq⟩ := h.refund_eq hp hc
      exact ⟨_, heq⟩
    · exact ⟨_, rfl⟩
  obtain ⟨_, hback⟩ := hback
  have hnext : next ≠ .processing ∧ next ≠ .completed := by
    cases next <;> simp_all [Next.releases]
  simp [advance, hnext.1, hnext.2, hr, hback]

theorem leased (h : s.Sound) {id lease : Uuid} (hx : s.ledger.leased? id lease = some x) :
    x ∈ s.ledger.submissions ∧ x.submissionId = id ∧ x.leaseId = lease ∧
      s.ledger.submission? id = some x := by
  have hmem := mem_of_find?_eq_some hx
  have hfound := find?_some hx
  obtain ⟨rfl, hlease⟩ := of_decide_eq_true hfound
  exact ⟨hmem, rfl, hlease, Table.find_of_mem h.submissionIds hmem⟩

theorem recorded_set {submissions : List Submission} {journal : List Entry} {y : Submission}
    (hold : ∀ z ∈ submissions, z.submissionId ≠ y.submissionId → z.Recorded journal)
    (hy : y.Recorded journal) :
    ∀ z ∈ Table.set Submission.submissionId y submissions, z.Recorded journal := by
  intro z hz
  rcases Table.mem_set.1 hz with ⟨hz, hne⟩ | ⟨rfl, -⟩
  · exact hold z hz hne
  · exact hy

/-- A row rewritten without a change of what it holds. -/
theorem rewritten (h : s.Sound) {y : Submission} (hx : x ∈ s.ledger.submissions)
    (hid : x.submissionId = y.submissionId) (hheld : ∀ row, y.heldIn row = x.heldIn row)
    (hy : y.Recorded s.journal) :
    State.Sound ⟨⟨s.ledger.trust, s.ledger.budgets,
      Table.set Submission.submissionId y s.ledger.submissions⟩, s.journal⟩ := by
  refine ⟨h.budgetKeys, ?_, h.versioned, ?_, h.accounted,
    recorded_set (fun z hz _ => h.recorded z hz) hy, h.settled⟩
  · rw [Table.set_key]
    exact h.submissionIds
  intro row
  have hsum := Table.sum_set h.submissionIds hx hid (·.heldIn row)
  have := h.backed row
  rw [hheld] at hsum
  simp only [held] at this ⊢
  omega

theorem released_charged (h : s.Sound) (hx : x ∈ s.ledger.submissions) (hc : x.lastCharged)
    {budgets : List Budget} (hback : refund s.ledger.budgets x = some budgets) :
    State.Sound ⟨⟨s.ledger.trust, budgets, Table.set Submission.submissionId
        { x with status := .released, lastCharged := false } s.ledger.submissions⟩,
      .refunded x.submissionId x.budgetKey x.lastCostBound :: s.journal⟩ := by
  obtain ⟨b, hb, hk, _, heq⟩ := h.refund_eq hx hc
  obtain rfl := Option.some.inj (hback.symm.trans heq)
  have hused : ∀ row, used (Table.set Budget.key
      { b with costUsed := b.costUsed - x.lastCostBound } s.ledger.budgets) row +
        (if x.budgetKey = row then x.lastCostBound else 0) = used s.ledger.budgets row := by
    intro row
    have hsum := used_set h.budgetKeys hb (b.costUsed - x.lastCostBound) row
    rw [← hk]
    split at hsum
    next he =>
      rw [if_pos he]
      omega
    next he =>
      rw [if_neg he]
      omega
  refine ⟨?_, ?_, ?_, ?_, ?_, ?_, h.settled.refunded ((h.recorded x hx).charge hc)⟩
  · rw [Table.set_key]
    exact h.budgetKeys
  · rw [Table.set_key]
    exact h.submissionIds
  · intro c hc
    rcases Table.mem_set.1 hc with ⟨hc, -⟩ | ⟨rfl, -⟩
    · exact h.versioned c hc
    · exact h.versioned b hb
  · intro row
    have hid : x.submissionId =
      Submission.submissionId { x with status := .released, lastCharged := false } := rfl
    have hsum := Table.sum_set h.submissionIds hx hid (·.heldIn row)
    have hold : x.heldIn row = if x.budgetKey = row then x.lastCostBound else 0 := by
      simp [Submission.heldIn, hc]
    have hnew : Submission.heldIn row { x with status := .released, lastCharged := false } = 0 :=
      if_neg fun he => Bool.false_ne_true he.2
    have := h.backed row
    have := hused row
    simp only [held] at *
    omega
  · intro row
    have := h.accounted row
    have := hused row
    have hnew : Entry.credited row (.refunded x.submissionId x.budgetKey x.lastCostBound) =
      if x.budgetKey = row then x.lastCostBound else 0 := rfl
    have hzero : Entry.debited row (.refunded x.submissionId x.budgetKey x.lastCostBound) = 0 :=
      rfl
    rw [map_cons, map_cons, sum_cons, sum_cons]
    dsimp only
    omega
  · refine recorded_set (fun z hz hne => (h.recorded z hz).cons fun he => hne he.symm) ?_
    exact ⟨(h.recorded x hx).lease, fun hc => absurd hc Bool.false_ne_true⟩

theorem moved (h : s.Sound) {t : Transition} {l : Ledger}
    (hx : s.ledger.leased? t.submissionId t.leaseId = some x) (hl : Moved s.ledger t.next x l) :
    State.Sound ⟨l, t.entry s.ledger ++ s.journal⟩ := by
  obtain ⟨hmem, -, -, hfind⟩ := h.leased hx
  rw [Transition.entry, hfind]
  cases hl with
  | on status hnext =>
    have hnot : ¬ (t.next = .released ∨ t.next = .releasedWithoutEffect) := by
      rcases hnext with hnext | hnext <;> simp [hnext]
    simp only [hnot, and_false]
    have hrec := h.recorded x hmem
    exact h.rewritten hmem rfl (fun _ => rfl) ⟨hrec.lease, hrec.charge⟩
  | released budgets hnext hback =>
    cases hc : x.lastCharged with
    | false =>
      rw [hc] at hback
      obtain rfl := Option.some.inj hback
      simp only [hc]
      refine h.rewritten hmem rfl (fun row => ?_) ⟨(h.recorded x hmem).lease, nofun⟩
      simp [Submission.heldIn, hc]
    | true =>
      rw [if_pos hc] at hback
      simp only [hc, hnext]
      exact h.released_charged hmem hc hback

theorem step (h : s.Sound) (event : Event) : (Admission.step s event).Sound := by
  cases event with
  | reserve r e =>
    simp only [Admission.step]
    split
    · exact h
    rename_i result l he
    rcases reserve_cases he with ⟨rfl, hd⟩ | ⟨hd, hl⟩
    · rw [Reservation.entry, if_neg hd]
      exact h
    · rw [Reservation.entry, if_pos hd]
      exact h.admitted hl
  | transition t e =>
    simp only [Admission.step]
    split
    next l he =>
      rcases transition_cases he with ⟨hf, -⟩ | ⟨-, x, hx, hl⟩
      · cases hf
      · exact h.moved hx hl
    next l he =>
      rcases transition_cases he with ⟨-, rfl⟩ | ⟨hf, -⟩
      · exact h
      · cases hf
  | trust rows => exact ⟨h.1, h.2, h.3, h.4, h.5, h.6, h.7⟩

theorem empty : State.Sound {} :=
  ⟨nodup_nil, nodup_nil, nofun, fun _ => Nat.le_refl 0, fun _ => rfl, nofun,
    fun newer _ _ _ _ he => by cases newer <;> cases he⟩

theorem run (events : List Event) : (Admission.run events).Sound := by
  suffices ∀ s : State, s.Sound → (events.foldl _ s).Sound from this {} empty
  induction events with
  | nil => exact fun _ h => h
  | cons event events ih => exact fun s h => ih _ (h.step _)

end State.Sound

/-! ## Runs -/

/-- After any calls: a row covers what can still be asked back from it, and the statement accounts
for it; a release is never turned down by the budget; each refund answers one charge of the same
row; a charged reservation stays within the allowance it read; and a lease that is not the
submission's latest changes nothing. -/
theorem admission_ledger_sound (events : List Event) :
    (∀ b ∈ (run events).ledger.budgets, held (run events).ledger.submissions b.key ≤ b.costUsed ∧
      b.costUsed + ((run events).journal.map (·.credited b.key)).sum =
        ((run events).journal.map (·.debited b.key)).sum) ∧
    (∀ x ∈ (run events).ledger.submissions, x.lastCharged →
      ∃ b ∈ (run events).ledger.budgets, b.key = x.budgetKey ∧ x.lastCostBound ≤ b.costUsed ∧
        refund (run events).ledger.budgets x = some (Table.set Budget.key
          { b with costUsed := b.costUsed - x.lastCostBound } (run events).ledger.budgets)) ∧
    (∀ t e trust prior, e.accountExists → (run events).ledger.trust? t.account = some trust →
      (run events).ledger.leased? t.submissionId t.leaseId = some prior →
      prior.account = t.account → t.next.releases prior.status →
      (transitionAccountAdmission (run events).ledger t e).1 = true) ∧
    Settled (run events).journal ∧
    (∀ r e result l, reserveAccountAdmission (run events).ledger r e = .ok (result, l) →
      result.decision = .reserved → result.authority = some .bounded →
      (bucketSpend l.budgets r.account (r.rawPeriodId e) : Int) ≤ e.allowance) ∧
    (∀ t e, currentLease (run events).journal t.submissionId ≠ some t.leaseId →
      transitionAccountAdmission (run events).ledger t e = (false, (run events).ledger)) := by
  have h := State.Sound.run events
  refine ⟨?_, fun x hx hc => h.refund_eq hx hc, ?_, h.settled, ?_, ?_⟩
  · intro b hb
    have hb' := used_of_mem h.budgetKeys hb
    rw [← hb']
    exact ⟨h.backed _, h.accounted _⟩
  · intro t e _ _ hexists htrust hp haccount hr
    rw [transitionAccountAdmission, if_neg (not_not.2 hexists), htrust]
    simp only [hp, haccount, ne_eq]
    exact h.advance_releases (h.leased hp).1 hr
  · intro r e _ l he hd ha
    rcases reserve_cases he with ⟨-, hne⟩ | ⟨-, hl⟩
    · exact absurd hd hne
    · exact (debit_spec h.budgetKeys h.versioned (hl.paid (decide_eq_true ha))).2.2.2
  · intro t e hstale
    cases ht : transitionAccountAdmission _ t e with
    | mk changed l =>
      rcases transition_cases ht with ⟨rfl, rfl⟩ | ⟨-, x, hx, -⟩
      · rfl
      obtain ⟨hmem, hid, hlease, -⟩ := h.leased hx
      refine absurd ?_ hstale
      rw [← hid, ← hlease]
      exact (h.recorded x hmem).lease

def samplePolicy : BoundedPolicy where
  version := ['v', '1']
  processingCostBound := 10
  boundedAllowance := 30
  period := .fixed 3600
  versionChars := List.all_eq_true.1 (by decide)
  costPositive := by decide
  costAllowed := by decide
  sumFits := by decide

/-- Submission 7 of account 1, reserved under a lease of 60 seconds. -/
def sampleReserve (lease : Uuid) (clock : Time) : Event :=
  .reserve
    { account := 1, principalRef := "device", expectedTrustVersion := none, submissionId := 7
      bodyHash := List.replicate 64 'a', leaseId := lease, policy := samplePolicy
      leaseSeconds := 60, attested := false }
    { accountLive := true, deviceLive := true, activeGrant := false, allowance := 30
      periodClock := clock, delayClock := clock, priorClock := clock, leaseClock := clock }

/-- Lease 5 runs out and lease 6 replaces it: the first charge is left behind, a release under
lease 5 changes nothing, and one under lease 6 gives the second charge back. -/
theorem admission_ledger_sound_replaced_lease :
    ((run [sampleReserve 5 100, sampleReserve 6 200]).ledger.budgets.map (·.costUsed) = [20]) ∧
    transitionAccountAdmission (run [sampleReserve 5 100, sampleReserve 6 200]).ledger
      ⟨1, 7, 5, .released⟩ ⟨true, false, true, false, 210⟩ =
        (false, (run [sampleReserve 5 100, sampleReserve 6 200]).ledger) ∧
    (transitionAccountAdmission (run [sampleReserve 5 100, sampleReserve 6 200]).ledger
      ⟨1, 7, 6, .released⟩ ⟨true, false, true, false, 210⟩).1 = true := by
  have h := admission_ledger_sound [sampleReserve 5 100, sampleReserve 6 200]
  refine ⟨by decide +kernel, h.2.2.2.2.2 _ _ (by decide +kernel), ?_⟩
  obtain ⟨trust, htrust⟩ := Option.isSome_iff_exists.1 (by decide +kernel :
    ((run [sampleReserve 5 100, sampleReserve 6 200]).ledger.trust? 1).isSome)
  obtain ⟨prior, hprior, hp⟩ := (Option.any_eq_true _ _).1 (by decide +kernel :
    ((run [sampleReserve 5 100, sampleReserve 6 200]).ledger.leased? 7 6).any fun x =>
      x.account = 1 ∧ Next.releases .released x.status)
  obtain ⟨haccount, hreleases⟩ := of_decide_eq_true hp
  exact h.2.2.1 _ _ trust prior rfl htrust hprior haccount hreleases

end TraceCommons.Admission
