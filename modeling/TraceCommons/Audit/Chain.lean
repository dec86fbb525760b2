import TraceCommons.Audit.Log

/-! # Sealed events and what is planned from them

An event is sealed when its chain fields are what its content gives. Of sealed and linked events the
hashes are all different, the verifier finds nothing, and the repair plans exactly the rows that the
file has not got. -/

namespace TraceCommons.Audit

open HashChain List Option

variable {K : Codec} {tenantId : String} {e : TraceCommonsAuditEvent}
  {es pending : List TraceCommonsAuditEvent}

/-! ## Hashes -/

namespace Codec

theorem newline_notMem_previous {p : String} (h : K.isAuditChainPreviousHash p = true) :
    '\n' ∉ p.toList := by
  rcases Bool.or_eq_true_iff.1 h with hg | hc
  · rw [eq_of_beq hg]
    decide
  · exact K.newline_notMem p hc

theorem canonical_computeAuditEventHash (p : String) (e : TraceCommonsAuditEvent) :
    K.isCanonicalSha256PrefixedHash (K.computeAuditEventHash p e) = true :=
  K.canonical_sha256Prefixed _

theorem previous_computeAuditEventHash (p : String) (e : TraceCommonsAuditEvent) :
    K.isAuditChainPreviousHash (K.computeAuditEventHash p e) = true :=
  Bool.or_eq_true_iff.2 (.inr (canonical_computeAuditEventHash p e))

theorem computeAuditEventHash_ne_genesis (p : String) (e : TraceCommonsAuditEvent) :
    K.computeAuditEventHash p e ≠ genesisHash := by
  intro h
  have hc := canonical_computeAuditEventHash (K := K) p e
  rw [h, K.not_canonical_genesis] at hc
  cases hc

/-- A hash fixes the hash it follows: the text hashed has it as its second line. -/
theorem previous_eq_of_hash_eq {p q c d : String} (hp : K.isAuditChainPreviousHash p = true)
    (hq : K.isAuditChainPreviousHash q = true)
    (h : K.computeAuditEventHashFromCanonical p c = K.computeAuditEventHashFromCanonical q d) :
    p = q := by
  have htext := congrArg String.toList (K.sha256Prefixed_injective _ _ h)
  simp only [String.toList_append, append_assoc, append_cancel_left_eq] at htext
  have hlines : p.toList ++ '\n' :: c.toList = q.toList ++ '\n' :: d.toList := htext
  have hfirst : ∀ {l r : List _}, '\n' ∉ l → (l ++ '\n' :: r).takeWhile (· != '\n') = l := by
    intro l r hl
    have hkept : ∀ x ∈ l, (x != '\n') = true := by
      intro x hx
      refine bne_iff_ne.2 ?_
      rintro rfl
      exact hl hx
    rw [takeWhile_append_of_pos hkept]
    simp
  rw [← String.toList_inj, ← hfirst (newline_notMem_previous hp), hlines,
    hfirst (newline_notMem_previous hq)]

@[simp] theorem computeAuditEventHash_unsealed (p q : String) (e : TraceCommonsAuditEvent) :
    K.computeAuditEventHash p (e.unsealed q) = K.computeAuditEventHash p e := rfl

end Codec

/-! ## Sealed events -/

/-- The tenant's event, with the chain fields its content gives. -/
def Sealed (K : Codec) (tenantId : String) (e : TraceCommonsAuditEvent) : Prop :=
  e.tenantId = tenantId ∧ ∃ p, K.isAuditChainPreviousHash p = true ∧
    e.previousEventHash = some p ∧ e.eventHash = some (K.computeAuditEventHash p e)

/-- A sealed log, chained from genesis. -/
structure Chained (K : Codec) (tenantId : String) (es : List TraceCommonsAuditEvent) : Prop where
  sealed : ∀ e ∈ es, Sealed K tenantId e
  linked : Linked (·.previousEventHash) (·.eventHash) (some genesisHash) es

def headHash (es : List TraceCommonsAuditEvent) : String :=
  (es.getLast?.bind (·.eventHash)).getD genesisHash

@[simp] theorem headHash_nil : headHash [] = genesisHash := rfl

@[simp] theorem headHash_concat (es : List TraceCommonsAuditEvent) (e : TraceCommonsAuditEvent) :
    headHash (es ++ [e]) = e.eventHash.getD genesisHash := by
  simp [headHash]

theorem Sealed.eventHash_ne (h : Sealed K tenantId e) : e.eventHash ≠ some genesisHash := by
  obtain ⟨-, p, -, -, hh⟩ := h
  rw [hh]
  exact fun he => K.computeAuditEventHash_ne_genesis p e (some.inj he)

theorem Sealed.previous_headHash (h : Sealed K tenantId e) :
    K.isAuditChainPreviousHash (e.eventHash.getD genesisHash) = true := by
  obtain ⟨-, p, -, -, hh⟩ := h
  rw [hh]
  exact K.previous_computeAuditEventHash p e

namespace Chained

theorem nil : Chained K tenantId [] := ⟨by simp, trivial⟩

theorem left (h : Chained K tenantId (es ++ pending)) : Chained K tenantId es :=
  ⟨fun e he => h.sealed e (mem_append_left _ he), (linked_append.1 h.linked).1⟩

theorem head_eq (h : Chained K tenantId es) :
    head (·.eventHash) (some genesisHash) es = some (headHash es) := by
  cases es using reverseRecOn with
  | nil => rfl
  | append_singleton es e =>
    obtain ⟨-, p, -, -, hh⟩ := h.sealed e (by simp)
    rw [head_concat, headHash_concat, hh]
    rfl

theorem previous_headHash (h : Chained K tenantId es) :
    K.isAuditChainPreviousHash (headHash es) = true := by
  cases es using reverseRecOn with
  | nil => simp [Codec.isAuditChainPreviousHash]
  | append_singleton es e =>
    rw [headHash_concat]
    exact (h.sealed e (by simp)).previous_headHash

theorem concat (h : Chained K tenantId es) (he : Sealed K tenantId e)
    (hp : e.previousEventHash = some (headHash es)) : Chained K tenantId (es ++ [e]) := by
  refine ⟨fun x hx => ?_, linked_concat.2 ⟨h.linked, by rw [hp, h.head_eq]⟩⟩
  rcases mem_append.1 hx with hx | hx
  · exact h.sealed x hx
  · rw [mem_singleton.1 hx]
    exact he

theorem previous_eq (h : Chained K tenantId (es ++ [e])) :
    e.previousEventHash = some (headHash es) := by
  rw [← h.left.head_eq]
  exact (linked_concat.1 h.linked).2

theorem nodup (h : Chained K tenantId es) : (es.map (·.eventHash)).Nodup := by
  refine h.linked.nodup (fun a ha b hb hab => ?_) fun a ha => (h.sealed a ha).eventHash_ne
  obtain ⟨-, p, hp, hpa, hha⟩ := h.sealed a ha
  obtain ⟨-, q, hq, hqb, hhb⟩ := h.sealed b hb
  rw [hha, hhb] at hab
  rw [hpa, hqb, Codec.previous_eq_of_hash_eq hp hq (some.inj hab)]

/-- Of two logs where one is longer, the heads differ. -/
theorem headHash_ne (h : Chained K tenantId (es ++ [e])) : headHash (es ++ [e]) ≠ headHash es := by
  obtain ⟨-, p, -, -, hh⟩ := h.sealed e (by simp)
  have hnd := h.nodup
  rw [headHash_concat, hh, getD_some]
  cases es using reverseRecOn with
  | nil => exact K.computeAuditEventHash_ne_genesis p e
  | append_singleton es x =>
    obtain ⟨-, q, -, -, hx⟩ := h.sealed x (by simp)
    rw [headHash_concat, hx, getD_some]
    intro heq
    rw [map_append, nodup_append] at hnd
    refine hnd.2.2 x.eventHash (by simp) e.eventHash (by simp) ?_
    rw [hx, hh, heq]

end Chained

/-- What the append makes of an event of the tenant. -/
theorem sealed_chainAuditEventAfter (h : Chained K tenantId es) (he : e.tenantId = tenantId) :
    Sealed K tenantId (K.chainAuditEventAfter es.getLast? e) ∧
      (K.chainAuditEventAfter es.getLast? e).previousEventHash = some (headHash es) :=
  ⟨⟨he, headHash es, h.previous_headHash, rfl, rfl⟩, rfl⟩

/-! ## The repair's plan -/

variable {ids : List Uuid}

theorem planDbAheadRow_sealed {p : String} (he : Sealed K tenantId e)
    (hp : e.previousEventHash = some p) :
    K.planDbAheadRow ids p (K.auditEventStorageWrite tenantId e) =
      if e.eventId ∈ ids then .error "db_row_already_in_file"
      else .ok (e.eventHash.getD genesisHash, e) := by
  obtain ⟨ht, q, -, hq, hh⟩ := he
  obtain rfl : q = p := some.inj (hq.symm.trans hp)
  have hround : K.fromJson (K.canonicalAuditEventJson q e) = some (e.unsealed q) :=
    K.fromJson_toJson _
  have hhash : K.computeAuditEventHashFromCanonical q (K.canonicalAuditEventJson q e) =
      K.computeAuditEventHash q e := rfl
  have hagree : ¬((e.unsealed q).eventId ≠ e.eventId ∨ (e.unsealed q).tenantId ≠ tenantId ∨
      (e.unsealed q).previousEventHash ≠ some q ∨ (e.unsealed q).eventHash.isSome) := by
    simp [TraceCommonsAuditEvent.unsealed, ht]
  simp only [Codec.planDbAheadRow, Codec.auditEventStorageWrite, hh, hq, map_some,
    hround, hhash, K.computeAuditEventHash_unsealed, hagree, ne_eq,
    TraceCommonsAuditEvent.withHash_unsealed hq hh]
  rfl

theorem planDbAheadTail_sealed (h : Chained K tenantId (es ++ pending))
    (hids : ∀ e ∈ pending, e.eventId ∉ ids) :
    K.planDbAheadTail ids (headHash es) (pending.map (K.auditEventStorageWrite tenantId)) =
      .ok pending := by
  induction pending generalizing es with
  | nil => rfl
  | cons e pending ih =>
    rw [append_cons] at h
    have hrow := @planDbAheadRow_sealed K _ e ids _ (h.sealed e (by simp)) h.left.previous_eq
    rw [if_neg (hids e (.head _))] at hrow
    have htail := ih h fun x hx => hids x (.tail e hx)
    rw [headHash_concat] at htail
    rw [map_cons, Codec.planDbAheadTail, hrow]
    simp only [bind, Except.bind, htail]
    rfl

theorem findIdx?_headHash {e : TraceCommonsAuditEvent}
    (h : Chained K tenantId (es ++ [e] ++ pending)) :
    (((es ++ [e] ++ pending).map (K.auditEventStorageWrite tenantId)).findIdx?
      (·.eventHash == some (headHash (es ++ [e])))) = some es.length := by
  obtain ⟨-, p, -, -, hh⟩ := h.sealed e (by simp)
  have hnd := h.nodup
  rw [append_assoc, map_append, nodup_append] at hnd
  rw [headHash_concat, hh, getD_some, ← hh, findIdx?_map, append_assoc,
    findIdx?_append, findIdx?_eq_none_iff.2]
  · simp [Codec.auditEventStorageWrite, findIdx?_cons]
  · intro x hx
    have := hnd.2.2 _ (mem_map_of_mem hx) e.eventHash (by simp)
    simpa [Codec.auditEventStorageWrite] using this

/-- Given the file's events in an order that ends with its last line, the plan is the rows past it. -/
theorem planAuditChainRepair_chained {fileEvents : List TraceCommonsAuditEvent}
    {rows : List TraceAuditEventRecord} (h : Chained K tenantId (es ++ pending))
    (hrows : rows.filter (·.eventHash.isSome) =
      (es ++ pending).map (K.auditEventStorageWrite tenantId))
    (hlast : fileEvents.getLast? = es.getLast?)
    (hids : ∀ e ∈ pending, e.eventId ∉ fileEvents.map (·.eventId)) :
    K.planAuditChainRepair fileEvents rows = .ok pending := by
  have htail := planDbAheadTail_sealed h hids
  simp only [Codec.planAuditChainRepair, hrows, hlast]
  rw [← headHash]
  cases es using reverseRecOn with
  | nil =>
    rw [headHash_nil] at htail
    simp [htail, Except.mapError]
  | append_singleton es e =>
    have hne : headHash (es ++ [e]) ≠ genesisHash := by
      obtain ⟨-, p, -, -, hh⟩ := h.sealed e (by simp)
      rw [headHash_concat, hh]
      exact K.computeAuditEventHash_ne_genesis p e
    have hidx := findIdx?_headHash h
    rw [if_neg hne, hidx, map_some]
    have hdrop : (((es ++ [e] ++ pending).map (K.auditEventStorageWrite tenantId)).drop
        (es.length + 1)) = pending.map (K.auditEventStorageWrite tenantId) := by
      rw [map_append, drop_left' (by simp)]
    simp only [hdrop, htail, Except.mapError]

/-- With the file's head taken for an event further up, the row after it is in the file already. -/
theorem planAuditChainRepair_already {fileEvents before : List TraceCommonsAuditEvent}
    {x : TraceCommonsAuditEvent} {rows : List TraceAuditEventRecord}
    (h : Chained K tenantId (before ++ [e] ++ x :: pending))
    (hrows : rows.filter (·.eventHash.isSome) =
      (before ++ [e] ++ x :: pending).map (K.auditEventStorageWrite tenantId))
    (hlast : fileEvents.getLast? = some e) (hx : x ∈ fileEvents) :
    K.planAuditChainRepair fileEvents rows = .error (.unrestorable "db_row_already_in_file") := by
  obtain ⟨-, p, -, -, hh⟩ := h.sealed e (by simp)
  have hidx := findIdx?_headHash h
  rw [headHash_concat, hh, getD_some] at hidx
  have hprev : x.previousEventHash = some (K.computeAuditEventHash p e) := by
    have hx' := (append_cons _ x _ ▸ h).left.previous_eq
    rwa [headHash_concat, hh] at hx'
  have hrow : K.planDbAheadRow (fileEvents.map (·.eventId)) (K.computeAuditEventHash p e)
      (K.auditEventStorageWrite tenantId x) = .error "db_row_already_in_file" := by
    rw [planDbAheadRow_sealed (h.sealed x (by simp)) hprev, if_pos (mem_map_of_mem hx)]
  have hdrop : (((before ++ [e] ++ x :: pending).map (K.auditEventStorageWrite tenantId)).drop
      (before.length + 1)) = (x :: pending).map (K.auditEventStorageWrite tenantId) := by
    rw [map_append, drop_left' (by simp)]
  simp only [Codec.planAuditChainRepair, hrows, hlast, bind_some, hh, getD_some,
    if_neg (K.computeAuditEventHash_ne_genesis p e), hidx, map_some, hdrop, map_cons,
    Codec.planDbAheadTail, hrow]
  rfl

/-! ## Reading and verifying -/

theorem readAuditEventsInFileOrder_toJson (h : ∀ e ∈ es, e.tenantId = tenantId) :
    K.readAuditEventsInFileOrder tenantId (es.map K.toJson) = some es := by
  induction es with
  | nil => rfl
  | cons e es ih =>
    have htail := ih fun x hx => h x (.tail e hx)
    rw [Codec.readAuditEventsInFileOrder] at htail ⊢
    rw [map_cons, mapM_cons, K.fromJson_toJson, htail]
    simp [Option.filter, h e _]

/-- No event is newer than the last one. -/
def NewestLast (es : List TraceCommonsAuditEvent) : Prop :=
  ∀ e ∈ es, ∀ last ∈ es.getLast?, e.createdAt ≤ last.createdAt

theorem orderedInsert_concat {a b : TraceCommonsAuditEvent} (h : a.createdAt ≤ b.createdAt)
    (l : List TraceCommonsAuditEvent) :
    (l ++ [b]).orderedInsert (fun a b => a.createdAt ≤ b.createdAt) a =
      l.orderedInsert (fun a b => a.createdAt ≤ b.createdAt) a ++ [b] := by
  induction l with
  | nil => simp [h]
  | cons c l ih =>
    simp only [cons_append, orderedInsert_cons]
    split
    · rfl
    · rw [ih, cons_append]

theorem insertionSort_concat {b : TraceCommonsAuditEvent} {l : List TraceCommonsAuditEvent}
    (h : ∀ a ∈ l, a.createdAt ≤ b.createdAt) :
    (l ++ [b]).insertionSort (fun a b => a.createdAt ≤ b.createdAt) =
      l.insertionSort (fun a b => a.createdAt ≤ b.createdAt) ++ [b] := by
  induction l with
  | nil => rfl
  | cons a l ih =>
    rw [cons_append, insertionSort_cons, insertionSort_cons,
      ih fun x hx => h x (.tail a hx), orderedInsert_concat (h a (.head _))]

/-- Sorting by time keeps a newest last event last. -/
theorem NewestLast.getLast?_insertionSort (h : NewestLast es) :
    (es.insertionSort (fun a b => a.createdAt ≤ b.createdAt)).getLast? = es.getLast? := by
  cases es using reverseRecOn with
  | nil => rfl
  | append_singleton es e =>
    rw [insertionSort_concat fun a ha => h a (mem_append_left _ ha) e (by simp)]
    simp

theorem lineFailures_sealed {p : String} {n : Nat} (he : Sealed K tenantId e)
    (hp : e.previousEventHash = some p) :
    K.lineFailures p n e (e.eventHash.getD genesisHash) = [] := by
  obtain ⟨-, q, hprev, hq, hh⟩ := he
  obtain rfl : q = p := some.inj (hq.symm.trans hp)
  simp [Codec.lineFailures, hq, hh, hprev, K.canonical_computeAuditEventHash]

/-- The verifier adds no failure on a chained log. -/
theorem verifyLines_chained (report : Codec.TraceAuditChainReport) (n : Nat)
    (before : List TraceCommonsAuditEvent) (h : Chained K tenantId (before ++ es)) :
    ∃ report', K.verifyLines tenantId (headHash before) n report (es.map K.toJson) = some report' ∧
      report'.failures = report.failures := by
  induction es generalizing before n report with
  | nil => exact ⟨report, rfl, rfl⟩
  | cons e es ih =>
    rw [append_cons] at h
    have he := h.sealed e (by simp)
    have hline := lineFailures_sealed (n := n) he h.left.previous_eq
    obtain ⟨ht, p, -, -, hh⟩ := he
    obtain ⟨report', hrun, hfail⟩ := ih
      { report with
        eventCount := report.eventCount + 1
        failures := report.failures ++ [] ++ []
        lastEventHash := e.eventHash } _ _ h
    refine ⟨report', ?_, by simpa using hfail⟩
    rw [headHash_concat, hh] at hrun
    rw [hh, getD_some] at hline
    simp only [map_cons, Codec.verifyLines, K.fromJson_toJson, hh, hline, ht]
    exact hrun

theorem verifyFileAuditChain_chained (h : Chained K tenantId es) :
    ∃ report, K.verifyFileAuditChain tenantId (some (es.map K.toJson)) = some report ∧
      report.verified = true := by
  obtain ⟨_, hrun, hfail⟩ :=
    verifyLines_chained {} 1 [] (by simpa using h)
  rw [headHash_nil] at hrun
  refine ⟨_, by rw [Codec.verifyFileAuditChain, hrun]; rfl, ?_⟩
  simp [hfail]

end TraceCommons.Audit
