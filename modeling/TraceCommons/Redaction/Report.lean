import TraceCommons.Lib.OrdMap

/-! # The report of a redaction pass -/

namespace TraceCommons.Redaction

structure RedactionReport where
  counts : OrdMap String Nat := {}
  piiLabelsPresent : List String := []
  warnings : List String := []
  blockedSecretDetected : Bool := false
  keyFindingDetected : Bool := false
  coverageIncomplete : Bool := false

namespace RedactionReport

/-- A count is a `u32`. -/
def addCount (counts : OrdMap String Nat) (label : String) (by_ : Nat) : OrdMap String Nat :=
  counts.upsert label fun old => (old.getD 0 + by_) % 2 ^ 32

variable (r : RedactionReport)

def increment (label : String) : RedactionReport :=
  { r with counts := addCount r.counts label 1 }

/-- The list with `x` at its end, if it is not there. -/
def pushNew (l : List String) (x : String) : List String := if x ∈ l then l else l ++ [x]

variable (other : RedactionReport)

def merge : RedactionReport where
  counts := other.counts.entries.foldl (fun counts e => addCount counts e.1 e.2) r.counts
  piiLabelsPresent := other.piiLabelsPresent.foldl pushNew r.piiLabelsPresent
  warnings := other.warnings.foldl pushNew r.warnings
  blockedSecretDetected := r.blockedSecretDetected || other.blockedSecretDetected
  keyFindingDetected := r.keyFindingDetected || other.keyFindingDetected
  coverageIncomplete := r.coverageIncomplete || other.coverageIncomplete

def block (blocking : Bool) : RedactionReport :=
  { r with blockedSecretDetected := r.blockedSecretDetected || blocking }

/-- The report names something that was found in the text. -/
def hasFinding : Bool :=
  !r.counts.entries.isEmpty || !r.piiLabelsPresent.isEmpty || r.blockedSecretDetected

/-- Nothing was found, and everything was looked at. -/
def isClean : Bool :=
  r.counts.entries.isEmpty && r.piiLabelsPresent.isEmpty && !r.blockedSecretDetected
    && !r.keyFindingDetected && !r.coverageIncomplete

theorem isEmpty_foldl_addCount (l : List (String × Nat)) (counts : OrdMap String Nat) :
    (l.foldl (fun counts e => addCount counts e.1 e.2) counts).entries.isEmpty
      = (counts.entries.isEmpty && l.isEmpty) := by
  induction l generalizing counts with
  | nil => rw [List.foldl_nil, List.isEmpty_nil, Bool.and_true]
  | cons e l ih =>
    rw [List.foldl_cons, ih, addCount, OrdMap.entries_upsert_isEmpty, Bool.false_and,
      List.isEmpty_cons, Bool.and_false]

theorem isEmpty_pushNew (l : List String) (x : String) : (pushNew l x).isEmpty = false := by
  rw [pushNew]
  split
  next hx => exact List.isEmpty_eq_false_iff.2 (List.ne_nil_of_mem hx)
  · exact List.isEmpty_eq_false_iff.2 (List.append_ne_nil_of_right_ne_nil _ (List.cons_ne_nil _ _))

theorem isEmpty_foldl_pushNew (new l : List String) :
    (new.foldl pushNew l).isEmpty = (l.isEmpty && new.isEmpty) := by
  induction new generalizing l with
  | nil => rw [List.foldl_nil, List.isEmpty_nil, Bool.and_true]
  | cons x new ih =>
    rw [List.foldl_cons, ih, isEmpty_pushNew, Bool.false_and, List.isEmpty_cons, Bool.and_false]

@[simp] theorem merge_blocked : (r.merge other).blockedSecretDetected
      = (r.blockedSecretDetected || other.blockedSecretDetected) := rfl

theorem hasFinding_merge : (r.merge other).hasFinding = (r.hasFinding || other.hasFinding) := by
  simp only [hasFinding, merge, isEmpty_foldl_addCount, isEmpty_foldl_pushNew]
  cases r.counts.entries.isEmpty <;> cases r.piiLabelsPresent.isEmpty <;>
    cases r.blockedSecretDetected <;> simp

theorem isClean_merge : (r.merge other).isClean = (r.isClean && other.isClean) := by
  simp only [isClean, merge, isEmpty_foldl_addCount, isEmpty_foldl_pushNew]
  cases r.counts.entries.isEmpty <;> cases r.piiLabelsPresent.isEmpty <;>
    cases r.blockedSecretDetected <;> cases r.keyFindingDetected <;>
    cases r.coverageIncomplete <;> simp

end RedactionReport

end TraceCommons.Redaction
