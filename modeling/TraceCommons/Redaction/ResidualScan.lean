import TraceCommons.Lib.Fold
import TraceCommons.Redaction.Report

/-! # The residual scan

`scan_json_leaves` walks a serialized envelope and runs the detectors over every key and every
string in it, at any depth. It gives up, with an error, on a tree that is too deep or too large;
when it returns, the report holds what the detectors say of every text of the tree. -/

namespace TraceCommons.Redaction

inductive Json where
  | null
  | bool (b : Bool)
  | number (literal : String)
  | string (text : String)
  | array (items : List Json)
  | object (entries : List (String × Json))

namespace Json

mutual

/-- The strings of a value and the keys of its objects, at any depth. -/
def texts : Json → List String
  | .string text => [text]
  | .array items => itemTexts items
  | .object entries => entryTexts entries
  | _ => []

def itemTexts : List Json → List String
  | [] => []
  | item :: items => item.texts ++ itemTexts items

def entryTexts : List (String × Json) → List String
  | [] => []
  | (key, item) :: entries => key :: (item.texts ++ entryTexts entries)

end

def isNull : Json → Bool
  | .null => true
  | _ => false

end Json

inductive ResidualScanError where
  | serializationFailed
  | budgetExceeded
  deriving DecidableEq

def maxTraceEnvelopeBytes : Nat := 256 * 1024 * 1024

def residualScanMaxDepth : Nat := 64

def residualScanMaxNodes : Nat := maxTraceEnvelopeBytes / 8

/-- The part of a path a key may show: nothing a contributor wrote. -/
def schemaShapedKey (key : String) : String :=
  if !key.isEmpty && key.utf8ByteSize ≤ 40 && key.toList.all fun c =>
      c.isLower || c.isDigit || c = '_' then key
  else "\x7b\x7d"

def residualSecretAtPrefix : String := "residual_secret_at:"

def noteResidualSecretLocation (report child : RedactionReport) (path : String) :
    RedactionReport :=
  if child.blockedSecretDetected then report.increment (residualSecretAtPrefix ++ path) else report

def withinDepth {α : Type} (depth : Nat) (k : Except ResidualScanError α) :
    Except ResidualScanError α :=
  if depth > residualScanMaxDepth then .error .budgetExceeded else k

theorem of_withinDepth {α : Type} {depth : Nat} {k : Except ResidualScanError α} {a : α}
    (h : withinDepth depth k = .ok a) : k = .ok a := by
  rw [withinDepth] at h
  split at h
  · cases h
  · exact h

structure Scan where
  report : RedactionReport := {}
  nodes : Nat := 0

section Scan

-- what the detectors report of one text
variable (findings : String → RedactionReport)

/-- One node: a string under its own path, or a key under the path of its value. -/
def scanText (text path : String) (s : Scan) : Except ResidualScanError Scan :=
  if s.nodes + 1 > residualScanMaxNodes then .error .budgetExceeded
  else .ok {
    report := (noteResidualSecretLocation s.report (findings text) path).merge (findings text)
    nodes := s.nodes + 1 }

mutual

def scanJsonLeaves : Json → Nat → String → Scan → Except ResidualScanError Scan
  | .string text, depth, path, s => withinDepth depth (scanText findings text path s)
  | .array items, depth, path, s => withinDepth depth (scanItems items (depth + 1) (path ++ "[]") s)
  | .object entries, depth, path, s => withinDepth depth (scanEntries entries (depth + 1) path s)
  | _, depth, _, s => withinDepth depth (.ok s)

def scanItems : List Json → Nat → String → Scan → Except ResidualScanError Scan
  | [], _, _, s => .ok s
  | item :: items, depth, path, s => do
    let s ← scanJsonLeaves item depth path s
    scanItems items depth path s

def scanEntries : List (String × Json) → Nat → String → Scan → Except ResidualScanError Scan
  | [], _, _, s => .ok s
  | (key, item) :: entries, depth, path, s => do
    let childPath := path ++ "." ++ schemaShapedKey key
    let s ← scanText findings key (childPath ++ "#key") s
    let s ← scanJsonLeaves item depth childPath s
    scanEntries entries depth path s

end

/-- The scan went from `s` to `s'` over exactly `texts`. -/
structure Scanned (texts : List String) (s s' : Scan) : Prop where
  clean : s'.report.isClean = (s.report.isClean && texts.all fun t => (findings t).isClean)
  blocked : s'.report.blockedSecretDetected
    = (s.report.blockedSecretDetected || texts.any fun t => (findings t).blockedSecretDetected)

variable {findings} {s s' s'' : Scan} {ts ts' : List String}

theorem Scanned.refl : Scanned findings [] s s :=
  ⟨by rw [List.all_nil, Bool.and_true], by rw [List.any_nil, Bool.or_false]⟩

theorem Scanned.append (h : Scanned findings ts s s') (h' : Scanned findings ts' s' s'') :
    Scanned findings (ts ++ ts') s s'' :=
  ⟨by rw [h'.clean, h.clean, List.all_append, Bool.and_assoc],
    by rw [h'.blocked, h.blocked, List.any_append, Bool.or_assoc]⟩

theorem noteResidualSecretLocation_blocked (report child : RedactionReport) (path : String) :
    (noteResidualSecretLocation report child path).blockedSecretDetected
      = report.blockedSecretDetected := by
  rw [noteResidualSecretLocation]
  split <;> rfl

/-- The count that names the place of a secret adds nothing to a report the secret is merged
into. -/
theorem isClean_noteResidualSecretLocation (report child : RedactionReport) (path : String) :
    ((noteResidualSecretLocation report child path).isClean && child.isClean)
      = (report.isClean && child.isClean) := by
  rw [noteResidualSecretLocation]
  split
  next hb =>
    have hdirty : child.isClean = false := by simp [RedactionReport.isClean, hb]
    rw [hdirty, Bool.and_false, Bool.and_false]
  · rfl

theorem scanned_scanText {text path : String} (h : scanText findings text path s = .ok s') :
    Scanned findings [text] s s' := by
  rw [scanText] at h
  split at h
  · cases h
  cases h
  constructor
  · rw [RedactionReport.isClean_merge, isClean_noteResidualSecretLocation, List.all_cons,
      List.all_nil, Bool.and_true]
  · rw [RedactionReport.merge_blocked, noteResidualSecretLocation_blocked, List.any_cons,
      List.any_nil, Bool.or_false]

mutual

theorem scanned_scanJsonLeaves {value : Json} {depth : Nat} {path : String} {s s' : Scan}
    (h : scanJsonLeaves findings value depth path s = .ok s') :
    Scanned findings value.texts s s' := by
  cases value with
  | string text => exact scanned_scanText (of_withinDepth h)
  | array items => exact scanned_scanItems (of_withinDepth h)
  | object entries => exact scanned_scanEntries (of_withinDepth h)
  | null | bool | number => cases of_withinDepth h; exact .refl

theorem scanned_scanItems {items : List Json} {depth : Nat} {path : String} {s s' : Scan}
    (h : scanItems findings items depth path s = .ok s') :
    Scanned findings (Json.itemTexts items) s s' := by
  cases items with
  | nil => cases h; exact .refl
  | cons item items =>
    rw [scanItems, bind_eq_ok] at h
    obtain ⟨s1, h1, h2⟩ := h
    exact (scanned_scanJsonLeaves h1).append (scanned_scanItems h2)

theorem scanned_scanEntries {entries : List (String × Json)} {depth : Nat} {path : String}
    {s s' : Scan} (h : scanEntries findings entries depth path s = .ok s') :
    Scanned findings (Json.entryTexts entries) s s' := by
  match entries with
  | [] => cases h; exact .refl
  | (key, item) :: entries =>
    rw [scanEntries, bind_eq_ok] at h
    obtain ⟨s1, h1, h⟩ := h
    rw [bind_eq_ok] at h
    obtain ⟨s2, h2, h3⟩ := h
    exact (scanned_scanText h1).append
      ((scanned_scanJsonLeaves h2).append (scanned_scanEntries h3))

end

end Scan

end TraceCommons.Redaction
