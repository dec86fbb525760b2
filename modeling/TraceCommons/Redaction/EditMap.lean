import TraceCommons.Lib.Splice

/-! # The private edit map

The redactor rewrites a text in several steps, each step a list of edits of the text the steps before
it left. The map carries for every byte of the current text where in the original it came from, or
that it was inserted, and in the end reads the edits of the original off these origins. -/

namespace TraceCommons.Redaction

open Splice List

structure ByteSpan where
  start : Nat
  stop : Nat
  deriving DecidableEq

structure RedactionEdit where
  original : ByteSpan
  replacement : List UInt8
  deriving DecidableEq

def RedactionEdit.cut (e : RedactionEdit) : Cut UInt8 :=
  ⟨e.original.start, e.original.stop, e.replacement⟩

def replaceRanges (text : List UInt8) (edits : List RedactionEdit) : List UInt8 :=
  splice text 0 (edits.map (·.cut))

def maxBytes : Nat := 1024 * 1024

def maxEdits : Nat := 4096

/-- `u32::MAX`, the origin of an inserted byte. -/
def inserted : Nat := 2 ^ 32 - 1

structure EditMap where
  originalLen : Nat
  origins : List Nat
  deriving DecidableEq

namespace EditMap

/-! ## The source -/

def new (len : Nat) : Option EditMap :=
  if len ≤ maxBytes then some ⟨len, List.range len⟩ else none

/-- The loop of `apply`: the output so far and the cursor. -/
def applyLoop (origins : List Nat) :
    List Nat → Nat → List RedactionEdit → Option (List Nat × Nat)
  | output, cursor, [] => some (output, cursor)
  | output, cursor, edit :: edits =>
    let start := edit.original.start
    let stop := edit.original.stop
    if start < cursor ∨ stop < start ∨ stop > origins.length then none
    else if output.length + (start - cursor) + edit.replacement.length > maxBytes then none
    else applyLoop origins
      (output ++ (origins.drop cursor).take (start - cursor) ++
        List.replicate edit.replacement.length inserted) stop edits

/-- The map after the call, and whether it succeeded. -/
def apply (m : EditMap) (edits : List RedactionEdit) : EditMap × Option Unit :=
  match applyLoop m.origins [] 0 edits with
  | none => (m, none)
  | some (output, cursor) =>
    if output.length + (m.origins.length - cursor) > maxBytes then (m, none)
    else ({ m with origins := output ++ m.origins.drop cursor }, some ())

/-- The loop of `finish` over the bytes and their origins. -/
def finishLoop : List RedactionEdit → Nat → List UInt8 → List (UInt8 × Nat) →
    Option (List RedactionEdit × Nat × List UInt8)
  | result, original, ins, [] => some (result, original, ins)
  | result, original, ins, (byte, origin) :: rest =>
    if origin = inserted then finishLoop result original (ins ++ [byte]) rest
    else if origin < original then none
    else if origin > original ∨ ins ≠ [] then
      finishLoop (result ++ [⟨⟨original, origin⟩, ins⟩]) (origin + 1) [] rest
    else finishLoop result (origin + 1) ins rest

def finish (m : EditMap) (sanitized : List UInt8) : Option (List RedactionEdit) :=
  if m.origins.length ≠ sanitized.length then none
  else match finishLoop [] 0 [] (sanitized.zip m.origins) with
    | none => none
    | some (result, original, ins) =>
      let result :=
        if original < m.originalLen ∨ ins ≠ [] then
          result ++ [⟨⟨original, m.originalLen⟩, ins⟩]
        else result
      if result.length ≤ maxEdits then some result else none

/-- A session: the calls in turn, each with the edits of the text at that time. The result is the map
and the text after them, when all the calls succeed. -/
def applyAll : EditMap → List UInt8 → List (List RedactionEdit) → Option (EditMap × List UInt8)
  | m, text, [] => some (m, text)
  | m, text, edits :: rest =>
    match m.apply edits with
    | (_, none) => none
    | (m', some ()) => applyAll m' (replaceRanges text edits) rest

/-! ## One call -/

variable {m m' : EditMap} {edits : List RedactionEdit} {original text : List UInt8}

/-- The cuts an edit list makes in the origins. -/
def originCut (e : RedactionEdit) : Cut Nat :=
  ⟨e.original.start, e.original.stop, List.replicate e.replacement.length inserted⟩

theorem applyLoop_eq {origins output out : List Nat} {cursor cur : Nat}
    (h : applyLoop origins output cursor edits = some (out, cur)) :
    out ++ origins.drop cur = output ++ splice origins cursor (edits.map originCut) ∧
      Ordered origins.length cursor (edits.map originCut) := by
  induction edits generalizing output cursor with
  | nil =>
    cases h
    exact ⟨rfl, trivial⟩
  | cons e edits ih =>
    simp only [applyLoop] at h
    split at h
    · cases h
    split at h
    · cases h
    obtain ⟨heq, hord⟩ := ih h
    refine ⟨?_, ?_⟩
    · rw [heq, map_cons, splice]
      simp [originCut]
    · refine ⟨?_, ?_, ?_, hord⟩ <;> simp only [originCut] <;> omega

/-- A call that succeeds cuts the origins where the edits cut the text. -/
theorem apply_ok (h : m.apply edits = (m', some ())) :
    m' = { m with origins := splice m.origins 0 (edits.map originCut) } ∧
      Ordered m.origins.length 0 (edits.map originCut) := by
  simp only [apply] at h
  split at h
  · cases h
  rename_i output cursor hloop
  split at h
  · cases h
  · obtain ⟨heq, hord⟩ := applyLoop_eq hloop
    cases h
    exact ⟨by rw [heq]; rfl, hord⟩

theorem apply_none (h : (m.apply edits).2 = none) : (m.apply edits).1 = m := by
  cases hloop : applyLoop m.origins [] 0 edits with
  | none => simp [apply, hloop]
  | some r =>
    simp only [apply, hloop] at h ⊢
    split at h
    next hcap => rw [if_pos hcap]
    · cases h

/-! ## What the origins say -/

/-- The origins are those of `text` in `original`. -/
structure Traces (m : EditMap) (original text : List UInt8) : Prop where
  len : m.originalLen = original.length
  small : original.length ≤ maxBytes
  bytes : List.Forall₂ (fun byte origin => origin = inserted ∨ original[origin]? = some byte)
    text m.origins
  increasing : (m.origins.filter (· != inserted)).Pairwise (· < ·)

theorem new_traces (h : new original.length = some m) : m.Traces original original := by
  simp only [new] at h
  split at h
  · cases h
    refine ⟨rfl, ‹_›, ?_, pairwise_lt_range.filter _⟩
    rw [forall₂_iff_get]
    simp
  · cases h

theorem Traces.apply (h : m.Traces original text) (he : m.apply edits = (m', some ())) :
    m'.Traces original (replaceRanges text edits) := by
  obtain ⟨rfl, hord⟩ := apply_ok he
  refine ⟨h.len, h.small, splice_forall₂ h.bytes ?_, ?_⟩
  · rw [forall₂_map_left_iff, forall₂_map_right_iff, forall₂_same]
    refine fun e _ => ⟨rfl, rfl, ?_⟩
    rw [originCut, RedactionEdit.cut, forall₂_iff_get]
    exact ⟨by simp, fun i h1 h2 => .inl (by simp)⟩
  · refine h.increasing.sublist (filter_splice_sublist ?_ hord)
    simp [originCut]

theorem Traces.applyAll {rounds : List (List RedactionEdit)} {final : List UInt8}
    (h : m.Traces original text) (hall : m.applyAll text rounds = some (m', final)) :
    m'.Traces original final := by
  induction rounds generalizing m text with
  | nil =>
    cases hall
    exact h
  | cons edits rounds ih =>
    simp only [EditMap.applyAll] at hall
    split at hall
    · cases hall
    next m1 he => exact ih (h.apply he) hall

/-! ## Reading the edits off -/

/-- The edits that `finish` makes of the bytes from `original` on, with `ins` not yet placed. -/
def editsFrom (len : Nat) : Nat → List UInt8 → List (UInt8 × Nat) → List RedactionEdit
  | original, ins, [] =>
    if original < len ∨ ins ≠ [] then [⟨⟨original, len⟩, ins⟩] else []
  | original, ins, (byte, origin) :: rest =>
    if origin = inserted then editsFrom len original (ins ++ [byte]) rest
    else if origin > original ∨ ins ≠ [] then
      ⟨⟨original, origin⟩, ins⟩ :: editsFrom len (origin + 1) [] rest
    else editsFrom len (origin + 1) ins rest

theorem finishLoop_eq {result : List RedactionEdit} {o : Nat} {ins : List UInt8}
    {pairs : List (UInt8 × Nat)} {result' : List RedactionEdit} {o' : Nat} {ins' : List UInt8}
    (len : Nat) (h : finishLoop result o ins pairs = some (result', o', ins')) :
    (if o' < len ∨ ins' ≠ [] then result' ++ [⟨⟨o', len⟩, ins'⟩] else result') =
      result ++ editsFrom len o ins pairs := by
  induction pairs generalizing result o ins with
  | nil =>
    cases h
    rw [editsFrom]
    split <;> simp
  | cons p pairs ih =>
    simp only [finishLoop] at h
    rw [editsFrom]
    split at h
    next hins => rw [if_pos hins, ih h]
    rename_i hins
    rw [if_neg hins]
    split at h
    · cases h
    · split at h
      next hcut => rw [if_pos hcut, ih h, append_assoc]; rfl
      next hcut => rw [if_neg hcut, ih h]

/-- The edits read off are in order and within the original, and give the text back. -/
theorem editsFrom_replaces {pairs : List (UInt8 × Nat)} {o : Nat} (ins : List UInt8)
    (hbytes : ∀ p ∈ pairs, p.2 = inserted ∨ original[p.2]? = some p.1)
    (hinc : ((pairs.map (·.2)).filter (· != inserted)).Pairwise (· < ·))
    (hfrom : ∀ p ∈ pairs, p.2 ≠ inserted → o ≤ p.2) (ho : o ≤ original.length) :
    splice original o ((editsFrom original.length o ins pairs).map (·.cut)) =
      ins ++ pairs.map (·.1) ∧
    Ordered original.length o ((editsFrom original.length o ins pairs).map (·.cut)) := by
  induction pairs generalizing o ins with
  | nil =>
    rw [editsFrom]
    split
    · simp only [map_cons, map_nil, RedactionEdit.cut, splice, Nat.sub_self,
        take_zero, nil_append, drop_length]
      exact ⟨trivial, Nat.le_refl o, ho, Nat.le_refl _, trivial⟩
    next hend =>
      rw [not_or, Nat.not_lt, not_not] at hend
      rw [hend.2]
      exact ⟨drop_eq_nil_of_le hend.1, trivial⟩
  | cons p pairs ih =>
    obtain ⟨byte, origin⟩ := p
    have hbytes' := fun p hp => hbytes p (.tail _ hp)
    rw [editsFrom]
    by_cases horigin : origin = inserted
    · -- an inserted byte is put aside
      rw [if_pos horigin]
      have hinc' : ((pairs.map (·.2)).filter (· != inserted)).Pairwise (· < ·) := by
        rwa [map_cons, filter_cons_of_neg (by simp [horigin])] at hinc
      obtain ⟨htext, hord⟩ := ih _ hbytes' hinc'
        (fun p hp => hfrom p (.tail _ hp)) ho
      refine ⟨?_, hord⟩
      rw [htext, append_assoc]
      rfl
    · -- a kept byte: the rest is taken from the place after it
      rw [if_neg horigin]
      have hle : o ≤ origin := hfrom _ (.head _) horigin
      have hbyte : original[origin]? = some byte :=
        (hbytes _ (.head _)).resolve_left horigin
      have hlt : origin < original.length := (List.getElem?_eq_some_iff.1 hbyte).1
      rw [map_cons, filter_cons_of_pos (by simp [horigin]), pairwise_cons] at hinc
      have hnext : ∀ p ∈ pairs, p.2 ≠ inserted → origin + 1 ≤ p.2 := by
        intro p hp hne
        refine hinc.1 p.2 ?_
        exact mem_filter.2 ⟨mem_map_of_mem hp, by simpa using hne⟩
      obtain ⟨htext, hord⟩ := ih [] hbytes' hinc.2 hnext hlt
      have hkeep : splice original origin
          ((editsFrom original.length (origin + 1) [] pairs).map (·.cut)) =
            byte :: pairs.map (·.1) := by
        rw [splice_skip hord (Nat.le_succ _), htext, Nat.add_sub_cancel_left,
          take_one, head?_drop, hbyte]
        rfl
      split
      · refine ⟨?_, Nat.le_refl o, hle, Nat.le_of_lt hlt, hord.mono (Nat.le_succ _)⟩
        simp only [map_cons, RedactionEdit.cut, splice, Nat.sub_self]
        exact congrArg _ hkeep
      next hcut =>
        rw [not_or, Nat.not_lt, not_not] at hcut
        obtain rfl : origin = o := Nat.le_antisymm hcut.1 hle
        rw [hcut.2]
        exact ⟨hkeep, hord.mono (Nat.le_succ _)⟩

theorem Traces.finish {final : List UInt8} (h : m.Traces original final)
    (hf : m.finish final = some edits) :
    replaceRanges original edits = final ∧
      Ordered original.length 0 (edits.map (·.cut)) := by
  simp only [EditMap.finish] at hf
  split at hf
  · cases hf
  split at hf
  · cases hf
  rename_i result o ins hloop
  rw [finishLoop_eq _ hloop, h.len] at hf
  obtain ⟨-, he⟩ := Option.ite_none_right_eq_some.1 hf
  cases he
  have hsame : final.length = m.origins.length := h.bytes.length_eq
  have hbytes : ∀ p ∈ final.zip m.origins, p.2 = inserted ∨ original[p.2]? = some p.1 :=
    fun p hp => (forall₂_iff_zip.1 h.bytes).2 hp
  have hinc : (((final.zip m.origins).map (·.2)).filter (· != inserted)).Pairwise (· < ·) := by
    rw [map_snd_zip (Nat.le_of_eq hsame.symm)]
    exact h.increasing
  obtain ⟨htext, hord⟩ := editsFrom_replaces [] hbytes hinc
    (fun _ _ _ => Nat.zero_le _) (Nat.zero_le _)
  rw [map_fst_zip (Nat.le_of_eq hsame)] at htext
  exact ⟨htext, hord⟩

/-- The edits that come out of a session are edits of the original that give the final text; and a
call that fails leaves the map as it was. -/
theorem edits_are_provenance (original final : List UInt8) (rounds : List (List RedactionEdit))
    (m₀ m : EditMap) (edits : List RedactionEdit) (hnew : new original.length = some m₀)
    (hall : m₀.applyAll original rounds = some (m, final)) (hfinish : m.finish final = some edits) :
    edits.Pairwise (fun a b => a.original.stop ≤ b.original.start) ∧
    (∀ e ∈ edits, e.original.start ≤ e.original.stop ∧ e.original.stop ≤ original.length) ∧
    replaceRanges original edits = final ∧
    ∀ (m : EditMap) (edits : List RedactionEdit), (m.apply edits).2 = none →
      (m.apply edits).1 = m := by
  obtain ⟨htext, hord⟩ := ((new_traces hnew).applyAll hall).finish hfinish
  refine ⟨pairwise_map.1 hord.pairwise, fun e he => ?_, htext, fun m edits => apply_none⟩
  exact (hord.bounds _ (mem_map_of_mem he)).2

/-- A replacement edited inside comes out as one edit of the original. -/
theorem edits_are_provenance_inside_placeholder :
    replaceRanges [97, 97, 32, 115, 101, 99, 114, 101, 116, 97, 97]
      [⟨⟨3, 9⟩, [60, 104, 105, 62]⟩] = [97, 97, 32, 60, 104, 105, 62, 97, 97] :=
  (edits_are_provenance [97, 97, 32, 115, 101, 99, 114, 101, 116, 97, 97]
    [97, 97, 32, 60, 104, 105, 62, 97, 97] [[⟨⟨3, 9⟩, [60, 110, 62]⟩], [⟨⟨4, 5⟩, [104, 105]⟩]]
    ⟨11, range 11⟩
    ⟨11, [0, 1, 2, inserted, inserted, inserted, inserted, 9, 10]⟩
    [⟨⟨3, 9⟩, [60, 104, 105, 62]⟩] (by decide) (by decide +kernel) (by decide +kernel)).2.2.1

end EditMap

end TraceCommons.Redaction
