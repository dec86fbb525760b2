import TraceCommons.Lib.Splice

/-! # Spans of a list of positions

Half-open spans, put in the order of their starts. A walk over them that skips each span starting
inside the last one taken covers them all when a span that overlaps an earlier one lies within
it. -/

namespace TraceCommons

open List

structure Span where
  start : Nat
  stop : Nat
  deriving DecidableEq

namespace Span

def Has (s : Span) (i : Nat) : Prop := s.start ≤ i ∧ i < s.stop

def Overlaps (a b : Span) : Prop := a.start < b.stop ∧ b.start < a.stop

def Within (a b : Span) : Prop := b.start ≤ a.start ∧ a.stop ≤ b.stop

/-- Each place of the span is in one of `l`. -/
def CoveredBy (s : Span) (l : List Span) : Prop := ∀ i, s.Has i → ∃ t ∈ l, t.Has i

instance (s : Span) (i : Nat) : Decidable (s.Has i) := inferInstanceAs (Decidable (_ ∧ _))

instance (a b : Span) : Decidable (a.Overlaps b) := inferInstanceAs (Decidable (_ ∧ _))

instance (a b : Span) : Decidable (a.Within b) := inferInstanceAs (Decidable (_ ∧ _))

/-- A span that overlaps an earlier one lies within it. -/
def Nested (l : List Span) : Prop := l.Pairwise fun a b => a.Overlaps b → b.Within a

instance (l : List Span) : Decidable (Nested l) := inferInstanceAs (Decidable (l.Pairwise _))

variable {a b s : Span} {i c : Nat} {l : List Span}

theorem Within.has (h : a.Within b) (hi : a.Has i) : b.Has i :=
  ⟨h.1.trans hi.1, hi.2.trans_le h.2⟩

/-! ## In the order of starts -/

/-- A stable sort by `start`. -/
def sortByStart (l : List Span) : List Span := l.insertionSort fun a b => a.start ≤ b.start

theorem perm_sortByStart (l : List Span) : (sortByStart l).Perm l := perm_insertionSort _ l

theorem mem_sortByStart : s ∈ sortByStart l ↔ s ∈ l := (perm_sortByStart l).mem_iff

theorem sorted_sortByStart (l : List Span) :
    (sortByStart l).Pairwise fun a b => a.start ≤ b.start := by
  exact pairwise_insertionSort _ l

/-- The sort is stable, so it keeps the nesting: a span put before an earlier one starts before it
and cannot lie within it. -/
theorem Nested.sortByStart (h : Nested l) : Nested (sortByStart l) := by
  induction l with
  | nil => exact List.Pairwise.nil
  | cons a l ih =>
    obtain ⟨hhead, htail⟩ := pairwise_cons.1 h
    have hsorted : Nested (Span.sortByStart l) := ih htail
    have hfirst : ∀ b ∈ Span.sortByStart l, a.Overlaps b → b.Within a := fun b hb =>
      hhead b (mem_sortByStart.1 hb)
    rw [Span.sortByStart, insertionSort_cons, ← Span.sortByStart]
    generalize Span.sortByStart l = r at hsorted hfirst
    induction r with
    | nil => exact pairwise_singleton _ _
    | cons b r ihr =>
      rw [orderedInsert_cons]
      split
      · exact pairwise_cons.2 ⟨hfirst, hsorted⟩
      rename_i hlt
      obtain ⟨hb, hr⟩ := pairwise_cons.1 hsorted
      refine pairwise_cons.2 ⟨fun x hx => ?_, ihr hr fun x hx => hfirst x (.tail _ hx)⟩
      rcases (mem_orderedInsert _).1 hx with rfl | hx
      · intro hover
        have hwithin := hfirst b (.head _) ⟨hover.2, hover.1⟩
        exact absurd hwithin.1 hlt
      · exact hb x hx

/-! ## Spans that are taken -/

/-- The spans taken from the left, where `c` is the end of the last one. -/
def taken : Nat → List Span → List Span
  | _, [] => []
  | c, s :: l => if s.start < c then taken c l else s :: taken s.stop l

theorem taken_subset : ∀ (c : Nat) (l : List Span), taken c l ⊆ l
  | _, [] => fun _ h => h
  | c, s :: l => by
    rw [taken]
    split
    · exact fun x hx => .tail _ (taken_subset c l hx)
    intro x hx
    rcases mem_cons.1 hx with rfl | hx
    · exact .head _
    · exact .tail _ (taken_subset _ l hx)

/-- Each span has its places in the last one taken, or in one taken after it. -/
theorem taken_covers_from (k : Span) (hstart : ∀ s ∈ l, k.start ≤ s.start)
    (hk : ∀ s ∈ l, k.Overlaps s → s.Within k)
    (hsorted : l.Pairwise fun a b => a.start ≤ b.start) (h : Nested l) (hs : s ∈ l)
    (hi : s.Has i) : k.Has i ∨ ∃ t ∈ taken k.stop l, t.Has i := by
  induction l generalizing k with
  | nil => exact absurd hs not_mem_nil
  | cons x l ih =>
    obtain ⟨hxs, hsorted⟩ := pairwise_cons.1 hsorted
    obtain ⟨hxn, hnested⟩ := pairwise_cons.1 h
    rw [taken]
    split
    next hskip =>
      rcases mem_cons.1 hs with rfl | hs
      · have hover : k.Overlaps s := by
          have hfirst := hstart s (.head _)
          obtain ⟨_, _⟩ := hi
          exact ⟨by omega, hskip⟩
        exact .inl ((hk s (.head _) hover).has hi)
      · exact ih k (fun t ht => hstart t (.tail _ ht)) (fun t ht => hk t (.tail _ ht)) hsorted
          hnested hs
    next =>
      refine .inr ?_
      rcases mem_cons.1 hs with rfl | hs
      · exact ⟨s, .head _, hi⟩
      · rcases ih x hxs hxn hsorted hnested hs with hx | ⟨t, ht, hti⟩
        · exact ⟨x, .head _, hx⟩
        · exact ⟨t, .tail _ ht, hti⟩

/-- Nested spans, taken in the order of their starts, are covered. -/
theorem taken_covers (h : Nested l) (hs : s ∈ l) : s.CoveredBy (taken 0 (sortByStart l)) := by
  intro i hi
  refine (taken_covers_from ⟨0, 0⟩ (fun t _ => Nat.zero_le _) (fun t _ hover => ?_)
    (sorted_sortByStart l) h.sortByStart (mem_sortByStart.2 hs) hi).resolve_left ?_
  · exact absurd hover.2 (Nat.not_lt_zero _)
  · exact fun hzero => absurd hzero.2 (Nat.not_lt_zero _)

/-! ## Merged spans -/

/-- What the spans of a sorted list join to, with `last` the one being grown. -/
def mergeFrom (last : Span) : List Span → List Span
  | [] => [last]
  | s :: l =>
    if s.start ≤ last.stop then mergeFrom ⟨last.start, max last.stop s.stop⟩ l
    else last :: mergeFrom s l

/-- A span with a place in a joined one has a place in one it is joined from. -/
theorem overlaps_of_mergeFrom {probe block : Span} (hprobe : probe.start < probe.stop)
    (hover : block.Overlaps probe) {last : Span} (hblock : block ∈ mergeFrom last l) :
    ∃ s ∈ last :: l, s.Overlaps probe := by
  induction l generalizing last with
  | nil =>
    obtain rfl := mem_singleton.1 hblock
    exact ⟨block, .head _, hover⟩
  | cons x l ih =>
    rw [mergeFrom] at hblock
    split at hblock
    next htouch =>
      obtain ⟨s, hs, hsover⟩ := ih hblock
      rcases mem_cons.1 hs with rfl | hs
      · obtain ⟨hlo, hhi⟩ := hsover
        rcases Nat.lt_or_ge _ _ with hin | _
        · exact ⟨last, .head _, hlo, hin⟩
        · have hmax : probe.start < max last.stop x.stop := hhi
          exact ⟨x, .tail _ (.head _), by omega, by omega⟩
      · exact ⟨s, .tail _ (.tail _ hs), hsover⟩
    · rcases mem_cons.1 hblock with rfl | hblock
      · exact ⟨block, .head _, hover⟩
      · obtain ⟨s, hs, hsover⟩ := ih hblock
        exact ⟨s, .tail _ hs, hsover⟩

/-! ## Spans cut out -/

/-- The span replaced by `fill`. -/
def cut {α : Type} (fill : List α) (s : Span) : Splice.Cut α := ⟨s.start, s.stop, fill⟩

theorem ordered_taken {α : Type} {n : Nat} (fill : List α)
    (h : ∀ s ∈ l, s.start ≤ s.stop ∧ s.stop ≤ n) :
    Splice.Ordered n c ((taken c l).map (cut fill)) := by
  induction l generalizing c with
  | nil => exact trivial
  | cons s l ih =>
    have htail := fun c => @ih c fun t ht => h t (.tail _ ht)
    rw [taken]
    split
    · exact htail c
    next hfrom =>
      obtain ⟨hle, hn⟩ := h s (.head _)
      exact ⟨Nat.not_lt.1 hfrom, hle, hn, htail _⟩

end Span

end TraceCommons
