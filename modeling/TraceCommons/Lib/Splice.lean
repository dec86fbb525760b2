import Mathlib

/-! # Replacing ranges of a list

Cuts are taken from left to right, each from the end of the one before it. -/

namespace TraceCommons.Splice

open List

variable {α β : Type}

/-- The range from `start` up to `stop` is replaced by `fill`. -/
structure Cut (α : Type) where
  start : Nat
  stop : Nat
  fill : List α

def splice (text : List α) : Nat → List (Cut α) → List α
  | c, [] => text.drop c
  | c, k :: ks => (text.drop c).take (k.start - c) ++ k.fill ++ splice text k.stop ks

/-- The cuts are in order and apart, from `c` on and up to `n`. -/
def Ordered (n : Nat) : Nat → List (Cut α) → Prop
  | _, [] => True
  | c, k :: ks => c ≤ k.start ∧ k.start ≤ k.stop ∧ k.stop ≤ n ∧ Ordered n k.stop ks

variable {n c d : Nat} {text : List α} {ks : List (Cut α)}

theorem Ordered.mono (h : Ordered n d ks) (hcd : c ≤ d) : Ordered n c ks := by
  cases ks with
  | nil => trivial
  | cons k ks => exact ⟨Nat.le_trans hcd h.1, h.2⟩

theorem Ordered.bounds (h : Ordered n c ks) :
    ∀ k ∈ ks, c ≤ k.start ∧ k.start ≤ k.stop ∧ k.stop ≤ n := by
  induction ks generalizing c with
  | nil => exact fun k hk => absurd hk not_mem_nil
  | cons k ks ih =>
    obtain ⟨hc, hs, hn, htail⟩ := h
    intro x hx
    rcases mem_cons.1 hx with rfl | hx
    · exact ⟨hc, hs, hn⟩
    · obtain ⟨hx, hrest⟩ := ih htail x hx
      exact ⟨by omega, hrest⟩

theorem Ordered.pairwise (h : Ordered n c ks) : ks.Pairwise fun k l => k.stop ≤ l.start := by
  induction ks generalizing c with
  | nil => exact List.Pairwise.nil
  | cons k ks ih =>
    exact List.Pairwise.cons (fun l hl => (h.2.2.2.bounds l hl).1) (ih h.2.2.2)

/-- What lies before the first cut is kept as it is. -/
theorem splice_skip (h : Ordered n d ks) (hcd : c ≤ d) :
    splice text c ks = (text.drop c).take (d - c) ++ splice text d ks := by
  obtain ⟨e, rfl⟩ := Nat.exists_eq_add_of_le hcd
  rw [Nat.add_sub_cancel_left]
  cases ks with
  | nil =>
    rw [splice, splice, ← drop_drop, take_append_drop]
  | cons k ks =>
    obtain ⟨f, hf⟩ := Nat.exists_eq_add_of_le h.1
    simp only [splice, hf]
    rw [Nat.add_assoc, Nat.add_sub_cancel_left, Nat.add_comm e f, ← Nat.add_assoc,
      Nat.add_right_comm, Nat.add_sub_cancel_left, ← append_assoc, ← append_assoc,
      Nat.add_comm f e, take_add, drop_drop]

/-- Two lists that match place by place, cut at the same places, match again. -/
theorem splice_forall₂ {R : α → β → Prop} {other : List β} {ls : List (Cut β)}
    (h : List.Forall₂ R text other)
    (hk : List.Forall₂ (fun k l => k.start = l.start ∧ k.stop = l.stop ∧
      List.Forall₂ R k.fill l.fill) ks ls) :
    List.Forall₂ R (splice text c ks) (splice other c ls) := by
  induction hk generalizing c with
  | nil => exact forall₂_drop c h
  | cons hkl _ ih =>
    obtain ⟨hstart, hstop, hfill⟩ := hkl
    rw [splice, hstart, hstop]
    exact rel_append (rel_append (forall₂_take _ (forall₂_drop c h)) hfill) ih

/-- With nothing of interest filled in, what is left of interest keeps its order. -/
theorem filter_splice_sublist {p : α → Bool} (hk : ∀ k ∈ ks, k.fill.filter p = [])
    (h : Ordered n c ks) : ((splice text c ks).filter p).Sublist ((text.drop c).filter p) := by
  induction ks generalizing c with
  | nil => exact List.Sublist.refl _
  | cons k ks ih =>
    obtain ⟨hc, hs, -, htail⟩ := h
    have htake := ih (fun l hl => hk l (.tail k hl)) htail
    rw [splice, filter_append, filter_append, hk k (.head _), append_nil]
    have hdrop : ((text.drop k.stop).filter p).Sublist ((text.drop k.start).filter p) := by
      obtain ⟨f, hf⟩ := Nat.exists_eq_add_of_le hs
      rw [hf, ← drop_drop]
      exact (drop_sublist f _).filter p
    have hsplit : (text.drop c).filter p =
        ((text.drop c).take (k.start - c)).filter p ++ (text.drop k.start).filter p := by
      obtain ⟨f, hf⟩ := Nat.exists_eq_add_of_le hc
      rw [← filter_append, hf, Nat.add_sub_cancel_left, ← drop_drop, take_append_drop]
    rw [hsplit]
    exact List.Sublist.append (List.Sublist.refl _) (htake.trans hdrop)

/-! ## Places that are left -/

def Cut.map (f : α → β) (k : Cut α) : Cut β := ⟨k.start, k.stop, k.fill.map f⟩

theorem map_splice (f : α → β) (text : List α) (c : Nat) (ks : List (Cut α)) :
    (splice text c ks).map f = splice (text.map f) c (ks.map (Cut.map f)) := by
  induction ks generalizing c with
  | nil => rw [splice, map_nil, splice, map_drop]
  | cons k ks ih =>
    rw [splice, map_append, map_append, ih, map_take, map_drop]
    rfl

theorem mem_splice {x : α} (h : x ∈ splice text c ks) : x ∈ text ∨ ∃ k ∈ ks, x ∈ k.fill := by
  induction ks generalizing c with
  | nil => exact .inl (mem_of_mem_drop h)
  | cons k ks ih =>
    rw [splice, mem_append, mem_append] at h
    rcases h with (h | h) | h
    · exact .inl (mem_of_mem_drop (mem_of_mem_take h))
    · exact .inr ⟨k, .head _, h⟩
    · exact (ih h).imp_right fun ⟨l, hl, hx⟩ => ⟨l, .tail _ hl, hx⟩

/-- The places no cut has. -/
def outside (ks : List (Cut α)) (i : Nat) : Bool := ks.all fun k => i < k.start ∨ k.stop ≤ i

theorem range'_split {a b c : Nat} (hab : a ≤ b) (hbc : b ≤ c) :
    range' a (c - a) = range' a (b - a) ++ range' b (c - b) := by
  obtain ⟨m, rfl⟩ := Nat.exists_eq_add_of_le hab
  obtain ⟨k, rfl⟩ := Nat.exists_eq_add_of_le hbc
  rw [Nat.add_sub_cancel_left, Nat.add_sub_cancel_left, range'_append_1, Nat.add_assoc,
    Nat.add_sub_cancel_left]

theorem drop_places (n c : Nat) :
    ((range n).map some).drop c = (range' c (n - c)).map some := by
  rw [← map_drop, range_eq_range', drop_range', Nat.zero_add, Nat.mul_one]

/-- Of the places of a list, cut with nothing put in, those outside the cuts are left, in order. -/
theorem places_left {ks : List (Cut (Option Nat))} (hfill : ∀ k ∈ ks, k.fill.filterMap id = [])
    (h : Ordered n c ks) (hn : c ≤ n) :
    (splice ((range n).map some) c ks).filterMap id =
      (range' c (n - c)).filter (outside ks) := by
  induction ks generalizing c with
  | nil =>
    rw [splice, drop_places, filterMap_map]
    exact filterMap_some.trans (filter_eq_self.2 fun _ _ => rfl).symm
  | cons k ks ih =>
    obtain ⟨hc, hs, hn', htail⟩ := h
    have hrest := ih (fun l hl => hfill l (.tail _ hl)) htail hn'
    have hbefore : (range' c (k.start - c)).filter (outside (k :: ks)) =
        range' c (k.start - c) := by
      refine filter_eq_self.2 fun i hi => all_eq_true.2 fun l hl => decide_eq_true ?_
      have hrange := mem_range'_1.1 hi
      rcases mem_cons.1 hl with rfl | hl
      · omega
      · have hbounds := htail.bounds l hl
        omega
    have hin : (range' k.start (k.stop - k.start)).filter (outside (k :: ks)) = [] := by
      refine filter_eq_nil_iff.2 fun i hi hout => ?_
      have hrange := mem_range'_1.1 hi
      have hk := of_decide_eq_true (all_eq_true.1 hout k (.head _))
      omega
    have hafter : (range' k.stop (n - k.stop)).filter (outside (k :: ks)) =
        (range' k.stop (n - k.stop)).filter (outside ks) := by
      refine filter_congr fun i hi => ?_
      have hrange := mem_range'_1.1 hi
      have hk : decide (i < k.start ∨ k.stop ≤ i) = true := decide_eq_true (by omega)
      rw [outside, all_cons, hk, Bool.true_and, outside]
    have htake : ((range' c (n - c)).map some).take (k.start - c) =
        (range' c (k.start - c)).map some := by
      rw [range'_split hc (Nat.le_trans hs hn'), map_append]
      refine take_left' ?_
      rw [length_map, length_range']
    rw [splice, filterMap_append, filterMap_append, hfill k (.head _),
      append_nil, hrest, drop_places, htake, filterMap_map,
      range'_split hc (Nat.le_trans hs hn'), range'_split hs hn', filter_append, filter_append,
      hbefore, hin, hafter]
    exact congrArg (· ++ _) filterMap_some

end TraceCommons.Splice
