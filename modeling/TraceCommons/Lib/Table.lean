import Mathlib

/-! # Tables with a key

A table is a list of rows; a column whose values are all different is a key of it. -/

namespace TraceCommons.Table

open List

variable {α κ : Type} {l : List α} {f : α → κ}

variable {b : α}

theorem append_key (h : (l.map f).Nodup) (hb : ∀ a ∈ l, f a ≠ f b) : ((l ++ [b]).map f).Nodup := by
  rw [map_append, nodup_append]
  refine ⟨h, nodup_singleton _, fun x hx y hy => ?_⟩
  obtain ⟨a, ha, rfl⟩ := mem_map.1 hx
  rw [map_singleton, mem_singleton] at hy
  exact hy ▸ hb a ha

/-- A change of the rows that leaves the column alone. -/
theorem map_key {g : α → α} (hg : ∀ a, f (g a) = f a) : (l.map g).map f = l.map f := by
  rw [map_map]
  exact map_congr_left fun a _ => hg a

/-- A sum over the rows of a kind, as one over the whole table. -/
theorem sum_filter (p : α → Bool) (w : α → Nat) :
    ((l.filter p).map w).sum = (l.map fun a => if p a then w a else 0).sum := by
  induction l with
  | nil => rfl
  | cons a l ih =>
    rw [filter_cons, map_cons, sum_cons, ← ih]
    split
    · rw [map_cons, sum_cons]
    · rw [Nat.zero_add]

variable [DecidableEq κ] {k : κ} {a : α}

theorem mem_of_find (h : l.find? (fun x => f x = k) = some a) : a ∈ l ∧ f a = k :=
  ⟨mem_of_find?_eq_some h, by simpa using find?_some h⟩

theorem ne_of_find_none (h : l.find? (fun x => f x = k) = none) {a : α} (ha : a ∈ l) : f a ≠ k := by
  simpa using find?_eq_none.1 h a ha

theorem find_of_mem (h : (l.map f).Nodup) (ha : a ∈ l) :
    l.find? (fun x => f x = f a) = some a := by
  cases hf : l.find? _ with
  | none => exact absurd rfl (ne_of_find_none hf ha)
  | some b =>
    obtain ⟨hb, hk⟩ := mem_of_find hf
    rw [inj_on_of_nodup_map h hb ha hk]

/-! ## Replacing a row -/

/-- The table with `b` in place of the row under its key. -/
def set (f : α → κ) (b : α) (l : List α) : List α := l.map fun a => if f a = f b then b else a

@[simp] theorem set_key (b : α) : (set f b l).map f = l.map f := by
  refine map_key fun a => ?_
  split
  next h => exact h.symm
  · rfl

theorem mem_set : a ∈ set f b l ↔ (a ∈ l ∧ f a ≠ f b) ∨ (a = b ∧ ∃ c ∈ l, f c = f b) := by
  rw [set, mem_map]
  constructor
  · rintro ⟨c, hc, rfl⟩
    split
    next h => exact .inr ⟨rfl, c, hc, h⟩
    next h => exact .inl ⟨hc, h⟩
  · rintro (⟨ha, hne⟩ | ⟨rfl, c, hc, hk⟩)
    · exact ⟨a, ha, if_neg hne⟩
    · exact ⟨c, hc, if_pos hk⟩

/-- A sum over the table moves by what the one row moved by. -/
theorem sum_set (h : (l.map f).Nodup) (ha : a ∈ l) (hk : f a = f b) (w : α → Nat) :
    ((set f b l).map w).sum + w a = (l.map w).sum + w b := by
  induction l with
  | nil => cases ha
  | cons c l ih =>
    rw [map_cons, nodup_cons] at h
    rcases mem_cons.1 ha with rfl | ha
    · have hrest : set f b l = l := by
        refine (map_congr_left fun x hx => ?_).trans (map_id l)
        refine if_neg fun he => h.1 ?_
        rw [hk, ← he]
        exact mem_map_of_mem hx
      simp only [set, map_cons, if_pos hk, sum_cons] at hrest ⊢
      rw [hrest]
      omega
    · have hne : f c ≠ f b := fun he => h.1 (he ▸ hk ▸ mem_map_of_mem ha)
      have := ih h.2 ha
      simp only [set, map_cons, if_neg hne, sum_cons] at this ⊢
      omega

/-- The row under the key of `b`, or a new row. -/
def put (f : α → κ) (b : α) (l : List α) : List α :=
  if l.any (fun a => f a = f b) then set f b l else l ++ [b]

theorem put_of_mem (ha : a ∈ l) (hk : f a = f b) : put f b l = set f b l :=
  if_pos (any_eq_true.2 ⟨a, ha, decide_eq_true hk⟩)

theorem put_of_not_mem (h : ∀ a ∈ l, f a ≠ f b) : put f b l = l ++ [b] := by
  refine if_neg fun hany => ?_
  obtain ⟨a, ha, hk⟩ := any_eq_true.1 hany
  exact h a ha (of_decide_eq_true hk)

theorem put_key (h : (l.map f).Nodup) (b : α) : ((put f b l).map f).Nodup := by
  by_cases hb : ∃ a ∈ l, f a = f b
  · obtain ⟨a, ha, hk⟩ := hb
    rwa [put_of_mem ha hk, set_key]
  · push Not at hb
    rw [put_of_not_mem hb]
    exact append_key h hb

theorem mem_put : a ∈ put f b l ↔ (a ∈ l ∧ f a ≠ f b) ∨ a = b := by
  by_cases hb : ∃ c ∈ l, f c = f b
  · obtain ⟨c, hc, hk⟩ := hb
    rw [put_of_mem hc hk, mem_set]
    exact or_congr_right ⟨fun h => h.1, fun h => ⟨h, c, hc, hk⟩⟩
  · push Not at hb
    rw [put_of_not_mem hb, mem_append, mem_singleton]
    exact or_congr_left ⟨fun h => ⟨h, hb a h⟩, fun h => h.1⟩

/-- A sum over the table loses the row that was under the key and gains the new one. -/
theorem sum_put (h : (l.map f).Nodup) (b : α) (w : α → Nat) :
    ((put f b l).map w).sum + ((l.find? fun a => f a = f b).map w).getD 0 = (l.map w).sum + w b := by
  cases hf : l.find? _ with
  | none =>
    have hne : ∀ a ∈ l, f a ≠ f b := fun a ha => ne_of_find_none hf ha
    rw [put_of_not_mem hne]
    simp
  | some a =>
    obtain ⟨ha, hk⟩ := mem_of_find hf
    rw [put_of_mem ha hk]
    exact sum_set h ha hk w

/-- Summing what is under one key reads off the one row. -/
theorem sum_key (h : (l.map f).Nodup) (ha : a ∈ l) (w : α → Nat) :
    (l.map fun x => if f x = f a then w x else 0).sum = w a := by
  induction l with
  | nil => cases ha
  | cons c l ih =>
    rw [map_cons, nodup_cons] at h
    rw [map_cons, sum_cons]
    rcases mem_cons.1 ha with rfl | ha
    · have hrest : (l.map fun x => if f x = f a then w x else 0).sum = 0 := by
        refine sum_eq_zero fun n hn => ?_
        obtain ⟨x, hx, rfl⟩ := mem_map.1 hn
        refine if_neg fun he => h.1 ?_
        rw [← he]
        exact mem_map_of_mem hx
      rw [if_pos rfl, hrest, Nat.add_zero]
    · have hne : f c ≠ f a := fun he => h.1 (he ▸ mem_map_of_mem ha)
      rw [if_neg hne, ih h.2 ha, Nat.zero_add]

end TraceCommons.Table
