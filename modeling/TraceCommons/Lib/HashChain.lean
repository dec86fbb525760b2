import Mathlib

/-! # Linked lists of hashes

Items that each name the hash before them and carry one of their own. -/

namespace TraceCommons.HashChain

open List

variable {α H : Type} {prev own : α → H} {g : H} {a b : α} {as bs : List α}

/-- Each item names the hash of the one before it, the first one names `g`. -/
def Linked (prev own : α → H) : H → List α → Prop
  | _, [] => True
  | g, a :: as => prev a = g ∧ Linked prev own (own a) as

/-- The hash the next item has to name. -/
def head (own : α → H) (g : H) (as : List α) : H := (as.getLast?.map own).getD g

@[simp] theorem head_nil : head own g [] = g := rfl

@[simp] theorem head_concat : head own g (as ++ [a]) = own a := by
  simp [head]

theorem head_cons : head own g (a :: as) = head own (own a) as := by
  cases as using reverseRecOn with
  | nil => rfl
  | append_singleton as b =>
    rw [← cons_append, head_concat, head_concat]

theorem linked_append :
    Linked prev own g (as ++ bs) ↔ Linked prev own g as ∧ Linked prev own (head own g as) bs := by
  induction as generalizing g with
  | nil => simp [Linked]
  | cons a as ih => rw [cons_append, Linked, ih, Linked, head_cons, and_assoc]

theorem linked_concat :
    Linked prev own g (as ++ [a]) ↔ Linked prev own g as ∧ prev a = head own g as := by
  rw [linked_append]
  simp [Linked]

/-- The head after a part of a chain is the hash that the next item names. -/
theorem Linked.prev_eq (h : Linked prev own g (as ++ b :: bs)) : prev b = head own g as :=
  (linked_append.1 h).2.1

/-- Where an own hash fixes the hash before it and is never the first one, no hash comes twice. -/
theorem Linked.nodup (hprev : ∀ a ∈ as, ∀ b ∈ as, own a = own b → prev a = prev b)
    (hg : ∀ a ∈ as, own a ≠ g) (h : Linked prev own g as) : (as.map own).Nodup := by
  induction as using reverseRecOn with
  | nil => exact nodup_nil
  | append_singleton as a ih =>
    have hin : ∀ b ∈ as, b ∈ as ++ [a] := fun b hb => mem_append_left _ hb
    have hnd := ih (fun x hx y hy => hprev x (hin x hx) y (hin y hy)) (fun x hx => hg x (hin x hx))
      (linked_concat.1 h).1
    rw [map_append, nodup_append]
    refine ⟨hnd, by simp, ?_⟩
    rintro x hx _ hy rfl
    obtain ⟨b, hb, rfl⟩ := mem_map.1 hx
    have hown : own b = own a := by simpa using hy
    obtain ⟨l, r, rfl⟩ := append_of_mem hb
    -- both items name the same hash, so the chain up to `b` and the whole chain have one head
    have hpb : prev b = head own g l := (linked_concat.1 h).1.prev_eq
    have hpa : prev a = head own g (l ++ b :: r) := (linked_concat.1 h).2
    have heq := hprev b (hin b hb) a (mem_append_right _ (.head _)) hown
    rw [hpb, hpa] at heq
    obtain ⟨c, r', hr⟩ : ∃ c r', b :: r = r' ++ [c] :=
      ⟨(b :: r).getLast _, (b :: r).dropLast, (dropLast_concat_getLast (cons_ne_nil b r)).symm⟩
    rw [hr, ← append_assoc, head_concat] at heq
    have hc : c ∈ l ++ b :: r := by rw [hr]; simp
    cases l using reverseRecOn with
    | nil => exact hg c (hin c hc) heq.symm
    | append_singleton l d =>
      rw [head_concat] at heq
      rw [hr, map_append, nodup_append] at hnd
      exact hnd.2.2 _ (by simp) _ (by simp) heq

/-- Where an own hash fixes the hash before it and what is read of an item, and is never the first
one, the head of a chain fixes what is read of all of it. -/
theorem Linked.map_eq_of_head {β : Type} {f : α → β} {P : α → Prop}
    (hown : ∀ {a b}, P a → P b → own a = own b → prev a = prev b ∧ f a = f b)
    (hg : ∀ {a}, P a → own a ≠ g) (ha : ∀ a ∈ as, P a) (hb : ∀ b ∈ bs, P b)
    (h : Linked prev own g as) (h' : Linked prev own g bs)
    (hhead : head own g as = head own g bs) : as.map f = bs.map f := by
  induction as using reverseRecOn generalizing bs with
  | nil =>
    cases bs using reverseRecOn with
    | nil => rfl
    | append_singleton bs b => exact absurd (head_concat.symm.trans hhead.symm) (hg (hb b (by simp)))
  | append_singleton as a ih =>
    cases bs using reverseRecOn with
    | nil => exact absurd (head_concat.symm.trans hhead) (hg (ha a (by simp)))
    | append_singleton bs b =>
      rw [forall_mem_append, forall_mem_singleton] at ha hb
      rw [head_concat, head_concat] at hhead
      obtain ⟨hprev, hf⟩ := hown ha.2 hb.2 hhead
      obtain ⟨h, hpa⟩ := linked_concat.1 h
      obtain ⟨h', hpb⟩ := linked_concat.1 h'
      rw [hpa, hpb] at hprev
      rw [map_append, map_append, map_singleton, map_singleton, hf, ih ha.1 hb.1 h h' hprev]

end TraceCommons.HashChain
