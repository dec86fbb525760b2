import Mathlib

/-! # Lists addressed by the first match

Records are kept in the order they came, looked up and changed at the first one that matches, and
never taken out. `Grows R N` says what a change may do: each record becomes one that `R` allows in
its place, and what is new stands behind and satisfies `N`. -/

namespace TraceCommons.Shelf

open List

variable {α : Type} {p : α → Bool} {f : α → α} {l l' l'' : List α} {a b : α}

/-- `f` applied to the first record that matches. -/
def update (p : α → Bool) (f : α → α) : List α → List α
  | [] => []
  | a :: l => if p a then f a :: l else a :: update p f l

theorem find?_update (hf : ∀ a, p (f a) = p a) :
    (update p f l).find? p = (l.find? p).map f := by
  induction l with
  | nil => rfl
  | cons a l ih =>
    by_cases h : p a = true
    · rw [update, if_pos h, find?_cons_of_pos ((hf a).trans h), find?_cons_of_pos h,
        Option.map_some]
    · rw [update, if_neg h, find?_cons_of_neg h, find?_cons_of_neg h, ih]

theorem update_update {g : α → α} (hf : ∀ a, p (f a) = p a) :
    update p g (update p f l) = update p (fun a => g (f a)) l := by
  induction l with
  | nil => rfl
  | cons a l ih =>
    by_cases h : p a = true
    · simp [update, if_pos h, if_pos ((hf a).trans h)]
    · simp [update, if_neg h, ih]

theorem forall_update {P : α → Prop} (hl : ∀ a ∈ l, P a)
    (hf : ∀ a, l.find? p = some a → P (f a)) : ∀ a ∈ update p f l, P a := by
  induction l with
  | nil => exact hl
  | cons b l ih =>
    have hb := hl b (.head _)
    have htail := fun a ha => hl a (.tail b ha)
    rw [update]
    by_cases h : p b = true
    · rw [if_pos h]
      exact forall_mem_cons.2 ⟨hf b (find?_cons_of_pos h), htail⟩
    · rw [if_neg h]
      refine forall_mem_cons.2 ⟨hb, ih htail fun a ha => hf a ?_⟩
      rwa [find?_cons_of_neg h]

/-- What a change may do to the records: it adds one at most. -/
inductive Grows (R : α → α → Prop) (N : α → Prop) : List α → List α → Prop
  | done : Grows R N [] []
  | new {a : α} (h : N a) : Grows R N [] [a]
  | cons {a b : α} {l l' : List α} (h : R a b) (t : Grows R N l l') :
      Grows R N (a :: l) (b :: l')

variable {R : α → α → Prop} {N : α → Prop}

namespace Grows

theorem refl (hR : ∀ a, R a a) (l : List α) : Grows R N l l := by
  induction l with
  | nil => exact .done
  | cons a l ih => exact .cons (hR a) ih

theorem push (h : Grows R (fun _ => False) l l') (hb : N b) : Grows R N l (l' ++ [b]) := by
  induction h with
  | done => exact .new hb
  | new h => exact h.elim
  | cons hab _ ih => exact .cons hab ih

theorem map (g : α → α) (hg : ∀ a ∈ l, R a (g a)) : Grows R N l (l.map g) := by
  induction l with
  | nil => exact .done
  | cons a l ih =>
    exact .cons (hg a (.head _)) (ih fun b hb => hg b (.tail a hb))

/-- One more change, of the first record that matches now. -/
protected theorem update (hp : ∀ a b, R a b → p b = p a) (hN : ∀ b, N b → N (f b))
    (h : Grows R N l l')
    (hf : ∀ a b, l.find? p = some a → l'.find? p = some b → R a b → R a (f b)) :
    Grows R N l (update p f l') := by
  induction h with
  | done => exact .done
  | @new a h =>
    rw [Shelf.update]
    split
    · exact .new (hN a h)
    · exact .new h
  | @cons a b l l' hab ht ih =>
    by_cases hb : p b = true
    · have ha : p a = true := (hp a b hab).symm.trans hb
      rw [Shelf.update, if_pos hb]
      exact .cons (hf a b (List.find?_cons_of_pos ha) (List.find?_cons_of_pos hb) hab) ht
    · have ha : ¬ p a = true := fun ha => hb ((hp a b hab).trans ha)
      rw [Shelf.update, if_neg hb]
      refine .cons hab (ih fun c d hc hd => ?_)
      exact hf c d ((List.find?_cons_of_neg ha).trans hc) ((List.find?_cons_of_neg hb).trans hd)

theorem mono {M : α → Prop} (hN : ∀ a, N a → M a) (h : Grows R N l l') : Grows R M l l' := by
  induction h with
  | done => exact .done
  | new h => exact .new (hN _ h)
  | cons hab _ ih => exact .cons hab ih

theorem mem (h : Grows R N l l') (hb : b ∈ l') : (∃ a ∈ l, R a b) ∨ N b := by
  induction h with
  | done => cases hb
  | new h => exact .inr (mem_singleton.1 hb ▸ h)
  | cons hab _ ih =>
    rcases mem_cons.1 hb with rfl | hb
    · exact .inl ⟨_, .head _, hab⟩
    · rcases ih hb with ⟨c, hc, hcb⟩ | hn
      · exact .inl ⟨c, .tail _ hc, hcb⟩
      · exact .inr hn

theorem mem_of_old (h : Grows R N l l') (ha : a ∈ l) : ∃ b ∈ l', R a b := by
  induction h with
  | done => cases ha
  | new => cases ha
  | cons hab _ ih =>
    rcases mem_cons.1 ha with rfl | ha
    · exact ⟨_, .head _, hab⟩
    · obtain ⟨c, hc, hac⟩ := ih ha
      exact ⟨c, .tail _ hc, hac⟩

/-- A record that was found is found again, changed as allowed. -/
theorem find? (hp : ∀ a b, R a b → p b = p a) (h : Grows R N l l') (ha : l.find? p = some a) :
    ∃ b, l'.find? p = some b ∧ R a b := by
  induction h with
  | done => cases ha
  | new => cases ha
  | @cons c d l l' hcd _ ih =>
    by_cases hc : p c = true
    · rw [find?_cons_of_pos hc, Option.some.injEq] at ha
      exact ⟨d, find?_cons_of_pos ((hp c d hcd).trans hc), ha ▸ hcd⟩
    have hd : ¬ p d = true := fun hd => hc ((hp c d hcd).symm.trans hd)
    rw [find?_cons_of_neg hc] at ha
    rw [find?_cons_of_neg hd]
    exact ih ha

/-- If nothing is new, what is found now was found before. -/
theorem find?_old (hp : ∀ a b, R a b → p b = p a) (h : Grows R (fun _ => False) l l')
    (hb : l'.find? p = some b) : ∃ a, l.find? p = some a ∧ R a b := by
  induction h with
  | done => cases hb
  | new h => exact h.elim
  | @cons c d l l' hcd _ ih =>
    by_cases hd : p d = true
    · rw [find?_cons_of_pos hd, Option.some.injEq] at hb
      exact ⟨c, find?_cons_of_pos ((hp c d hcd).symm.trans hd), hb ▸ hcd⟩
    have hc : ¬ p c = true := fun hc => hd ((hp c d hcd).trans hc)
    rw [find?_cons_of_neg hd] at hb
    rw [find?_cons_of_neg hc]
    exact ih hb

/-- A column that no change touches keeps its values; a new record adds its own. -/
theorem column {κ : Type} {k : α → κ} (hk : ∀ a b, R a b → k b = k a) (h : Grows R N l l') :
    l'.map k = l.map k ∨ ∃ b, N b ∧ l'.map k = l.map k ++ [k b] := by
  induction h with
  | done => exact .inl rfl
  | new h => exact .inr ⟨_, h, rfl⟩
  | cons hab _ ih =>
    rcases ih with ih | ⟨b, hb, ih⟩
    · exact .inl (by rw [map_cons, map_cons, ih, hk _ _ hab])
    · exact .inr ⟨b, hb, by rw [map_cons, map_cons, ih, hk _ _ hab, cons_append]⟩

end Grows

end TraceCommons.Shelf
