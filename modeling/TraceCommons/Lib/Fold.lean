import Mathlib

/-!
# Folds that can fail

A fold in `Except` that returns is a fold of its successful steps. `foldlM_ok`
is the rule every loop of the models is reasoned with: a property of the part of
the list already consumed and the state reached, kept by each successful step.
-/

namespace TraceCommons

universe u v

variable {ε : Type u} {α β : Type v}

variable {x : Except ε α}

theorem bind_eq_ok {f : α → Except ε β} {b : β} :
    (x >>= f) = .ok b ↔ ∃ a, x = .ok a ∧ f a = .ok b := by
  cases x with
  | error | ok => simp [bind, Except.bind]

theorem map_eq_ok {f : α → β} {b : β} : x.map f = .ok b ↔ ∃ a, x = .ok a ∧ f a = b := by
  cases x with
  | error | ok => simp [Except.map]

theorem toOption_eq_some {a : α} : x.toOption = some a ↔ x = .ok a := by
  cases x with
  | error | ok => simp [Except.toOption]

/-- Stops with an error if the condition holds. -/
def refuse (c : Bool) (e : ε) : Except ε PUnit := if c then .error e else .ok ⟨⟩

/-- What was looked up, or an error. -/
def found (o : Option α) (e : ε) : Except ε α :=
  match o with
  | some a => .ok a
  | none => .error e

@[simp] theorem refuse_eq_ok {c : Bool} {e : ε} {u : PUnit} : refuse c e = .ok u ↔ c = false := by
  cases c <;> simp [refuse]

@[simp] theorem found_eq_ok {o : Option α} {e : ε} {a : α} : found o e = .ok a ↔ o = some a := by
  cases o <;> simp [found]

/-! ## Postconditions -/

/-- Whatever `x` returns satisfies `Q`. -/
def Yields (x : Except ε α) (Q : α → Prop) : Prop := ∀ a, x = .ok a → Q a

section Yields

variable {Q : β → Prop} {f : α → Except ε β}

theorem Yields.pure {b : β} (h : Q b) : Yields (pure b : Except ε β) Q := by
  rintro _ ⟨⟩
  exact h

theorem Yields.bind (h : ∀ a, x = .ok a → Yields (f a) Q) : Yields (x >>= f) Q := by
  intro b hb
  obtain ⟨a, ha, hf⟩ := bind_eq_ok.1 hb
  exact h a ha b hf

theorem Yields.seq {P : α → Prop} (hx : Yields x P) (h : ∀ a, P a → Yields (f a) Q) :
    Yields (x >>= f) Q :=
  .bind fun a ha => h a (hx a ha)

theorem Yields.ite {c : Prop} [Decidable c] {x y : Except ε β} (hx : c → Yields x Q)
    (hy : ¬c → Yields y Q) : Yields (if c then x else y) Q := by
  split
  next hc => exact hx hc
  next hc => exact hy hc

theorem Yields.map {g : α → β} (h : Yields x fun a => Q (g a)) : Yields (x.map g) Q := by
  intro b hb
  obtain ⟨a, ha, rfl⟩ := map_eq_ok.1 hb
  exact h a ha

theorem Yields.found {o : Option α} {e : ε} (h : ∀ a, o = some a → Yields (f a) Q) :
    Yields (found o e >>= f) Q :=
  .bind fun a ha => h a (found_eq_ok.1 ha)

theorem Yields.refuse {c : Bool} {e : ε} {f : PUnit → Except ε β}
    (h : c = false → Yields (f ⟨⟩) Q) : Yields (refuse c e >>= f) Q :=
  .bind fun _ hc => h (refuse_eq_ok.1 hc)

end Yields

theorem foldlM_ok_from (f : β → α → Except ε β) (I : List α → β → Prop) (done : List α)
    {l : List α} {b b' : β}
    (hstep : ∀ pre a rest b b', pre ++ a :: rest = done ++ l → f b a = .ok b' → I pre b →
      I (pre ++ [a]) b')
    (h : l.foldlM f b = .ok b') (h0 : I done b) : I (done ++ l) b' := by
  induction l generalizing done b with
  | nil =>
    obtain rfl : b = b' := by simpa [pure, Except.pure] using h
    simpa using h0
  | cons a l ih =>
    rw [List.foldlM_cons, bind_eq_ok] at h
    obtain ⟨c, hc, h⟩ := h
    have := ih _
      (fun pre x rest b b' e => hstep pre x _ b b' (by simpa using e)) h
      (hstep _ a l b c rfl hc h0)
    simpa using this

/-- A property of the elements consumed and the state that each step keeps holds at the end. -/
theorem foldlM_ok (f : β → α → Except ε β) (I : List α → β → Prop) {l : List α} {b b' : β}
    (hstep : ∀ pre a rest b b', pre ++ a :: rest = l → f b a = .ok b' → I pre b →
      I (pre ++ [a]) b')
    (h : l.foldlM f b = .ok b') (h0 : I [] b) : I l b' := by
  simpa using foldlM_ok_from f I [] hstep h h0

/-- A fold whose steps succeed from every state with a kept property returns. -/
theorem foldlM_total (f : β → α → Except ε β) (I : List α → β → Prop) {l : List α} {b : β}
    (hstep : ∀ pre a rest b, pre ++ a :: rest = l → I pre b →
      ∃ b', f b a = .ok b' ∧ I (pre ++ [a]) b')
    (h0 : I [] b) : ∃ b', l.foldlM f b = .ok b' ∧ I l b' := by
  suffices H : ∀ (l done : List α) (b : β), (∀ pre a rest b, pre ++ a :: rest = done ++ l →
      I pre b → ∃ b', f b a = .ok b' ∧ I (pre ++ [a]) b') → I done b →
      ∃ b', l.foldlM f b = .ok b' ∧ I (done ++ l) b' by
    simpa using H l [] b (by simpa using hstep) h0
  intro l
  induction l with
  | nil => intro _ b _ h; exact ⟨b, rfl, by simpa using h⟩
  | cons a l ih =>
    intro done b hs h
    obtain ⟨c, hc, hI⟩ := hs _ a l b rfl h
    obtain ⟨b', hb', hI'⟩ := ih _ c
      (fun pre x rest b e => hs pre x _ b (by simpa using e)) hI
    refine ⟨b', ?_, by simpa using hI'⟩
    rw [List.foldlM_cons, bind_eq_ok]
    exact ⟨c, hc, hb'⟩

end TraceCommons
