import Mathlib

/-! # Programs over a shared state

A program is a tree of calls with typed replies. Each call is atomic; between two calls anybody
else may move the state, and the program may stop before any call and never come back. What is
proved of a program therefore rests on assertions that the others' moves keep. Assertions read
the whole history of a run, so a quantity such as the largest value seen so far needs no ghost
state. -/

namespace TraceCommons.Conc

open Option

/-! ## Programs -/

inductive Prog (Op : Type) (Reply : Op → Type) (α : Type) : Type
  | ret (a : α)
  | call (o : Op) (k : Reply o → Prog Op Reply α)

variable {Op : Type} {Reply : Op → Type} {α β ε ρ : Type}

namespace Prog

def bind : Prog Op Reply α → (α → Prog Op Reply β) → Prog Op Reply β
  | ret a, f => f a
  | call o k, f => call o fun r => (k r).bind f

theorem bind_ret (p : Prog Op Reply α) : p.bind ret = p := by
  induction p with
  | ret a => rfl
  | call o k ih => exact congrArg _ (funext ih)

theorem bind_assoc {γ : Type} (p : Prog Op Reply α) (f : α → Prog Op Reply β)
    (g : β → Prog Op Reply γ) : (p.bind f).bind g = p.bind fun a => (f a).bind g := by
  induction p with
  | ret a => rfl
  | call o k ih => exact congrArg _ (funext ih)

end Prog

/-- A program with local variables `ρ` that survive an error `ε`. -/
def Proc (Op : Type) (Reply : Op → Type) (ε ρ α : Type) : Type :=
  ρ → Prog Op Reply (Except ε α × ρ)

namespace Proc

def ret (a : α) : Proc Op Reply ε ρ α := fun l => .ret (.ok a, l)

def bind (x : Proc Op Reply ε ρ α) (f : α → Proc Op Reply ε ρ β) : Proc Op Reply ε ρ β :=
  fun l => (x l).bind fun
    | (.ok a, l') => f a l'
    | (.error e, l') => .ret (.error e, l')

instance : Monad (Proc Op Reply ε ρ) where
  pure := ret
  bind := bind

def raise (e : ε) : Proc Op Reply ε ρ α := fun l => .ret (.error e, l)

/-- Runs `x` and hands its error to the caller as a value. -/
def attempt (x : Proc Op Reply ε ρ α) : Proc Op Reply ε ρ (Except ε α) :=
  fun l => (x l).bind fun r => .ret (.ok r.1, r.2)

def call (o : Op) : Proc Op Reply ε ρ (Reply o) := fun l => .call o fun r => .ret (.ok r, l)

def locals : Proc Op Reply ε ρ ρ := fun l => .ret (.ok l, l)

def setLocals (f : ρ → ρ) : Proc Op Reply ε ρ Unit := fun l => .ret (.ok (), f l)

def forEach (f : α → Proc Op Reply ε ρ Unit) : List α → Proc Op Reply ε ρ Unit
  | [] => ret ()
  | a :: as => bind (f a) fun _ => forEach f as

end Proc

/-! ## The shared state and its histories -/

/-- What a call can do, resolved by a choice, and what everybody else can do. `none` is a choice
or a move that is not possible. Doing nothing is a move. -/
structure Machine (Op : Type) (Reply : Op → Type) (σ : Type) where
  Choice : Type
  Move : Type
  exec : Choice → σ → (o : Op) → Option (Reply o × σ)
  move : Move → σ → Option σ
  idle : Move
  move_idle : ∀ s, move idle s = some s

/-- A state and those before it, latest first. -/
structure Hist (σ : Type) where
  now : σ
  past : List σ

variable {σ : Type}

namespace Hist

def push (h : Hist σ) (s : σ) : Hist σ := ⟨s, h.now :: h.past⟩

def states (h : Hist σ) : List σ := h.now :: h.past

@[simp] theorem push_now (h : Hist σ) (s : σ) : (h.push s).now = s := rfl

end Hist

variable {M : Machine Op Reply σ}

namespace Machine

def Rely (M : Machine Op Reply σ) : Hist σ → Hist σ → Prop :=
  Relation.ReflTransGen fun h h' => ∃ m s, M.move m h.now = some s ∧ h' = h.push s

def Reads (M : Machine Op Reply σ) (o : Op) : Prop :=
  ∀ c s r s', M.exec c s o = some (r, s') → s' = s

end Machine

/-- A fact about the run so far that no move of the others breaks. -/
structure Assertion (M : Machine Op Reply σ) where
  holds : Hist σ → Prop
  stable : ∀ h m s, holds h → M.move m h.now = some s → holds (h.push s)

namespace Assertion

instance : CoeFun (Assertion M) fun _ => Hist σ → Prop := ⟨holds⟩

def top : Assertion M := ⟨fun _ => True, fun _ _ _ _ _ => trivial⟩

def and (P R : Assertion M) : Assertion M where
  holds h := P h ∧ R h
  stable h m s hp hm := ⟨P.stable h m s hp.1 hm, R.stable h m s hp.2 hm⟩

/-- What is known of the values at hand, whatever the state. -/
def lift (p : Prop) : Assertion M := ⟨fun _ => p, fun _ _ _ hp _ => hp⟩

@[simp] theorem and_holds {P R : Assertion M} {h : Hist σ} : P.and R h ↔ P h ∧ R h := Iff.rfl

theorem rely (P : Assertion M) {h h' : Hist σ} (hp : P h) (hr : M.Rely h h') : P h' := by
  induction hr with
  | refl => exact hp
  | tail _ hstep ih =>
    obtain ⟨m, s, hm, rfl⟩ := hstep
    exact P.stable _ m s ih hm

/-- Seeing the same state again keeps an assertion. -/
theorem again (P : Assertion M) {h : Hist σ} (hp : P h) : P (h.push h.now) :=
  P.stable h _ _ hp (M.move_idle _)

end Assertion

/-! ## Safe programs -/

/-- Whatever the others do between the calls and whatever the calls reply, the invariant holds
after every call, and `Q` at the end. -/
def Prog.Safe (I : Assertion M) : Prog Op Reply α → (α → Hist σ → Prop) → Hist σ → Prop
  | .ret a, Q, h => Q a h
  | .call o k, Q, h => ∀ h', M.Rely h h' → ∀ c r s, M.exec c h'.now o = some (r, s) →
      I (h'.push s) ∧ (k r).Safe I Q (h'.push s)

namespace Prog.Safe

variable {I : Assertion M} {Q Q' : α → Hist σ → Prop} {h h' : Hist σ}

variable {p : Prog Op Reply α}

theorem mono (hQ : ∀ a h, I h → Q a h → Q' a h) (hi : I h) (hp : p.Safe I Q h) : p.Safe I Q' h := by
  induction p generalizing h with
  | ret a => exact hQ a h hi hp
  | call o k ih =>
    intro h' hr c r s hc
    obtain ⟨hi', hk⟩ := hp h' hr c r s hc
    exact ⟨hi', ih r hi' hk⟩

/-- Safe with a stronger invariant. -/
theorem of_inv {J : Assertion M} (hJ : ∀ h, J h → I h) (hp : p.Safe J Q h) : p.Safe I Q h := by
  induction p generalizing h with
  | ret a => exact hp
  | call o k ih =>
    intro h' hr c r s hc
    obtain ⟨hi', hk⟩ := hp h' hr c r s hc
    exact ⟨hJ _ hi', ih r hk⟩

theorem bind {f : α → Prog Op Reply β} {R : β → Hist σ → Prop}
    (hp : p.Safe I (fun a h => (f a).Safe I R h) h) : (p.bind f).Safe I R h := by
  induction p generalizing h with
  | ret a => exact hp
  | call o k ih =>
    intro h' hr c r s hc
    obtain ⟨hi', hk⟩ := hp h' hr c r s hc
    exact ⟨hi', ih r hk⟩

/-- A program stays safe while the others move, and what it ended in stays true. -/
theorem rely_ends {A : α → Assertion M} (hp : p.Safe I (fun a => A a) h) (hr : M.Rely h h') :
    p.Safe I (fun a => A a) h' := by
  cases p with
  | ret a => exact (A a).rely hp hr
  | call o k => exact fun h1 hr1 => hp h1 (hr.trans hr1)

end Prog.Safe

/-! ## Both ends of a program -/

/-- From `P`, the program keeps the invariant, ends without an error in `Q` or with one in `E`. -/
def Ends (I P : Assertion M) (x : Proc Op Reply ε ρ α) (Q : α → Assertion M)
    (E : ε → Assertion M) : Prop :=
  ∀ l h, I h → P h → (x l).Safe I
    (fun r h' => I h' ∧ (∀ a, r.1 = .ok a → Q a h') ∧ ∀ e, r.1 = .error e → E e h') h

namespace Ends

variable {I P P' : Assertion M} {Q Q' : α → Assertion M} {S : β → Assertion M}
  {E E' : ε → Assertion M}

variable {x : Proc Op Reply ε ρ α}

theorem conseq (hP : ∀ h, I h → P h → P' h) (hQ : ∀ a h, I h → Q' a h → Q a h)
    (hE : ∀ e h, I h → E' e h → E e h) (hx : Ends I P' x Q' E') : Ends I P x Q E :=
  fun l h hi hp => (hx l h hi (hP h hi hp)).mono
    (fun _ h _ hq => ⟨hq.1, fun a ha => hQ a h hq.1 (hq.2.1 a ha),
      fun e he => hE e h hq.1 (hq.2.2 e he)⟩) hi

theorem lift {p : Prop} (hx : p → Ends I P x Q E) : Ends I (P.and (.lift p)) x Q E :=
  fun l h hi hp => hx hp.2 l h hi hp.1

/-- What the assertion says of the values at hand. -/
theorem assume {p : Prop} (hP : ∀ h, P h → p) (hx : p → Ends I P x Q E) : Ends I P x Q E :=
  fun l h hi hp => hx (hP h hp) l h hi hp

theorem pure {a : α} (h : ∀ h, I h → P h → Q a h) :
    Ends I P (Pure.pure a : Proc Op Reply ε ρ α) Q E := by
  intro l h' hi hp
  refine ⟨hi, fun b hb => ?_, fun _ he => nomatch he⟩
  cases hb
  exact h h' hi hp

theorem raise {e : ε} (h : ∀ h, I h → P h → E e h) :
    Ends I P (Proc.raise e : Proc Op Reply ε ρ α) Q E := by
  intro l h' hi hp
  refine ⟨hi, (fun _ ha => nomatch ha), fun e' he => ?_⟩
  cases he
  exact h h' hi hp

theorem bind {f : α → Proc Op Reply ε ρ β} (hx : Ends I P x Q E)
    (hf : ∀ a, Ends I (Q a) (f a) S E) : Ends I P (x >>= f) S E := by
  intro l h hi hp
  refine .bind ((hx l h hi hp).mono ?_ hi)
  rintro ⟨r, l'⟩ h' _ ⟨hi', hq, he⟩
  cases r with
  | ok a => exact hf a l' h' hi' (hq a rfl)
  | error e =>
    refine ⟨hi', (fun _ ha => nomatch ha), fun e' heq => ?_⟩
    cases heq
    exact he e rfl

theorem attempt (hx : Ends I P x Q E') :
    Ends I P x.attempt (fun r => match r with
      | .ok a => Q a
      | .error e => E' e) E := by
  intro l h hi hp
  refine .bind ((hx l h hi hp).mono ?_ hi)
  rintro ⟨r, l'⟩ h' _ ⟨hi', hq, he⟩
  refine ⟨hi', fun b hb => ?_, fun _ heq => nomatch heq⟩
  cases hb
  cases r with
  | ok a => exact hq a rfl
  | error e => exact he e rfl

theorem call {o : Op} {Q : Reply o → Assertion M}
    (h : ∀ h c r s, I h → P h → M.exec c h.now o = some (r, s) →
      I (h.push s) ∧ Q r (h.push s)) :
    Ends I P (Proc.call o : Proc Op Reply ε ρ (Reply o)) Q E := by
  intro l h0 hi hp h' hr c r s hc
  obtain ⟨hi', hq⟩ := h h' c r s (I.rely hi hr) (P.rely hp hr) hc
  refine ⟨hi', hi', fun a ha => ?_, fun _ he => nomatch he⟩
  cases ha
  exact hq

theorem read {o : Op} {Q : Reply o → Assertion M} (ho : M.Reads o)
    (h : ∀ h c r, I h → P h → M.exec c h.now o = some (r, h.now) → Q r h) :
    Ends I P (Proc.call o : Proc Op Reply ε ρ (Reply o)) Q E := by
  refine call fun h' c r s hi hp hc => ?_
  obtain rfl := ho c _ r s hc
  exact ⟨I.again hi, (Q r).again (h h' c r hi hp hc)⟩

/-- The two ends of a program whose result is handed on as `f` says. -/
theorem safe_map {f : α → β} {l : ρ} {h : Hist σ} (hx : Ends I P x Q E) (hi : I h) (hp : P h) :
    ((x >>= fun a => Pure.pure (f a)) l).Safe I
      (fun r h' => (∃ a l', r = (.ok (f a), l') ∧ Q a h') ∨ ∃ e l', r = (.error e, l') ∧ E e h')
      h := by
  refine .bind ((hx l h hi hp).mono ?_ hi)
  rintro ⟨r, l'⟩ h' _ ⟨-, hq, he⟩
  cases r with
  | ok a => exact .inl ⟨a, l', rfl, hq a rfl⟩
  | error e => exact .inr ⟨e, l', rfl, he e rfl⟩

end Ends

/-! ## Triples -/

/-- From `P`, the program keeps the invariant and, if it ends without an error, ends in `Q`. -/
def Triple (I P : Assertion M) (x : Proc Op Reply ε ρ α) (Q : α → Assertion M) : Prop :=
  ∀ l h, I h → P h → (x l).Safe I (fun r h' => I h' ∧ ∀ a, r.1 = .ok a → Q a h') h

namespace Triple

variable {I P P' R : Assertion M} {Q Q' : α → Assertion M} {S : β → Assertion M}

variable {x : Proc Op Reply ε ρ α}

/-- A triple says nothing of the end in an error. -/
theorem iff_ends : Triple I P x Q ↔ Ends I P x Q fun _ => .top := by
  constructor
  · exact fun hx l h hi hp =>
      (hx l h hi hp).mono (fun _ _ _ hq => ⟨hq.1, hq.2, fun _ _ => trivial⟩) hi
  · exact fun hx l h hi hp => (hx l h hi hp).mono (fun _ _ _ hq => ⟨hq.1, hq.2.1⟩) hi

theorem conseq (hP : ∀ h, I h → P h → P' h) (hQ : ∀ a h, I h → Q' a h → Q a h)
    (hx : Triple I P' x Q') : Triple I P x Q :=
  iff_ends.2 ((iff_ends.1 hx).conseq hP hQ fun _ _ _ h => h)

theorem lift {p : Prop} (hx : p → Triple I P x Q) : Triple I (P.and (.lift p)) x Q :=
  fun l h hi hp => hx hp.2 l h hi hp.1

theorem pure {a : α} (h : ∀ h, I h → P h → Q a h) :
    Triple I P (Pure.pure a : Proc Op Reply ε ρ α) Q :=
  iff_ends.2 (.pure h)

theorem ret {a : α} (h : ∀ h, I h → P h → Q a h) :
    Triple I P (Proc.ret a : Proc Op Reply ε ρ α) Q :=
  pure h

theorem raise {e : ε} : Triple I P (Proc.raise e : Proc Op Reply ε ρ α) Q :=
  iff_ends.2 (.raise fun _ _ _ => trivial)

theorem bind {f : α → Proc Op Reply ε ρ β} (hx : Triple I P x Q)
    (hf : ∀ a, Triple I (Q a) (f a) S) : Triple I P (x >>= f) S :=
  iff_ends.2 (.bind (iff_ends.1 hx) fun a => iff_ends.1 (hf a))

/-- An attempt knows the end of the program only when there was no error. -/
theorem attempt_ok {A : Except ε α → Assertion M} (hx : Triple I P x Q)
    (hok : ∀ a h, I h → Q a h → A (.ok a) h) (herr : ∀ e h, I h → A (.error e) h) :
    Triple I P x.attempt A := by
  refine iff_ends.2 ((iff_ends.1 hx).attempt.conseq (fun _ _ hp => hp) ?_ fun _ _ _ h => h)
  rintro (e | a) h hi hq
  · exact herr e h hi
  · exact hok a h hi hq

theorem call {o : Op} {Q : Reply o → Assertion M}
    (h : ∀ h c r s, I h → P h → M.exec c h.now o = some (r, s) →
      I (h.push s) ∧ Q r (h.push s)) :
    Triple I P (Proc.call o : Proc Op Reply ε ρ (Reply o)) Q :=
  iff_ends.2 (.call h)

theorem locals : Triple I P (Proc.locals : Proc Op Reply ε ρ ρ) fun _ => P :=
  fun _ _ hi hp => ⟨hi, fun _ _ => hp⟩

theorem setLocals {f : ρ → ρ} :
    Triple I P (Proc.setLocals f : Proc Op Reply ε ρ Unit) fun _ => P :=
  fun _ _ hi hp => ⟨hi, fun _ _ => hp⟩

theorem forEach {f : α → Proc Op Reply ε ρ Unit} {as : List α}
    (hf : ∀ a ∈ as, Triple I P (f a) fun _ => P) :
    Triple I P (Proc.forEach f as) fun _ => P := by
  induction as with
  | nil => exact ret fun _ _ hp => hp
  | cons a as ih =>
    exact bind (hf a (.head _)) fun _ => ih fun b hb => hf b (.tail _ hb)

end Triple

/-! ## Runs -/

/-- A run so far: its history, and the one program that is running, if any. -/
structure Config (Op : Type) (Reply : Op → Type) (σ β : Type) where
  hist : Hist σ
  running : Option (Prog Op Reply β)

/-- What happens next: a move of the others, a program starts when none is running, its next call,
or it stops, finished or not. -/
inductive Event (M : Machine Op Reply σ) (ι : Type)
  | move (m : M.Move)
  | start (i : ι)
  | call (c : M.Choice)
  | stop

namespace Config

variable {ι : Type}

def step (M : Machine Op Reply σ) (prog : ι → Prog Op Reply β) (c : Config Op Reply σ β) :
    Event M ι → Option (Config Op Reply σ β)
  | .move m => (M.move m c.hist.now).map fun s => { c with hist := c.hist.push s }
  | .start i => match c.running with
    | none => some { c with running := some (prog i) }
    | some _ => none
  | .call ch => match c.running with
    | some (.call o k) => (M.exec ch c.hist.now o).map fun r => ⟨c.hist.push r.2, some (k r.1)⟩
    | _ => none
  | .stop => some { c with running := none }

def run (M : Machine Op Reply σ) (prog : ι → Prog Op Reply β) (c : Config Op Reply σ β)
    (es : List (Event M ι)) : Option (Config Op Reply σ β) :=
  es.foldlM (step M prog) c

variable {es : List (Event M ι)}

/-- What every call and each move of the run keeps holds at its end. -/
theorem run_keeps {prog : ι → Prog Op Reply β} {c c' : Config Op Reply σ β} {P : Hist σ → Prop}
    (hcall : ∀ h ch o r s, P h → M.exec ch h.now o = some (r, s) → P (h.push s))
    (hmove : ∀ h m s, Event.move m ∈ es → P h → M.move m h.now = some s → P (h.push s))
    (hp : P c.hist) (hrun : c.run M prog es = some c') : P c'.hist := by
  induction es generalizing c with
  | nil => cases hrun; exact hp
  | cons e es ih =>
    simp only [run, List.foldlM_cons, bind_eq_bind, bind_eq_some_iff] at hrun
    obtain ⟨c1, he, hrun⟩ := hrun
    refine ih (fun h m s hm => hmove h m s (.tail e hm)) ?_ hrun
    cases e with
    | move m =>
      obtain ⟨s, hm, rfl⟩ := map_eq_some_iff.1 he
      exact hmove _ m s (.head _) hp hm
    | start i =>
      simp only [step] at he
      split at he <;> cases he
      exact hp
    | call ch =>
      simp only [step] at he
      split at he
      · obtain ⟨⟨r, s⟩, hc, rfl⟩ := map_eq_some_iff.1 he
        exact hcall _ ch _ r s hp hc
      · cases he
    | stop => cases he; exact hp

/-- The invariant holds so far, and the running program keeps it. -/
def Good (I : Assertion M) (c : Config Op Reply σ β) : Prop :=
  I c.hist ∧ ∀ p ∈ c.running, p.Safe I (fun _ _ => True) c.hist

variable {I : Assertion M} {prog : ι → Prog Op Reply β} {c c' : Config Op Reply σ β}

/-- The invariant holds so far, the running program keeps it, and if it ends it ends in `A`. -/
def Sound (I : Assertion M) (A : β → Assertion M) (c : Config Op Reply σ β) : Prop :=
  I c.hist ∧ ∀ p ∈ c.running, p.Safe I (fun b => A b) c.hist

variable {A : β → Assertion M}

theorem Sound.step {e : Event M ι}
    (hprog : ∀ i, e = .start i → ∀ h, I h → (prog i).Safe I (fun b => A b) h) (hg : c.Sound I A)
    (he : c.step M prog e = some c') : c'.Sound I A := by
  obtain ⟨hi, hp⟩ := hg
  cases e with
  | move m =>
    obtain ⟨s, hm, rfl⟩ := map_eq_some_iff.1 he
    exact ⟨I.stable _ m s hi hm,
      fun p hr => (hp p hr).rely_ends (Relation.ReflTransGen.single ⟨m, s, hm, rfl⟩)⟩
  | start i =>
    simp only [Config.step] at he
    split at he
    · cases he
      refine ⟨hi, fun p hr => ?_⟩
      cases hr
      exact hprog i rfl _ hi
    · cases he
  | call ch =>
    simp only [Config.step] at he
    split at he
    next o k hrun =>
      obtain ⟨⟨r, s⟩, hc, rfl⟩ := map_eq_some_iff.1 he
      obtain ⟨hi', hk⟩ := hp _ hrun _ Relation.ReflTransGen.refl ch r s hc
      refine ⟨hi', fun p hr => ?_⟩
      cases hr
      exact hk
    next => cases he
  | stop =>
    cases he
    exact ⟨hi, fun p hr => nomatch hr⟩

theorem Sound.run (hprog : ∀ i, Event.start i ∈ es → ∀ h, I h → (prog i).Safe I (fun b => A b) h)
    (hg : c.Sound I A) (hr : c.run M prog es = some c') : c'.Sound I A := by
  induction es generalizing c with
  | nil => cases hr; exact hg
  | cons e es ih =>
    simp only [Config.run, List.foldlM_cons, bind_eq_bind, bind_eq_some_iff] at hr
    obtain ⟨c1, he, hr⟩ := hr
    refine ih (fun i hi => hprog i (.tail e hi)) (hg.step (fun i hi => ?_) he) hr
    exact hprog i (hi ▸ (.head _))

theorem Good.run (hprog : ∀ i h, I h → (prog i).Safe I (fun _ _ => True) h) (hg : c.Good I)
    (hr : c.run M prog es = some c') : c'.Good I :=
  Sound.run (A := fun _ => .top) (fun i _ => hprog i) hg hr

end Config

/-! ## A program by itself -/

/-- The whole program with nobody in between, every call resolved by `c`. -/
def Prog.alone (M : Machine Op Reply σ) (c : M.Choice) : Prog Op Reply α → σ → Option (α × σ)
  | .ret a, s => some (a, s)
  | .call o k, s => match M.exec c s o with
    | none => none
    | some (r, s') => (k r).alone M c s'

def Proc.alone (M : Machine Op Reply σ) (c : M.Choice) (x : Proc Op Reply ε ρ α) (l : ρ) (s : σ) :
    Option ((Except ε α × ρ) × σ) :=
  (x l).alone M c s

section Alone

variable {c : M.Choice} {l : ρ} {s : σ}

theorem Prog.alone_bind (p : Prog Op Reply α) (f : α → Prog Op Reply β) :
    (p.bind f).alone M c s =
      match p.alone M c s with
      | none => none
      | some (a, s') => (f a).alone M c s' := by
  induction p generalizing s with
  | ret a => rfl
  | call o k ih =>
    simp only [Prog.bind, Prog.alone]
    cases M.exec c s o with
    | none => rfl
    | some r => exact ih r.1

@[simp] theorem Proc.alone_pure (a : α) :
    (Pure.pure a : Proc Op Reply ε ρ α).alone M c l s = some ((.ok a, l), s) := rfl

@[simp] theorem Proc.alone_raise (e : ε) :
    (Proc.raise e : Proc Op Reply ε ρ α).alone M c l s = some ((.error e, l), s) := rfl

@[simp] theorem Proc.alone_call (o : Op) :
    (Proc.call o : Proc Op Reply ε ρ (Reply o)).alone M c l s =
      (M.exec c s o).map fun r => ((.ok r.1, l), r.2) := by
  simp only [Proc.alone, Proc.call, Prog.alone]
  cases M.exec c s o <;> rfl

@[simp] theorem Proc.alone_bind (x : Proc Op Reply ε ρ α) (f : α → Proc Op Reply ε ρ β) :
    (x >>= f).alone M c l s =
      match x.alone M c l s with
      | none => none
      | some ((.ok a, l'), s') => (f a).alone M c l' s'
      | some ((.error e, l'), s') => some ((.error e, l'), s') := by
  have h := Prog.alone_bind (M := M) (c := c) (s := s) (x l) fun
    | (.ok a, l') => f a l'
    | (.error e, l') => .ret (.error e, l')
  refine h.trans ?_
  simp only [Proc.alone]
  cases (x l).alone M c s with
  | none => rfl
  | some r =>
    obtain ⟨⟨r, l'⟩, s'⟩ := r
    cases r <;> rfl

@[simp] theorem Proc.alone_attempt (x : Proc Op Reply ε ρ α) :
    x.attempt.alone M c l s = (x.alone M c l s).map fun r => ((.ok r.1.1, r.1.2), r.2) := by
  have h := Prog.alone_bind (M := M) (c := c) (s := s) (x l)
    fun r => (.ret (.ok r.1, r.2) : Prog Op _ (Except ε _ × ρ))
  refine h.trans ?_
  simp only [Proc.alone]
  cases (x l).alone M c s <;> rfl

/-- What the first part of a program does by itself is a run of its calls. -/
theorem Config.run_bind {ι : Type} (prog : ι → Prog Op Reply β) {p : Prog Op Reply α}
    (f : α → Prog Op Reply β) {a : α} {s s' : σ} (past : List σ)
    (h : p.alone M c s = some (a, s')) :
    ∃ n past', Config.run M prog ⟨⟨s, past⟩, some (p.bind f)⟩ (List.replicate n (.call c)) =
      some ⟨⟨s', past'⟩, some (f a)⟩ := by
  induction p generalizing s past with
  | ret a =>
    cases h
    exact ⟨0, past, rfl⟩
  | call o k ih =>
    simp only [Prog.alone] at h
    split at h
    · cases h
    rename_i r s1 he
    obtain ⟨n, past', hrun⟩ := ih r _ h
    refine ⟨n + 1, past', ?_⟩
    rw [List.replicate_succ, Config.run, List.foldlM_cons]
    simp only [Prog.bind, Config.step, he]
    exact hrun

variable {p : Prog Op Reply β}

/-- What a program does by itself is a run of its calls. -/
theorem Config.run_alone {ι : Type} {prog : ι → Prog Op Reply β} {b : β} {s s' : σ} {past : List σ}
    (h : p.alone M c s = some (b, s')) :
    ∃ n past', Config.run M prog ⟨⟨s, past⟩, some p⟩ (List.replicate n (.call c)) =
      some ⟨⟨s', past'⟩, some (.ret b)⟩ := by
  have hrun := Config.run_bind prog .ret past h
  rwa [Prog.bind_ret] at hrun

/-- A program started, run by itself to its end and stopped. -/
theorem Config.run_session {ι : Type} {prog : ι → Prog Op Reply β} {i : ι} {b : β} {s s' : σ}
    {past : List σ} (h : (prog i).alone M c s = some (b, s')) :
    ∃ n past', Config.run M prog ⟨⟨s, past⟩, none⟩
      (.start i :: List.replicate n (.call c) ++ [.stop]) = some ⟨⟨s', past'⟩, none⟩ := by
  obtain ⟨n, past', hrun⟩ : ∃ n past', Config.run M prog ⟨⟨s, past⟩, some (prog i)⟩
      (List.replicate n (.call c)) = some ⟨⟨s', past'⟩, some (.ret b)⟩ := Config.run_alone h
  refine ⟨n, past', ?_⟩
  rw [Config.run, List.cons_append, List.foldlM_cons]
  simp only [Config.step, bind_eq_bind, bind_some, List.foldlM_append]
  rw [Config.run] at hrun
  rw [hrun]
  rfl

/-- A safe program whose calls are all possible reaches its end by itself. -/
theorem Prog.Safe.alone {I : Assertion M} {Q : α → Hist σ → Prop} {p : Prog Op Reply α}
    {h : Hist σ} (hc : ∀ s o, (M.exec c s o).isSome) (hp : p.Safe I Q h) :
    ∃ a h', p.alone M c h.now = some (a, h'.now) ∧ Q a h' := by
  induction p generalizing h with
  | ret a => exact ⟨a, h, rfl, hp⟩
  | call o k ih =>
    obtain ⟨⟨r, s'⟩, he⟩ := isSome_iff_exists.1 (hc _ o)
    obtain ⟨a, h', hrun, hq⟩ := ih r (hp h Relation.ReflTransGen.refl c r s' he).2
    refine ⟨a, h', ?_, hq⟩
    rw [Prog.alone, he]
    exact hrun

/-- Started at `s`, whatever the others do in between, the program can only end in `Q`; and by
itself it does end. -/
def Prog.Completes (M : Machine Op Reply σ) {ι : Type} (prog : ι → Prog Op Reply β)
    (p : Prog Op Reply β) (s : σ) (Q : β → σ → Prop) : Prop :=
  (∀ past es c b, (∀ i, Event.start i ∉ es) → Config.run M prog ⟨⟨s, past⟩, some p⟩ es = some c →
    c.running = some (.ret b) → Q b c.hist.now) ∧
  ∀ ch, (∀ s o, (M.exec ch s o).isSome) → ∃ b s', p.alone M ch s = some (b, s') ∧ Q b s'

theorem Prog.Completes.mono {ι : Type} {prog : ι → Prog Op Reply β} {Q R : β → σ → Prop}
    (hp : p.Completes M prog s Q) (hQ : ∀ b s, Q b s → R b s) : p.Completes M prog s R := by
  refine ⟨fun past es c b hes hrun hret => hQ b _ (hp.1 _ es c b hes hrun hret), fun ch hch => ?_⟩
  obtain ⟨b, s', hrun, hq⟩ := hp.2 ch hch
  exact ⟨b, s', hrun, hQ b s' hq⟩

theorem Prog.completes {ι : Type} {prog : ι → Prog Op Reply β} {s : σ} {I : Assertion M}
    {A : β → Assertion M} {Q : β → σ → Prop} (hI : ∀ past, I ⟨s, past⟩)
    (hp : ∀ past, p.Safe I (fun b => A b) ⟨s, past⟩) (hQ : ∀ b h, A b h → Q b h.now) :
    p.Completes M prog s Q := by
  refine ⟨fun past es c b hes hrun hret => ?_, fun ch hch => ?_⟩
  · have hgood : Config.Sound I A ⟨⟨s, past⟩, some p⟩ := ⟨hI _, by rintro p ⟨⟩; exact hp _⟩
    have hend := hgood.run (fun i hi => absurd hi (hes i)) hrun
    exact hQ b _ (hend.2 _ hret)
  · obtain ⟨b, h', hrun, hq⟩ := (hp []).alone hch
    exact ⟨b, h'.now, hrun, hQ b h' hq⟩

end Alone

end TraceCommons.Conc
