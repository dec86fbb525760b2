import Mathlib

/-! # Runs of a step function

`run` takes the steps in turn; `Along` asks something of every step and of the state it meets. What
the steps that satisfy it keep, the run keeps. -/

namespace TraceCommons.Trail

variable {σ ε : Type} {step : σ → ε → σ} {P : σ → ε → Prop} {s : σ} {evs : List ε}

def run (step : σ → ε → σ) (s : σ) (evs : List ε) : σ := evs.foldl step s

def Along (step : σ → ε → σ) (P : σ → ε → Prop) : σ → List ε → Prop
  | _, [] => True
  | s, ev :: evs => P s ev ∧ Along step P (step s ev) evs

instance decidableAlong [∀ s ev, Decidable (P s ev)] : ∀ s evs, Decidable (Along step P s evs)
  | _, [] => .isTrue trivial
  | s, ev :: evs =>
    have : Decidable (Along step P (step s ev) evs) := decidableAlong (step s ev) evs
    inferInstanceAs (Decidable (P s ev ∧ Along step P (step s ev) evs))

theorem run_keeps {I : σ → Prop} (hstep : ∀ s ev, P s ev → I s → I (step s ev))
    (hP : Along step P s evs) (hI : I s) : I (run step s evs) := by
  induction evs generalizing s with
  | nil => exact hI
  | cons ev evs ih => exact ih hP.2 (hstep s ev hP.1 hI)

theorem run_always {I : σ → Prop} (hstep : ∀ s ev, I s → I (step s ev)) (hI : I s) :
    I (run step s evs) := by
  induction evs generalizing s with
  | nil => exact hI
  | cons ev evs ih => exact ih (hstep s ev hI)

/-- What no step touches. -/
theorem foldl_frame {τ : Type} {g : σ → τ} (h : ∀ s ev, g (step s ev) = g s) (s : σ) (evs : List ε) :
    g (evs.foldl step s) = g s := by
  induction evs generalizing s with
  | nil => rfl
  | cons ev evs ih => rw [List.foldl_cons, ih, h]

end TraceCommons.Trail
