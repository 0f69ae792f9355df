import Mathlib

/-! Labelled transition systems: finite runs, what every run preserves, and
runs all of whose steps meet a condition on the state they start from. -/

namespace Onix

variable {σ α : Type*}

/-- `Run step s as t`: the labels `as`, taken in order from `s`, lead to `t`. -/
inductive Run (step : σ → α → σ → Prop) (s : σ) : List α → σ → Prop where
  | nil : Run step s [] s
  | snoc {as : List α} {t u : σ} {a : α} : Run step s as t → step t a u → Run step s (as ++ [a]) u

/-- The step relation restricted to the steps that meet `C`. -/
def Guarded (C : σ → α → Prop) (step : σ → α → σ → Prop) : σ → α → σ → Prop :=
  fun s a t => C s a ∧ step s a t

namespace Run

variable {step : σ → α → σ → Prop} {I : σ → Prop} {s t u : σ} {as bs : List α} {a : α}

theorem single (h : step s a t) : Run step s [a] t := Run.snoc Run.nil h

theorem trans (h₁ : Run step s as t) (h₂ : Run step t bs u) : Run step s (as ++ bs) u := by
  induction h₂ with
  | nil => simpa using h₁
  | snoc _ hs ih =>
    rw [← List.append_assoc]
    exact Run.snoc ih hs

/-- What holds at the start and survives a step holds after every run. -/
theorem invariant (hstep : ∀ s a t, I s → step s a t → I t) (h : Run step s as t) (hs : I s) :
    I t := by
  induction h with
  | nil => exact hs
  | snoc _ hs' ih => exact hstep _ _ _ ih hs'

theorem of_guarded {C : σ → α → Prop} (h : Run (Guarded C step) s as t) : Run step s as t := by
  induction h with
  | nil => exact Run.nil
  | snoc _ hs ih => exact Run.snoc ih hs.2

end Run

end Onix
