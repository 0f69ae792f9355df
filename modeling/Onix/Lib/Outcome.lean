import Onix.Lib.Run

/-! What one attempt to act does: the next state, nothing (the action is not
possible now), or a failed assertion. -/

namespace Onix

inductive Outcome (σ : Type*) where
  | next (s : σ)
  | refused
  | failed
  deriving DecidableEq

namespace Outcome

variable {σ : Type*}

/-- `assert(b)` before the rest `k` of the action. -/
def assert (b : Bool) (k : Outcome σ) : Outcome σ := if b then k else failed

/-- The action is possible only where `b` holds. -/
def guard (b : Bool) (k : Outcome σ) : Outcome σ := if b then k else refused

/-- Go on with `f` where there is a next state. -/
def andThen {τ : Type*} : Outcome σ → (σ → Outcome τ) → Outcome τ
  | next s, f => f s
  | refused, _ => refused
  | failed, _ => failed

@[simp] theorem next_andThen {τ : Type*} {s : σ} {f : σ → Outcome τ} :
    (next s).andThen f = f s := rfl

theorem andThen_eq_next {τ : Type*} {o : Outcome σ} {f : σ → Outcome τ} {t : τ} :
    o.andThen f = next t ↔ ∃ s, o = next s ∧ f s = next t := by
  cases o <;> simp [andThen]

theorem guard_eq_next {b : Bool} {k : Outcome σ} {s : σ} :
    guard b k = next s ↔ b = true ∧ k = next s := by
  cases b <;> simp [guard]

theorem assert_eq_next {b : Bool} {k : Outcome σ} {s : σ} :
    assert b k = next s ↔ b = true ∧ k = next s := by
  cases b <;> simp [assert]

/-- No assertion fails and the next state, where there is one, meets `P`. -/
def All (P : σ → Prop) : Outcome σ → Prop
  | next s => P s
  | refused => True
  | failed => False

variable {P : σ → Prop} {b : Bool} {k : Outcome σ} {s : σ}

theorem all_assert (hb : b = true) (hk : All P k) : All P (assert b k) := by
  subst hb
  exact hk

theorem all_guard (hk : b = true → All P k) : All P (guard b k) := by
  cases b with
  | false => trivial
  | true => exact hk rfl

theorem all_andThen {τ : Type*} {Q : τ → Prop} {f : σ → Outcome τ}
    (h : All (fun s => All Q (f s)) k) : All Q (k.andThen f) := by
  cases k with
  | next s => exact h
  | refused => trivial
  | failed => exact h

theorem All.mono {Q : σ → Prop} (h : All P k) (hPQ : ∀ s, P s → Q s) : All Q k := by
  cases k with
  | next s => exact hPQ s h
  | refused => trivial
  | failed => exact h

theorem All.of_next (h : All P k) (hk : k = next s) : P s := by
  subst hk
  exact h

theorem All.ne_failed (h : All P k) : k ≠ failed := by
  rintro rfl
  exact h

/-- It goes on to a state that passes the test `p`. -/
def Ends (p : σ → Bool) : Outcome σ → Bool
  | next s => p s
  | _ => false

theorem ends_eq_true {o : Outcome σ} {p : σ → Bool} :
    o.Ends p = true ↔ ∃ s, o = next s ∧ p s = true := by
  cases o <;> simp [Ends]

end Outcome

section Play

variable {σ α : Type*}

/-- Take the labels in order, each only where it meets `C`. -/
def play (C : σ → α → Prop) [∀ s a, Decidable (C s a)] (exec : σ → α → Outcome σ) (s : σ) :
    List α → Outcome σ
  | [] => .next s
  | a :: as =>
    match Outcome.guard (C s a) (exec s a) with
    | .next s => play C exec s as
    | o => o

theorem run_of_play (C : σ → α → Prop) [∀ s a, Decidable (C s a)] (exec : σ → α → Outcome σ)
    (s : σ) (as : List α) (p : σ → Bool) (h : (play C exec s as).Ends p = true) :
    ∃ t, Run (Guarded C fun s a t => exec s a = .next t) s as t ∧ p t = true := by
  induction as generalizing s with
  | nil => exact ⟨s, Run.nil, h⟩
  | cons a as ih =>
    unfold play at h
    cases hg : Outcome.guard (C s a) (exec s a) with
    | next u =>
      rw [hg] at h
      obtain ⟨hC, hu⟩ := Outcome.guard_eq_next.mp hg
      obtain ⟨t, ht, hp⟩ := ih u h
      exact ⟨t, (Run.single ⟨of_decide_eq_true hC, hu⟩).trans ht, hp⟩
    | refused => simp [hg, Outcome.Ends] at h
    | failed => simp [hg, Outcome.Ends] at h

end Play

end Onix
