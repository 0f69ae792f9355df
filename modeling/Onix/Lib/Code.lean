import Onix.Lib.Outcome

/-! Sequential programs that return, refuse to go on, or fail an assertion. -/

namespace Onix

def Code (σ α : Type) := σ → Outcome (α × σ)

namespace Code

open Outcome

variable {σ α β γ : Type}

instance : Monad (Code σ) where
  pure a := fun s => .next (a, s)
  bind m f := fun s => (m s).andThen fun r => f r.1 r.2

/-- The program goes no further: a panic. -/
def panic : Code σ α := fun _ => .refused

def peek (f : σ → α) : Code σ α := fun s => .next (f s, s)

def poke (f : σ → σ) : Code σ Unit := fun s => .next ((), f s)

def assert (b : Bool) : Code σ Unit := fun s => Outcome.assert b (.next ((), s))

/-- A computation whose own assertions may fail. -/
def lift (o : Option α) : Code σ α := fun s =>
  match o with
  | some a => .next (a, s)
  | none => .failed

/-- `n` turns of a loop body, from index `i` on. -/
def loop (f : ℕ → Code σ Unit) : (n i : ℕ) → Code σ Unit
  | 0, _ => pure ()
  | n + 1, i => do
    f i
    loop f n (i + 1)

variable {m : Code σ α} {f : α → Code σ β} {s t : σ} {a : α}

theorem bind_apply : (m >>= f) s = (m s).andThen fun r => f r.1 r.2 := rfl

@[simp] theorem pure_apply : (pure a : Code σ α) s = .next (a, s) := rfl

@[simp] theorem pure_bind : ((pure a : Code σ α) >>= f) s = f a s := rfl

@[simp] theorem peek_bind (g : σ → α) : (peek g >>= f) s = f (g s) s := rfl

@[simp] theorem poke_apply (g : σ → σ) : poke g s = .next ((), g s) := rfl

@[simp] theorem poke_bind (g : σ → σ) (m : Unit → Code σ β) : (poke g >>= m) s = m () (g s) := rfl

theorem bind_of_next (h : m s = .next (a, t)) : (m >>= f) s = f a t := by
  rw [bind_apply, h, next_andThen]

theorem bind_of_failed (h : m s = .failed) : (m >>= f) s = .failed := by
  rw [bind_apply, h]
  rfl

theorem assert_bind {b : Bool} {m : Unit → Code σ β} (h : b = true) :
    (assert b >>= m) s = m () s := by
  subst h
  rfl

theorem assert_bind_failed {b : Bool} {m : Unit → Code σ β} (h : b = false) :
    (assert b >>= m) s = .failed := by
  subst h
  rfl

theorem lift_bind {o : Option α} (h : o = some a) : (lift o >>= f) s = f a s := by
  subst h
  rfl

variable {Q : α × σ → Prop} {R : β × σ → Prop}

theorem all_bind (h : All (fun r => All R (f r.1 r.2)) (m s)) : All R ((m >>= f) s) := all_andThen h

/-- A loop keeps what each turn hands on to the next. -/
theorem all_loop {f : ℕ → Code σ Unit} (I : ℕ → σ → Prop) (n i : ℕ)
    (hf : ∀ j s, i ≤ j → j < i + n → I j s → All (fun r => I (j + 1) r.2) (f j s)) (h : I i s) :
    All (fun r => I (i + n) r.2) (loop f n i s) := by
  induction n generalizing i s with
  | zero => exact h
  | succ n ih =>
    refine all_bind ((hf i s (Nat.le_refl i) (by omega) h).mono fun r hr => ?_)
    rw [show i + (n + 1) = i + 1 + n by omega]
    exact ih (i + 1) (fun j s hj hlt => hf j s (by omega) (by omega)) hr

/-- A loop whose turns lead through the states `t`. -/
theorem loop_eq {f : ℕ → Code σ Unit} (t : ℕ → σ) (n i : ℕ)
    (hf : ∀ j, i ≤ j → j < i + n → f j (t j) = .next ((), t (j + 1))) :
    loop f n i (t i) = .next ((), t (i + n)) := by
  induction n generalizing i with
  | zero => rfl
  | succ n ih =>
    rw [loop, bind_of_next (hf i (Nat.le_refl i) (by omega)), show i + (n + 1) = i + 1 + n by omega]
    exact ih (i + 1) fun j hj hlt => hf j (by omega) (by omega)

/-- A loop that can only fail at index `j` fails there, if it gets so far. -/
theorem loop_not_next {f : ℕ → Code σ Unit} (I : σ → Prop) (j n i : ℕ) (hij : i ≤ j)
    (hj : j < i + n) (hf : ∀ k s r, I s → f k s = .next r → I r.2)
    (hlast : ∀ s r, I s → f j s ≠ .next r) (h : I s) (r : Unit × σ) : loop f n i s ≠ .next r := by
  induction n generalizing i s with
  | zero => omega
  | succ n ih =>
    intro he
    obtain ⟨r', hr', he⟩ := andThen_eq_next.mp he
    rcases Nat.eq_or_lt_of_le hij with rfl | hlt
    · exact hlast s r' h hr'
    · exact ih (i + 1) hlt (by omega) (hf i s r' h hr') he

section Keeps

/-- What the program leaves alone, wherever it returns. -/
def Keeps (I : σ → Prop) (m : Code σ α) : Prop := ∀ s r, I s → m s = .next r → I r.2

variable {I : σ → Prop}

theorem keeps_pure (a : α) : Keeps I (pure a) := by
  rintro s r h ⟨⟩
  exact h

theorem keeps_peek (f : σ → α) : Keeps I (peek f) := by
  rintro s r h ⟨⟩
  exact h

theorem keeps_poke {f : σ → σ} (hf : ∀ s, I s → I (f s)) : Keeps I (poke f) := by
  rintro s r h ⟨⟩
  exact hf s h

theorem keeps_assert (b : Bool) : Keeps I (assert b) := by
  intro s r h hr
  obtain ⟨-, hr⟩ := assert_eq_next.mp hr
  rw [← next.inj hr]
  exact h

theorem keeps_lift (o : Option α) : Keeps I (lift o) := by
  intro s r h hr
  cases o with
  | none => exact absurd hr (by simp [lift])
  | some a =>
    obtain rfl := next.inj hr
    exact h

theorem Keeps.bind (hm : Keeps I m) (hf : ∀ a, Keeps I (f a)) : Keeps I (m >>= f) := by
  intro s r h hr
  obtain ⟨r', hr', hr⟩ := andThen_eq_next.mp hr
  exact hf r'.1 _ r (hm s r' h hr') hr

theorem keeps_loop {f : ℕ → Code σ Unit} (hf : ∀ i, Keeps I (f i)) (n i : ℕ) :
    Keeps I (loop f n i) := by
  induction n generalizing i with
  | zero => exact keeps_pure ()
  | succ n ih => exact (hf i).bind fun _ => ih (i + 1)

end Keeps

section Steady

/-- The program returns or fails: it never gives up. -/
def Steady (m : Code σ α) : Prop := ∀ s, m s ≠ .refused

theorem steady_pure (a : α) : Steady (pure a : Code σ α) := fun s h => by cases h

theorem steady_peek (f : σ → α) : Steady (peek f) := fun s h => by cases h

theorem steady_poke (f : σ → σ) : Steady (poke f) := fun s h => by cases h

theorem steady_assert (b : Bool) : Steady (assert b : Code σ Unit) := fun s h => by
  unfold assert Outcome.assert at h
  cases b <;> cases h

theorem steady_lift (o : Option α) : Steady (lift o : Code σ α) := fun s h => by
  cases o <;> cases h

theorem Steady.bind (hm : Steady m) (hf : ∀ a, Steady (f a)) : Steady (m >>= f) := by
  intro s h
  rw [bind_apply] at h
  cases hr : m s with
  | next r =>
    rw [hr] at h
    exact hf r.1 r.2 h
  | refused => exact hm s hr
  | failed =>
    rw [hr] at h
    cases h

theorem steady_loop {f : ℕ → Code σ Unit} (hf : ∀ i, Steady (f i)) (n i : ℕ) :
    Steady (loop f n i) := by
  induction n generalizing i with
  | zero => exact steady_pure ()
  | succ n ih => exact (hf i).bind fun _ => ih (i + 1)

/-- A program that does not give up and does not return fails. -/
theorem Steady.failed (hm : Steady m) (h : ∀ r, m s ≠ .next r) : m s = .failed := by
  cases hr : m s with
  | next r => exact absurd hr (h r)
  | refused => exact absurd hr (hm s)
  | failed => rfl

end Steady

end Code

end Onix
