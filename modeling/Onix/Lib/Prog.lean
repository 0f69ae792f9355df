import Mathlib

/-! Sequential programs over a state: each either returns a value in a new state
or stops (a failed assertion, a panic, a bad pointer). The rules for what a
program that returns leaves behind. -/

namespace Onix

def Prog (σ α : Type) := σ → Option (α × σ)

namespace Prog

variable {σ α β γ : Type}

instance : Monad (Prog σ) where
  pure a := fun s => some (a, s)
  bind m f := fun s =>
    match m s with
    | some (a, t) => f a t
    | none => none

/-- The program stops. -/
def stop : Prog σ α := fun _ => none

def peek (f : σ → α) : Prog σ α := fun s => some (f s, s)

def poke (f : σ → σ) : Prog σ Unit := fun s => some ((), f s)

def assert (b : Bool) : Prog σ Unit := fun s => if b then some ((), s) else none

/-- A pure computation that may stop. -/
def lift (o : Option α) : Prog σ α := fun s => o.map fun a => (a, s)

def when (b : Bool) (m : Prog σ Unit) : Prog σ Unit := if b then m else pure ()

/-- `n` turns of a loop body, from index `i` on. -/
def loop (f : ℕ → Prog σ Unit) : (n i : ℕ) → Prog σ Unit
  | 0, _ => pure ()
  | n + 1, i => do
    f i
    loop f n (i + 1)

/-- What holds of the result and the state when the program returns. -/
def Post (m : Prog σ α) (s : σ) (Q : α → σ → Prop) : Prop := ∀ a t, m s = some (a, t) → Q a t

variable {m : Prog σ α} {f : α → Prog σ β} {s t : σ} {Q Q' : α → σ → Prop} {R : β → σ → Prop}

theorem bind_eq_some {b : β} :
    (m >>= f) s = some (b, t) ↔ ∃ a u, m s = some (a, u) ∧ f a u = some (b, t) := by
  change (match m s with | some (a, t) => f a t | none => none) = some (b, t) ↔ _
  cases h : m s with
  | none => simp
  | some r => exact ⟨fun h' => ⟨r.1, r.2, rfl, h'⟩, fun ⟨a, u, h₁, h₂⟩ => by simp_all⟩

@[simp] theorem pure_apply (a : α) : (pure a : Prog σ α) s = some (a, s) := rfl

@[simp] theorem peek_apply (g : σ → α) : peek g s = some (g s, s) := rfl

@[simp] theorem poke_apply (g : σ → σ) : poke g s = some ((), g s) := rfl

@[simp] theorem stop_apply : (stop : Prog σ α) s = none := rfl

theorem assert_eq_some {b : Bool} {u : Unit} : assert b s = some (u, t) ↔ b = true ∧ t = s := by
  cases b <;> simp [assert, eq_comm]

theorem bind_of_eq {a : α} (h : m s = some (a, t)) : (m >>= f) s = f a t := by
  change (match m s with | some (a, t) => f a t | none => none) = _
  rw [h]

theorem bind_of_none (h : m s = none) : (m >>= f) s = none := by
  change (match m s with | some (a, t) => f a t | none => none) = _
  rw [h]

theorem bind_assoc (g : β → Prog σ γ) : (m >>= f) >>= g = m >>= fun a => f a >>= g := by
  funext s
  change (match (match m s with | some (a, t) => f a t | none => none) with
    | some (b, t) => g b t | none => none) = match m s with
    | some (a, t) => (f a >>= g) t | none => none
  cases m s <;> rfl

theorem lift_eq_some {o : Option α} {a : α} : lift o s = some (a, t) ↔ o = some a ∧ t = s := by
  cases o <;> simp [lift, eq_comm]

@[simp] theorem when_true {m : Prog σ Unit} : when true m = m := rfl

@[simp] theorem when_false {m : Prog σ Unit} : when false m = pure () := rfl

theorem lift_bind {o : Option α} {a : α} (h : o = some a) : (lift o >>= f) s = f a s :=
  bind_of_eq (by rw [lift, h]; rfl)

theorem assert_bind {b : Bool} {m : Unit → Prog σ β} (h : b = true) :
    (assert b >>= m) s = m () s :=
  bind_of_eq (assert_eq_some.mpr ⟨h, rfl⟩)

theorem assert_bind_none {b : Bool} {m : Unit → Prog σ β} (h : b = false) :
    (assert b >>= m) s = none :=
  bind_of_none (by rw [h]; rfl)

@[simp] theorem peek_bind (g : σ → α) : (peek g >>= f) s = f (g s) s := rfl

@[simp] theorem poke_bind (g : σ → σ) (m : Unit → Prog σ β) : (poke g >>= m) s = m () (g s) := rfl

@[simp] theorem pure_bind_apply (a : α) : ((pure a : Prog σ α) >>= f) s = f a s := rfl

theorem Post.mono (h : Post m s Q) (hQ : ∀ a t, Q a t → Q' a t) : Post m s Q' :=
  fun a t hm => hQ a t (h a t hm)

theorem Post.and (h : Post m s Q) (h' : Post m s Q') : Post m s fun a t => Q a t ∧ Q' a t :=
  fun a t hm => ⟨h a t hm, h' a t hm⟩

theorem post_pure {a : α} (h : Q a s) : Post (pure a) s Q := by
  intro b t hb
  simp only [pure_apply, Option.some.injEq, Prod.mk.injEq] at hb
  obtain ⟨rfl, rfl⟩ := hb
  exact h

theorem post_bind (h : Post m s fun a t => Post (f a) t R) : Post (m >>= f) s R := by
  intro b t hb
  obtain ⟨a, u, hm, hf⟩ := bind_eq_some.mp hb
  exact h a u hm b t hf

theorem post_peek {g : σ → α} (h : Q (g s) s) : Post (peek g) s Q := by
  intro b t hb
  simp only [peek_apply, Option.some.injEq, Prod.mk.injEq] at hb
  obtain ⟨rfl, rfl⟩ := hb
  exact h

theorem post_poke {g : σ → σ} {Q : Unit → σ → Prop} (h : Q () (g s)) : Post (poke g) s Q := by
  intro b t hb
  simp only [poke_apply, Option.some.injEq, Prod.mk.injEq] at hb
  obtain ⟨-, rfl⟩ := hb
  exact h

theorem post_assert {b : Bool} {Q : Unit → σ → Prop} (h : b = true → Q () s) :
    Post (assert b) s Q := by
  intro u t h'
  obtain ⟨hb, rfl⟩ := assert_eq_some.mp h'
  exact h hb

theorem post_stop : Post (stop : Prog σ α) s Q := fun _ _ h => by simp at h

theorem post_lift {o : Option α} (h : ∀ a, o = some a → Q a s) : Post (lift o) s Q := by
  intro b t hb
  simp only [lift, Option.map_eq_some_iff, Prod.mk.injEq] at hb
  obtain ⟨a, ha, rfl, rfl⟩ := hb
  exact h a ha

/-- Wherever the program returns, the view `v` of the state is what it was. -/
def Keeps (v : σ → γ) (m : Prog σ α) : Prop := ∀ s, Post m s fun _ t => v t = v s

variable {v : σ → γ}

theorem keeps_pure (a : α) : Keeps v (pure a : Prog σ α) := fun _ => post_pure rfl

theorem keeps_peek (g : σ → α) : Keeps v (peek g) := fun _ => post_peek rfl

theorem keeps_assert (b : Bool) : Keeps v (assert b) := fun _ => post_assert fun _ => rfl

theorem keeps_stop : Keeps v (stop : Prog σ α) := fun _ => post_stop

theorem keeps_lift (o : Option α) : Keeps v (lift o) := fun _ => post_lift fun _ _ => rfl

theorem keeps_poke {g : σ → σ} (h : ∀ s, v (g s) = v s) : Keeps v (poke g) :=
  fun s => post_poke (h s)

theorem Keeps.bind (hm : Keeps v m) (hf : ∀ a, Keeps v (f a)) : Keeps v (m >>= f) :=
  fun s => post_bind ((hm s).mono fun a t ht => ((hf a) t).mono fun _ _ hu => hu.trans ht)

theorem Keeps.ite {c : Prop} [Decidable c] {m' : Prog σ α} (hm : Keeps v m) (hm' : Keeps v m') :
    Keeps v (if c then m else m') := by
  split_ifs
  · exact hm
  · exact hm'

section Leads

/-- Wherever the program returns, the state is related by `R` to the one before. -/
def Leads (R : σ → σ → Prop) (m : Prog σ α) : Prop := ∀ s, Post m s fun _ t => R s t

variable {r : σ → σ → Prop} [IsPreorder σ r]

theorem leads_pure (a : α) : Leads r (pure a : Prog σ α) := fun s => post_pure (refl_of r s)

theorem leads_peek (g : σ → α) : Leads r (peek g) := fun s => post_peek (refl_of r s)

theorem leads_assert (b : Bool) : Leads r (assert b) := fun s => post_assert fun _ => refl_of r s

theorem leads_lift (o : Option α) : Leads r (lift o) := fun s => post_lift fun _ _ => refl_of r s

omit [IsPreorder σ r] in
theorem leads_stop : Leads r (stop : Prog σ α) := fun _ => post_stop

omit [IsPreorder σ r] in
theorem leads_poke {g : σ → σ} (h : ∀ s, r s (g s)) : Leads r (poke g) := fun s => post_poke (h s)

theorem Leads.bind (hm : Leads r m) (hf : ∀ a, Leads r (f a)) : Leads r (m >>= f) := fun s =>
  post_bind ((hm s).mono fun a t ht => ((hf a) t).mono fun _ _ hu => trans_of r ht hu)

omit [IsPreorder σ r] in
theorem Leads.ite {c : Prop} [Decidable c] {m' : Prog σ α} (hm : Leads r m) (hm' : Leads r m') :
    Leads r (if c then m else m') := by
  split_ifs
  · exact hm
  · exact hm'

theorem leads_when {b : Bool} {m : Prog σ Unit} (hm : Leads r m) : Leads r (when b m) := by
  cases b
  · exact leads_pure ()
  · exact hm

theorem leads_loop {g : ℕ → Prog σ Unit} (h : ∀ i, Leads r (g i)) (n i : ℕ) :
    Leads r (loop g n i) := by
  induction n generalizing i with
  | zero => exact leads_pure ()
  | succ n ih => exact (h i).bind fun _ => ih (i + 1)

omit [IsPreorder σ r] in
theorem Leads.mono {r' : σ → σ → Prop} (h : Leads r m) (hr : ∀ s t, r s t → r' s t) :
    Leads r' m := fun s => (h s).mono fun _ t ht => hr s t ht

end Leads

end Prog

end Onix
