import Onix.Lib.Prog

/-! Programs that commute with a change of the state: they run after it as before it. -/

namespace Onix.Prog

variable {σ α β : Type} {g : σ → σ} {m : Prog σ α} {f : α → Prog σ β} {s t : σ}

/-- After `g` the program does what it does before, and `g` is done to the state it leaves. -/
def Commutes (g : σ → σ) (m : Prog σ α) : Prop := ∀ s, m (g s) = (m s).map (Prod.map id g)

theorem Commutes.run {a : α} (h : Commutes g m) (hm : m s = some (a, t)) : m (g s) = some (a, g t) := by
  rw [h s, hm]
  rfl

theorem commutes_pure (a : α) : Commutes g (pure a : Prog σ α) := fun _ => rfl

theorem commutes_stop : Commutes g (stop : Prog σ α) := fun _ => rfl

theorem commutes_peek {h : σ → α} (hg : ∀ s, h (g s) = h s) : Commutes g (peek h) := by
  intro s
  rw [peek_apply, peek_apply, hg s]
  rfl

theorem commutes_poke {h : σ → σ} (hg : ∀ s, h (g s) = g (h s)) : Commutes g (poke h) := by
  intro s
  rw [poke_apply, poke_apply, hg s]
  rfl

theorem commutes_assert (b : Bool) : Commutes g (assert b) := by
  intro s
  cases b <;> rfl

theorem commutes_lift (o : Option α) : Commutes g (lift o) := by
  intro s
  cases o <;> rfl

theorem Commutes.bind (hm : Commutes g m) (hf : ∀ a, Commutes g (f a)) : Commutes g (m >>= f) := by
  intro s
  cases h : m s with
  | none =>
    have hg : m (g s) = none := by rw [hm s, h]; rfl
    rw [bind_of_none h, bind_of_none hg]
    rfl
  | some r =>
    obtain ⟨a, t⟩ := r
    rw [bind_of_eq h, bind_of_eq (hm.run h)]
    exact hf a t

theorem Commutes.ite {c : Prop} [Decidable c] {m' : Prog σ α} (hm : Commutes g m)
    (hm' : Commutes g m') : Commutes g (if c then m else m') := by
  split_ifs
  · exact hm
  · exact hm'

end Onix.Prog
