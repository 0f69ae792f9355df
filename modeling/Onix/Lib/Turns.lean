import Onix.Lib.Prog

/-! Loops whose turns either go on with other variables or return: when they end, and the
infinite runs of those that do not. -/

namespace Onix.Prog

variable {σ α β : Type} {turn : α → Prog σ (α ⊕ β)} {x y : α} {s t : σ} {r : β}

/-- The loop returns. -/
inductive Returns (turn : α → Prog σ (α ⊕ β)) : α → σ → Prop where
  | done {x : α} {s t : σ} {r : β} (h : turn x s = some (.inr r, t)) : Returns turn x s
  | more {x y : α} {s t : σ} (h : turn x s = some (.inl y, t)) (ht : Returns turn y t) :
    Returns turn x s

/-- A turn of the loop stops. -/
inductive Stops (turn : α → Prog σ (α ⊕ β)) : α → σ → Prop where
  | stop {x : α} {s : σ} (h : turn x s = none) : Stops turn x s
  | more {x y : α} {s t : σ} (h : turn x s = some (.inl y, t)) (ht : Stops turn y t) :
    Stops turn x s

/-- The loop does not run for ever. -/
def Ends (turn : α → Prog σ (α ⊕ β)) (x : α) (s : σ) : Prop := Returns turn x s ∨ Stops turn x s

theorem Ends.more (h : turn x s = some (.inl y, t)) (ht : Ends turn y t) : Ends turn x s :=
  ht.imp (Returns.more h) (Stops.more h)

end Onix.Prog
