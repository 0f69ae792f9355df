import Onix.Lib.Run

/-! Refinement of a labelled transition system by a map of its states into those of another. -/

namespace Onix.Run

variable {σ τ α : Type*} {step : σ → α → σ → Prop} {spec : τ → α → τ → Prop} {I : σ → Prop}
  {f : σ → τ} {s t : σ} {as : List α}

end Onix.Run
