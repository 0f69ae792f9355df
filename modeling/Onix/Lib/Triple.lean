import Onix.Lib.Trace

/-! Triples of programs: from where `P` holds a program that returns comes to where `Q` holds. -/

namespace Onix.Prog

variable {σ κ α β : Type}

def Triple (P : σ → Prop) (m : Prog σ α) (Q : α → σ → Prop) : Prop := ∀ s, P s → Post m s Q

variable {m m' : Prog σ α} {f : α → Prog σ β} {P P' : σ → Prop} {Q Q' : α → σ → Prop}
  {T : β → σ → Prop}

theorem triple_pure {a : α} (h : ∀ s, P s → Q a s) : Triple P (pure a) Q :=
  fun s hs => post_pure (h s hs)

theorem triple_stop : Triple P (stop : Prog σ α) Q := fun _ _ => post_stop

theorem Triple.bind (hm : Triple P m Q) (hf : ∀ a, Triple (Q a) (f a) T) : Triple P (m >>= f) T :=
  fun s hs => post_bind ((hm s hs).mono fun a t ha => hf a t ha)

theorem Triple.ite {c : Prop} [Decidable c] (hm : Triple P m Q) (hm' : Triple P m' Q) :
    Triple P (if c then m else m') Q := by
  split_ifs
  · exact hm
  · exact hm'

theorem Triple.weaken (h : Triple P m Q) (hP : ∀ s, P' s → P s) (hQ : ∀ a s, Q a s → Q' a s) :
    Triple P' m Q' := fun s hs => (h s (hP s hs)).mono hQ

/-- What a relation between before and after keeps is kept by a program that leads along it. -/
theorem Triple.of_leads {r : σ → σ → Prop} (h : Leads r m) (hr : ∀ s t, r s t → P s → P t) :
    Triple P m fun _ => P := fun s hs => (h s).mono fun _ t ht => hr s t ht hs

section Notes

/-- `P` holds, and `C` of every call that has been noted. -/
def Along (C : κ → Prop) (P : σ → Prop) (x : σ × List κ) : Prop := P x.1 ∧ ∀ c ∈ x.2, C c

variable {C : κ → Prop}

theorem triple_still (h : Triple P m Q) :
    Triple (Along C P) (still m : Noted σ κ α) fun a => Along C (Q a) := by
  intro x hx a y hy
  obtain ⟨hm, hl⟩ := still_eq_some.mp hy
  refine ⟨h x.1 hx.1 a y.1 hm, ?_⟩
  rw [hl]
  exact hx.2

theorem triple_note {c : κ} (h : Triple P m Q) (hc : C c) :
    Triple (Along C P) (note c m) fun a => Along C (Q a) := by
  intro x hx a y hy
  obtain ⟨hm, hl⟩ := note_eq_some.mp hy
  refine ⟨h x.1 hx.1 a y.1 hm, ?_⟩
  rw [hl]
  intro d hd
  cases List.mem_append.mp hd with
  | inl hd => exact hx.2 d hd
  | inr hd => exact List.mem_singleton.mp hd ▸ hc

end Notes

end Onix.Prog
