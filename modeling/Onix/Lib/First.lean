import Mathlib

/-! The result of a search that stops at the first hit. -/

namespace Onix

variable {α : Type} {A B : ℕ → Prop} {v : ℕ → α} {o o' : Option α}

/-- `o` is the value at the first place where `A` holds, if there is one. -/
def First (A : ℕ → Prop) (v : ℕ → α) (o : Option α) : Prop :=
  (o = none ∧ ∀ j, ¬ A j) ∨ ∃ k, o = some (v k) ∧ A k ∧ ∀ j < k, ¬ A j

/-- At a place where one search hits, and the other does not, the results differ unless both
have hit before. -/
theorem First.earlier {k : ℕ} (hA : A k) (hfirst : ∀ j < k, ¬ A j) (hB : ¬ B k)
    (h : ∀ j, ¬ (A j ↔ B j) → ∃ l < j, A l ∧ B l) : False := by
  obtain ⟨l, hlt, hAl, -⟩ := h k fun hiff => hB (hiff.mp hA)
  exact hfirst l hlt hAl

/-- Two searches have the same result where every place that only one of them hits is behind
one that both hit. -/
theorem First.eq_iff (h : First A v o) (h' : First B v o')
    (hinj : ∀ j k, A j → B k → v j = v k → j = k) :
    o' = o ↔ ∀ j, ¬ (A j ↔ B j) → ∃ k < j, A k ∧ B k := by
  constructor
  · intro ho j hj
    obtain ⟨hn, hno⟩ | ⟨k, hk, hAk, hfirst⟩ := h
    · obtain ⟨-, hno'⟩ | ⟨k', hk', -⟩ := h'
      · exact absurd ⟨fun hA => absurd hA (hno j), fun hB => absurd hB (hno' j)⟩ hj
      · rw [ho, hn] at hk'
        cases hk'
    obtain ⟨hn', -⟩ | ⟨k', hk', hBk, hfirst'⟩ := h'
    · rw [ho, hk] at hn'
      cases hn'
    obtain rfl : k = k' := hinj k k' hAk hBk (Option.some.inj (hk.symm.trans (ho.symm.trans hk')))
    refine ⟨k, ?_, hAk, hBk⟩
    apply Nat.lt_of_not_le
    intro hle
    obtain rfl | hlt := Nat.eq_or_lt_of_le hle
    · exact hj ⟨fun _ => hBk, fun _ => hAk⟩
    · exact hj ⟨fun hA => absurd hA (hfirst j hlt), fun hB => absurd hB (hfirst' j hlt)⟩
  · intro hall
    have hall' : ∀ j, ¬ (B j ↔ A j) → ∃ l < j, B l ∧ A l := by
      intro j hj
      obtain ⟨l, hlt, hA, hB⟩ := hall j fun hiff => hj hiff.symm
      exact ⟨l, hlt, hB, hA⟩
    obtain ⟨rfl, hno⟩ | ⟨k, rfl, hAk, hfirst⟩ := h
    · obtain ⟨rfl, -⟩ | ⟨k', rfl, hBk, hfirst'⟩ := h'
      · rfl
      · exact (First.earlier hBk hfirst' (hno k') hall').elim
    obtain ⟨rfl, hno'⟩ | ⟨k', rfl, hBk, hfirst'⟩ := h'
    · exact (First.earlier hAk hfirst (hno' k) hall).elim
    obtain hlt | rfl | hlt := Nat.lt_trichotomy k k'
    · exact (First.earlier hAk hfirst (hfirst' k hlt) hall).elim
    · rfl
    · exact (First.earlier hBk hfirst' (hfirst k' hlt) hall').elim

end Onix
