import Mathlib

/-! A write-back cache as its users see it: for each key the data shown, how
often it is held, whether it is dirty, and what the backing store has. -/

namespace Onix

open Function

structure Cache (κ δ : Type) where
  data : κ → δ
  count : κ → ℕ
  dirty : κ → Bool
  disk : κ → δ

namespace Cache

variable {κ δ : Type} [DecidableEq κ] (c : Cache κ δ) (k : κ)

/-- Take hold of an entry. -/
def hold : Cache κ δ := { c with count := update c.count k (c.count k + 1) }

def put (d : δ) : Cache κ δ := { c with data := update c.data k d }

def mark : Cache κ δ := { c with dirty := update c.dirty k true }

/-- Write a dirty entry back. -/
def clean : Cache κ δ :=
  if c.dirty k then
    { c with disk := update c.disk k (c.data k), dirty := update c.dirty k false }
  else c

/-- Write back, then let go of one hold; `none` where there is none. -/
def drop : Option (Cache κ δ) :=
  let c := c.clean k
  if c.count k = 0 then none else some { c with count := update c.count k (c.count k - 1) }

@[simp] theorem hold_data : (c.hold k).data = c.data := rfl

@[simp] theorem put_data (d : δ) : (c.put k d).data = update c.data k d := rfl

@[simp] theorem mark_data : (c.mark k).data = c.data := rfl

@[simp] theorem clean_data : (c.clean k).data = c.data := by
  unfold clean
  split_ifs <;> rfl

@[simp] theorem clean_count : (c.clean k).count = c.count := by
  unfold clean
  split_ifs <;> rfl

/-- An entry written back equals its place in the store. -/
theorem clean_synced (h : c.dirty k = false → c.data k = c.disk k) :
    (c.clean k).dirty k = false ∧ (c.clean k).data k = (c.clean k).disk k := by
  unfold clean
  split_ifs with hd
  · simp
  · have hd : c.dirty k = false := by simpa using hd
    exact ⟨hd, h hd⟩

variable {c k}

/-- Writing back keeps every entry that is not dirty equal to its place in the store. -/
theorem clean_all_synced (h : ∀ b, c.dirty b = false → c.data b = c.disk b) (b : κ)
    (hb : (c.clean k).dirty b = false) : (c.clean k).data b = (c.clean k).disk b := by
  by_cases hbk : b = k
  · subst hbk
    exact (c.clean_synced b (h b)).2
  · unfold clean at hb ⊢
    split_ifs at hb ⊢ with hd
    · dsimp only at hb ⊢
      rw [update_of_ne hbk] at hb
      rw [update_of_ne hbk]
      exact h b hb
    · exact h b hb

theorem drop_eq_some {c' : Cache κ δ} (h : c.drop k = some c') :
    0 < c.count k ∧
      c' = { c.clean k with count := update c.count k (c.count k - 1) } := by
  simp only [drop, clean_count] at h
  split_ifs at h with h0
  exact ⟨by omega, by simpa using h.symm⟩

end Cache

end Onix
