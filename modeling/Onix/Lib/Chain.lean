import Mathlib

/-! Neighbours in a doubly linked list whose nodes have different keys. -/

namespace Onix.Chain

variable {α β : Type*} [DecidableEq β] (key : α → β) (l : List α) (k : β)

/-- The node after the one with this key. -/
def next : Option α := (l.dropWhile fun x => key x != k).tail.head?

/-- The node before the one with this key. -/
def prev : Option α := (l.takeWhile fun x => key x != k).getLast?

/-- The list without the node. -/
def remove : List α := l.filter fun x => key x != k

variable {key l k} {x y : α}

theorem mem_remove : y ∈ remove key l k ↔ y ∈ l ∧ key y ≠ k := by
  simp [remove]

/-- The list around one of its nodes. -/
theorem around (hn : (l.map key).Nodup) (hx : x ∈ l) :
    ∃ xs ys, l = xs ++ x :: ys ∧ next key l (key x) = ys.head? ∧ prev key l (key x) = xs.getLast? ∧
      remove key l (key x) = xs ++ ys := by
  obtain ⟨xs, ys, rfl⟩ := List.append_of_mem hx
  rw [List.map_append, List.map_cons, List.nodup_append, List.nodup_cons] at hn
  obtain ⟨-, ⟨hys, -⟩, hdisj⟩ := hn
  have hleft : ∀ y ∈ xs, (key y != key x) = true := by
    intro y hy
    have := hdisj (key y) (List.mem_map_of_mem hy) (key x) List.mem_cons_self
    simpa using this
  have hright : ∀ y ∈ ys, (key y != key x) = true := by
    intro y hy
    have : key y ≠ key x := fun he => hys (he ▸ List.mem_map_of_mem hy)
    simpa using this
  have hself : ¬ (fun y => key y != key x) x = true := by simp
  refine ⟨xs, ys, rfl, ?_, ?_, ?_⟩
  · unfold next
    rw [List.dropWhile_append_of_pos hleft, List.dropWhile_cons_of_neg (p := fun y => key y != key x) hself, List.tail_cons]
  · unfold prev
    rw [List.takeWhile_append_of_pos hleft, List.takeWhile_cons_of_neg (p := fun y => key y != key x) hself, List.append_nil]
  · unfold remove
    rw [List.filter_append, List.filter_cons_of_neg (p := fun y => key y != key x) hself, List.filter_eq_self.mpr hleft,
      List.filter_eq_self.mpr hright]

end Onix.Chain
