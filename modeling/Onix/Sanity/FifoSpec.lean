import Onix.Spec.Fifo

/-! The circular queue as the list of what is in it: a put appends and, where the
queue is full, drops the first; a get takes the first. -/

namespace Onix.Fifo

open Function

variable {α : Type*} {f : Fifo α} {a b : α} {xs : List α}

/-- The queue holds `xs`, the oldest first. -/
structure Holds (f : Fifo α) (xs : List α) : Prop where
  length : f.length < 2 ^ 32
  tail : f.tail < f.length
  head : f.head = (f.tail + xs.length) % f.length
  room : xs.length < f.length
  cell : ∀ i (hi : i < xs.length), f.buf ((f.tail + i) % f.length) = xs[i]

theorem next_eq {pos : ℕ} (h : f.length < 2 ^ 32) (hpos : pos < f.length) :
    f.next pos = if pos + 1 = f.length then 0 else pos + 1 := by
  unfold next
  rw [Nat.mod_eq_of_lt (a := pos + 1) (by omega)]
  split
  · rename_i he
    rw [he, Nat.mod_self]
  · exact Nat.mod_eq_of_lt (by omega)

/-- An index of the ring without the remainder. -/
theorem ring_eq {t n len : ℕ} (ht : t < len) (hn : n ≤ len) :
    (t + n) % len = if t + n < len then t + n else t + n - len := by
  split
  · exact Nat.mod_eq_of_lt (by assumption)
  · rw [Nat.mod_eq_sub_mod (by omega), Nat.mod_eq_of_lt (by omega)]

theorem holds_init {buf : ℕ → α} {length : ℕ} (hpos : 0 < length) (hlt : length < 2 ^ 32) :
    Holds (init buf length) [] where
  length := hlt
  tail := hpos
  head := (Nat.zero_mod length).symm
  room := hpos
  cell i hi := absurd hi (Nat.not_lt_zero i)

theorem Holds.contents (h : Holds f xs) : f.contents = xs := by
  have hroom := h.room
  have htail := h.tail
  have hlen : (f.head + f.length - f.tail) % f.length = xs.length := by
    rw [h.head, ring_eq htail (by omega)]
    split
    · rw [show f.tail + xs.length + f.length - f.tail = xs.length + f.length by omega,
        Nat.add_mod_right, Nat.mod_eq_of_lt hroom]
    · rw [show f.tail + xs.length - f.length + f.length - f.tail = xs.length by omega,
        Nat.mod_eq_of_lt hroom]
  unfold Fifo.contents
  rw [hlen]
  apply List.ext_getElem
  · simp
  · intro i hi hi'
    rw [List.getElem_map, List.getElem_range]
    exact h.cell i hi'

theorem Holds.empty_iff (h : Holds f xs) : f.empty = true ↔ xs = [] := by
  have hroom := h.room
  have htail := h.tail
  unfold empty
  rw [decide_eq_true_iff, h.head, ring_eq htail (by omega), ← List.length_eq_zero_iff]
  split <;> omega

theorem Holds.full_iff (h : Holds f xs) : f.full = true ↔ xs.length + 1 = f.length := by
  have hroom := h.room
  have htail := h.tail
  have hhead := h.head
  have hlt : f.head < f.length := by
    rw [hhead]
    exact Nat.mod_lt _ (by omega)
  unfold full
  rw [decide_eq_true_iff, next_eq h.length hlt, hhead, ring_eq htail (by omega)]
  split_ifs <;> omega

theorem Holds.get (h : Holds f (a :: xs)) :
    ∃ f', f.get = some (a, f') ∧ Holds f' xs ∧ f'.length = f.length := by
  have hroom := h.room
  have htail := h.tail
  rw [List.length_cons] at hroom
  have hfirst : f.buf f.tail = a := by
    have := h.cell 0 (by simp)
    rwa [Nat.add_zero, Nat.mod_eq_of_lt htail] at this
  have hne : ¬ f.empty = true := by
    rw [h.empty_iff]
    exact List.cons_ne_nil a xs
  refine ⟨{ f with tail := f.next f.tail }, ?_, ⟨h.length, ?_, ?_, by dsimp only; omega, ?_⟩, rfl⟩
  · unfold Fifo.get
    rw [if_neg hne, hfirst]
  · dsimp only
    rw [next_eq h.length htail]
    split <;> omega
  · dsimp only
    rw [h.head, next_eq h.length htail, List.length_cons, ring_eq htail (by omega)]
    split_ifs with he he'
    · omega
    · rw [ring_eq (by omega) (by omega), if_pos (by omega)]
      omega
    · rw [ring_eq (by omega) (by omega), if_pos (by omega)]
      omega
    · rw [ring_eq (by omega) (by omega), if_neg (by omega)]
      omega
  · intro i hi
    have hcell := h.cell (i + 1) (by simpa using hi)
    rw [List.getElem_cons_succ] at hcell
    rw [← hcell]
    dsimp only
    congr 1
    rw [next_eq h.length htail, ring_eq htail (by omega)]
    split_ifs with he he'
    · omega
    · rw [ring_eq (by omega) (by omega), if_pos (by omega)]
      omega
    · rw [ring_eq (by omega) (by omega), if_pos (by omega)]
      omega
    · rw [ring_eq (by omega) (by omega), if_neg (by omega)]
      omega

/-- Storing at the head when there is room behind it. -/
theorem Holds.append (h : Holds f xs) (hroom : xs.length + 1 < f.length) (a : α) :
    Holds { f with buf := update f.buf f.head a, head := f.next f.head } (xs ++ [a]) := by
  have htail := h.tail
  have hlt : f.head < f.length := by
    rw [h.head]
    exact Nat.mod_lt _ (by omega)
  have hindex : ∀ i < xs.length, (f.tail + i) % f.length ≠ f.head := by
    intro i hi
    rw [h.head, ring_eq htail (by omega), ring_eq htail (by omega)]
    split_ifs <;> omega
  refine ⟨h.length, htail, ?_, by simpa using hroom, fun i hi => ?_⟩
  · dsimp only
    rw [next_eq h.length hlt, h.head, List.length_append, List.length_singleton,
      ring_eq htail (by omega), ring_eq htail (by omega)]
    split_ifs <;> omega
  · rw [List.length_append, List.length_singleton] at hi
    dsimp only
    by_cases hlast : i = xs.length
    · subst hlast
      rw [← h.head, update_self, List.getElem_concat_length rfl]
    · rw [update_of_ne (hindex i (by omega)), List.getElem_append_left (by omega)]
      exact h.cell i (by omega)

/-- `fifo_put` with room: nothing is dropped. -/
theorem Holds.put (h : Holds f xs) (hroom : xs.length + 1 < f.length) (a : α) :
    ∃ f', f.put a = some ([], f') ∧ Holds f' (xs ++ [a]) ∧ f'.length = f.length := by
  have hfull : ¬ f.full = true := by
    rw [h.full_iff]
    omega
  refine ⟨_, ?_, h.append hroom a, rfl⟩
  unfold Fifo.put makeRoom
  rw [if_neg hfull]
  rfl

/-- `fifo_put` on a full queue drops the oldest. -/
theorem Holds.put_full (h : Holds f (b :: xs)) (hfull : xs.length + 2 = f.length) (a : α) :
    ∃ f', f.put a = some ([b], f') ∧ Holds f' (xs ++ [a]) ∧ f'.length = f.length := by
  obtain ⟨f₁, hget, h₁, hlen⟩ := h.get
  have hfull' : f.full = true := h.full_iff.mpr (by simpa using hfull)
  have hroom : ¬ f₁.full = true := by
    rw [h₁.full_iff]
    omega
  refine ⟨_, ?_, h₁.append (by omega) a, hlen⟩
  unfold Fifo.put
  rw [← hfull, makeRoom, if_pos hfull', hget]
  dsimp only
  rw [makeRoom, if_neg hroom]
  rfl

end Onix.Fifo
