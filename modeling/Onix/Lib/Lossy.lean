import Mathlib

/-! A channel that keeps the order and may lose what has waited longest. -/

namespace Onix

variable {α : Type*}

/-- Of what was `sent`, the last part is `pending`; the rest was `delivered`, in the order
in which it was sent, or `dropped`. -/
structure Lossy (sent delivered dropped pending : List α) : Prop where
  pending : ∃ past, sent = past ++ pending ∧ delivered.Sublist past ∧ dropped.Sublist past ∧
    (delivered ++ dropped).Perm past

namespace Lossy

variable {sent delivered dropped pending : List α} {a : α}

theorem nil : Lossy ([] : List α) [] [] [] :=
  ⟨⟨[], rfl, List.Sublist.refl _, List.Sublist.refl _, List.Perm.refl _⟩⟩

theorem send (h : Lossy sent delivered dropped pending) (a : α) :
    Lossy (sent ++ [a]) delivered dropped (pending ++ [a]) := by
  obtain ⟨past, rfl, hdel, hdrop, hperm⟩ := h.pending
  exact ⟨⟨past, by rw [List.append_assoc], hdel, hdrop, hperm⟩⟩

theorem deliver (h : Lossy sent delivered dropped (a :: pending)) :
    Lossy sent (delivered ++ [a]) dropped pending := by
  obtain ⟨past, rfl, hdel, hdrop, hperm⟩ := h.pending
  refine ⟨⟨past ++ [a], by simp, hdel.append (List.Sublist.refl _),
    hdrop.trans (List.sublist_append_left _ _), ?_⟩⟩
  refine List.Perm.trans ?_ (hperm.append_right [a])
  rw [List.append_assoc, List.append_assoc]
  exact List.perm_append_comm.append_left delivered

theorem drop (h : Lossy sent delivered dropped (a :: pending)) :
    Lossy sent delivered (dropped ++ [a]) pending := by
  obtain ⟨past, rfl, hdel, hdrop, hperm⟩ := h.pending
  refine ⟨⟨past ++ [a], by simp, hdel.trans (List.sublist_append_left _ _),
    hdrop.append (List.Sublist.refl _), ?_⟩⟩
  rw [← List.append_assoc]
  exact hperm.append_right [a]

/-- What is delivered is in the order of sending, none of it twice where nothing was
sent twice. -/
theorem delivered_sublist (h : Lossy sent delivered dropped pending) :
    delivered.Sublist sent := by
  obtain ⟨past, rfl, hdel, -, -⟩ := h.pending
  exact hdel.trans (List.sublist_append_left _ _)

/-- Everything sent is in one of the three places. -/
theorem perm (h : Lossy sent delivered dropped pending) :
    (delivered ++ dropped ++ pending).Perm sent := by
  obtain ⟨past, rfl, -, -, hperm⟩ := h.pending
  exact hperm.append_right pending

end Lossy

end Onix
