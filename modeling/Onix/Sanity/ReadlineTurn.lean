import Onix.Sanity.NameMatch
import Onix.Spec.Osh

/-! One turn of `readline`: what is in the buffer while the line is edited, and at its end. -/

namespace Onix.Osh

open Function
open Cstr (EOS read_add read_congr length_readAt)

variable {buf count n k : ℕ} {m : Bytes} {input : ℕ → Option Byte} {r r' : Reader} {c : Byte}

section Memory

theorem read_snoc (b : Bytes) (a n : ℕ) : b.read a (n + 1) = b.read a n ++ [b (a + n)] := by
  rw [read_add]
  rfl

/-- A store behind what is read. -/
theorem read_put (s : Store) {a n ptr : ℕ} (c : Byte) (h : a + n ≤ ptr) :
    (s.put ptr c).mem.read a n = s.mem.read a n := by
  apply read_congr
  intro x hx
  exact update_of_ne (by omega) ..

theorem read_put_last (s : Store) (a n : ℕ) (c : Byte) :
    (s.put (a + n) c).mem.read a (n + 1) = s.mem.read a n ++ [c] := by
  rw [read_snoc, read_put s c le_rfl]
  exact congrArg (fun x => _ ++ [x]) (update_self ..)

theorem mem_stored_put {s : Store} {ptr a : ℕ} (h : a ∈ (s.put ptr c).stored) :
    a ∈ s.stored ∨ a = ptr := by
  simpa [Store.put] using h

end Memory

section Edit

/-- A line never holds a backspace. -/
theorem backspace_notMem_edited : BACKSPACE ∉ edited input n := by
  induction n with
  | zero => exact List.not_mem_nil
  | succ n ih =>
    rw [edited]
    cases input n with
    | none => exact ih
    | some c =>
      dsimp only
      unfold edit
      split_ifs with hb ht
      · exact fun h => ih (List.mem_of_mem_dropLast h)
      · exact ih
      · rw [List.mem_append, List.mem_singleton]
        exact fun h => h.elim ih fun h => hb h.symm

end Edit

/-- In the loop the buffer holds the line so far, and nothing else has been stored to. -/
structure Editing (buf count : ℕ) (input : ℕ → Option Byte) (n : ℕ) (r : Reader) : Prop where
  typed : Typed input n
  line : r.store.mem.read buf r.idx = edited input n
  idx : r.idx ≤ count
  stored : ∀ a ∈ r.store.stored, buf ≤ a ∧ a < buf + count

theorem Editing.length (h : Editing buf count input n r) : (edited input n).length = r.idx := by
  rw [← h.line]
  exact length_readAt

theorem editing_start (buf count : ℕ) (m : Bytes) (input : ℕ → Option Byte) :
    Editing buf count input 0 ⟨⟨m, []⟩, 0, []⟩ :=
  ⟨fun i hi => absurd hi (Nat.not_lt_zero i), rfl, Nat.zero_le _, by simp⟩

/-- The buffer begins with a backspace only where one has just been stored to an empty line. -/
theorem Editing.first (h : Editing buf count input n r) :
    (r.put (buf + r.idx) BACKSPACE).store.mem buf = BACKSPACE ↔ r.idx = 0 := by
  constructor
  · intro hfirst
    by_contra hne
    obtain ⟨k, hk⟩ := Nat.exists_eq_succ_of_ne_zero hne
    have hmem : BACKSPACE ∈ edited input n := by
      rw [← h.line, hk, Cstr.read_succ]
      have hkeep : (r.put (buf + r.idx) BACKSPACE).store.mem buf = r.store.mem buf :=
        update_of_ne (by omega) ..
      rw [← hfirst, hkeep]
      exact List.mem_cons_self
    exact backspace_notMem_edited hmem
  · intro hzero
    rw [hzero]
    exact update_self ..

theorem typed_succ (h : Typed input n) (hn : ¬ LineEnd (input n)) : Typed input (n + 1) := by
  intro i hi
  rcases Nat.lt_succ_iff_lt_or_eq.mp hi with hlt | rfl
  · exact h i hlt
  · exact hn

theorem edited_succ (h : input n = some c) : edited input (n + 1) = edit (edited input n) c := by
  rw [edited, h]

/-- The address of a turn is one of the buffer. -/
theorem Editing.stored_put (h : Editing buf count input n r) (hlt : r.idx < count) (c : Byte) :
    ∀ a ∈ (r.store.put (buf + r.idx) c).stored, buf ≤ a ∧ a < buf + count := by
  intro a ha
  rcases mem_stored_put ha with ha | rfl
  · exact h.stored a ha
  · omega

/-- A backspace takes back the last character, if there is one. -/
theorem Editing.backspace (h : Editing buf count input n r) (hlt : r.idx < count)
    (hc : input n = some BACKSPACE) :
    ∃ r', turn buf count r (input n) = .more r' ∧ Editing buf count input (n + 1) r' := by
  have htyped := typed_succ h.typed (by rw [hc]; decide)
  have hedited := edited_succ hc
  rw [edit, if_pos rfl] at hedited
  have hkeep := read_put r.store (a := buf) BACKSPACE (le_refl (buf + r.idx))
  rw [hc]
  unfold Osh.turn
  rw [if_pos hlt]
  dsimp only
  rw [if_neg (by decide), if_pos rfl]
  by_cases hzero : r.idx = 0
  · rw [if_neg (not_not.mpr (h.first.mpr hzero))]
    refine ⟨_, rfl, htyped, ?_, h.idx, h.stored_put hlt BACKSPACE⟩
    refine hkeep.trans ?_
    rw [h.line, hedited, List.eq_nil_of_length_eq_zero (h.length.trans hzero)]
    rfl
  · obtain ⟨k, hk⟩ := Nat.exists_eq_succ_of_ne_zero hzero
    have hidx : sub32 r.idx 1 = k := by
      rw [sub32_of_le (by omega), hk]
      rfl
    rw [if_pos (h.first.not.mpr hzero)]
    refine ⟨_, rfl, htyped, ?_, ?_, h.stored_put hlt BACKSPACE⟩
    · change (r.store.put (buf + r.idx) BACKSPACE).mem.read buf (sub32 r.idx 1) = _
      rw [hidx, read_put _ _ (by omega), hedited, ← h.line, hk, read_snoc, List.dropLast_concat]
    · change sub32 r.idx 1 ≤ count
      omega

/-- One turn in the loop: the line goes on, or ends with a `NUL` in the buffer. -/
theorem Editing.step (h : Editing buf count input n r) (hlt : r.idx < count) (hcount : count < 2 ^ 32) :
    (¬ LineEnd (input n) ∧ ∃ r', turn buf count r (input n) = .more r' ∧
      Editing buf count input (n + 1) r') ∨
    (LineEnd (input n) ∧ ∃ r', turn buf count r (input n) = .returned r' ∧
      r'.store.mem.read buf (r.idx + 1) = edited input n ++ [EOS] ∧
      ∀ a ∈ r'.store.stored, buf ≤ a ∧ a < buf + count) := by
  cases hc : input n with
  | none =>
    refine .inr ⟨.inl rfl, r.put (buf + r.idx) EOS, by simp [Osh.turn, hlt], ?_, h.stored_put hlt EOS⟩
    rw [← h.line]
    exact read_put_last ..
  | some c =>
    by_cases hend : c = NEWLINE ∨ c = RETURN
    · have hout : turn buf count r (some c) =
          .returned (((r.put (buf + r.idx) c).put (buf + r.idx) EOS).write NEWLINE) := by
        simp [Osh.turn, hlt, hend]
      refine .inr ⟨by simpa [LineEnd] using hend, _, hout, ?_, ?_⟩
      · change ((r.store.put (buf + r.idx) c).put (buf + r.idx) EOS).mem.read buf (r.idx + 1) = _
        rw [read_put_last, read_put _ _ le_rfl, h.line]
      · intro a ha
        rcases mem_stored_put ha with ha | rfl
        · exact h.stored_put hlt c a ha
        · omega
    · have hgo : ¬ LineEnd (some c) := by simpa [LineEnd] using hend
      refine .inl ⟨hgo, ?_⟩
      rw [← hc] at hgo ⊢
      by_cases hback : c = BACKSPACE
      · exact h.backspace hlt (hback ▸ hc)
      · have htyped := typed_succ h.typed hgo
        have hedited := edited_succ hc
        rw [edit, if_neg hback] at hedited
        rw [hc]
        unfold Osh.turn
        rw [if_pos hlt]
        dsimp only
        rw [if_neg hend, if_neg hback]
        by_cases htab : c = TAB
        · rw [if_pos htab] at hedited ⊢
          refine ⟨_, rfl, htyped, ?_, h.idx, h.stored_put hlt c⟩
          change (r.store.put (buf + r.idx) c).mem.read buf r.idx = _
          rw [read_put _ _ le_rfl, h.line, hedited]
        · rw [if_neg htab] at hedited ⊢
          refine ⟨_, rfl, htyped, ?_, ?_, h.stored_put hlt c⟩
          · change (r.store.put (buf + r.idx) c).mem.read buf ((r.idx + 1) % 2 ^ 32) = _
            rw [Nat.mod_eq_of_lt (by omega), read_put_last, h.line, hedited]
          · change (r.idx + 1) % 2 ^ 32 ≤ count
            rw [Nat.mod_eq_of_lt (by omega)]
            exact hlt

end Onix.Osh
