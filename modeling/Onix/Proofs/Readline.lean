import Onix.Sanity.ReadlineTurn

/-! `readline` reads the line exactly where it never has as many characters as the buffer. -/

namespace Onix.Osh

open Cstr (EOS)

variable {buf count n k : ℕ} {m : Bytes} {input : ℕ → Option Byte} {r : Reader}

theorem readline_succ (h : readline buf count m input n = .more r) :
    readline buf count m input (n + 1) = turn buf count r (input n) := by
  rw [readline, h]

/-- What has been returned stays. -/
theorem readline_returned (h : readline buf count m input n = .returned r) (hle : n ≤ k) :
    readline buf count m input k = .returned r := by
  induction k, hle using Nat.le_induction with
  | base => exact h
  | succ k _ ih => rw [readline, ih]

/-- While characters are typed and there was room for them, `readline` is in its loop. -/
theorem readline_editing (buf : ℕ) (m : Bytes) (hcount : count < 2 ^ 32) (htyped : Typed input n)
    (hroom : ∀ k < n, (edited input k).length < count) :
    ∃ r, readline buf count m input n = .more r ∧ Editing buf count input n r := by
  induction n with
  | zero => exact ⟨_, rfl, editing_start buf count m input⟩
  | succ n ih =>
    obtain ⟨r, hr, hediting⟩ := ih (fun i hi => htyped i (Nat.lt_succ_of_lt hi))
      fun k hk => hroom k (Nat.lt_succ_of_lt hk)
    have hlt : r.idx < count := hediting.length ▸ hroom n (Nat.lt_succ_self n)
    rcases hediting.step hlt hcount with ⟨-, r', hturn, hnext⟩ | ⟨hend, -⟩
    · exact ⟨r', (readline_succ hr).trans hturn, hnext⟩
    · exact absurd hend (htyped n (Nat.lt_succ_self n))

/-- The first character that ends the line. -/
theorem exists_lineEnd (h : ¬ Typed input n) : ∃ k < n, Typed input k ∧ LineEnd (input k) := by
  unfold Typed at h
  push Not at h
  obtain ⟨i, hi, hend⟩ := h
  have hex : ∃ i, LineEnd (input i) := ⟨i, hend⟩
  refine ⟨Nat.find hex, (Nat.find_le hend).trans_lt hi, fun j hj => Nat.find_min hex hj, Nat.find_spec hex⟩

/-- A line that fills the buffer gets its `NUL` behind it. -/
theorem stored_outside (buf : ℕ) (m : Bytes) (hcount : count < 2 ^ 32) (htyped : Typed input n)
    (hroom : ∀ k < n, (edited input k).length < count) (hfull : count ≤ (edited input n).length) :
    buf + count ∈ (readline buf count m input (n + 1)).reader.store.stored := by
  obtain ⟨r, hr, hediting⟩ := readline_editing buf m hcount htyped hroom
  have hidx : r.idx = count := le_antisymm hediting.idx (hediting.length ▸ hfull)
  have hturn : turn buf count r (input n) = .returned (r.put (buf + r.idx) EOS) := by
    unfold turn
    rw [if_neg (by omega)]
  rw [readline_succ hr, hturn, hidx]
  exact List.mem_append_right _ (List.mem_singleton_self _)

section Room

variable (buf : ℕ) (m : Bytes) (hcount : count < 2 ^ 32)
  (hroom : ∀ n, Typed input n → (edited input n).length < count)

include hcount hroom

theorem readline_typed (htyped : Typed input n) :
    ∃ r, readline buf count m input n = .more r ∧ Editing buf count input n r ∧ r.idx < count := by
  obtain ⟨r, hr, hediting⟩ := readline_editing buf m hcount htyped
    fun k hk => hroom k fun i hi => htyped i (hi.trans hk)
  exact ⟨r, hr, hediting, hediting.length ▸ hroom n htyped⟩

/-- The end of the line. -/
theorem readline_lineEnd (htyped : Typed input n) (hend : LineEnd (input n)) :
    ∃ r, readline buf count m input (n + 1) = .returned r ∧
      r.store.mem.read buf ((edited input n).length + 1) = edited input n ++ [EOS] ∧
      ∀ a ∈ r.store.stored, buf ≤ a ∧ a < buf + count := by
  obtain ⟨r, hr, hediting, hlt⟩ := readline_typed buf m hcount hroom htyped
  rcases hediting.step hlt hcount with ⟨hgo, -⟩ | ⟨-, r', hturn, hread, hstored⟩
  · exact absurd hend hgo
  · refine ⟨r', (readline_succ hr).trans hturn, ?_, hstored⟩
    rw [hediting.length]
    exact hread

theorem readsLine_of_room : ReadsLine buf count m input where
  inside n := by
    by_cases htyped : Typed input n
    · obtain ⟨r, hr, hediting, -⟩ := readline_typed buf m hcount hroom htyped
      rw [hr]
      exact hediting.stored
    · obtain ⟨k, hk, htyped, hend⟩ := exists_lineEnd htyped
      obtain ⟨r, hr, -, hstored⟩ := readline_lineEnd buf m hcount hroom htyped hend
      rw [readline_returned hr hk]
      exact hstored
  returns n htyped hend := by
    obtain ⟨r, hr, -⟩ := readline_lineEnd buf m hcount hroom htyped hend
    exact ⟨r, hr⟩
  line n r r' hmore hreturned := by
    have htyped : Typed input n := by
      by_contra hnot
      obtain ⟨k, hk, htyped, hend⟩ := exists_lineEnd hnot
      obtain ⟨u, hu, -⟩ := readline_lineEnd buf m hcount hroom htyped hend
      rw [readline_returned hu hk] at hmore
      cases hmore
    obtain ⟨u, hu, hediting, hlt⟩ := readline_typed buf m hcount hroom htyped
    have hend : LineEnd (input n) := by
      rcases hediting.step hlt hcount with ⟨-, u', hturn, -⟩ | ⟨hend, -⟩
      · rw [readline_succ hu, hturn] at hreturned
        cases hreturned
      · exact hend
    obtain ⟨u', hu', hread, -⟩ := readline_lineEnd buf m hcount hroom htyped hend
    rw [hu'] at hreturned
    cases hreturned
    have hfits : (edited input n).length ≤ count - 1 := Nat.le_sub_one_of_lt (hroom n htyped)
    refine ⟨htyped, .inl hend, ?_⟩
    dsimp only
    rw [List.take_of_length_le hfits]
    exact hread

end Room

/-- `readline` keeps to the buffer and leaves the edited line in it exactly where the line
never has as many characters as the buffer. -/
theorem readline_iff (hcount : count < 2 ^ 32) :
    ReadsLine buf count m input ↔ ∀ n, Typed input n → (edited input n).length < count := by
  constructor
  · intro h
    by_contra hno
    push Not at hno
    classical
    have hex : ∃ n, Typed input n ∧ count ≤ (edited input n).length := hno
    obtain ⟨htyped, hfull⟩ := Nat.find_spec hex
    have hroom : ∀ k < Nat.find hex, (edited input k).length < count := by
      intro k hk
      by_contra hlt
      exact Nat.find_min hex hk ⟨fun i hi => htyped i (hi.trans hk), not_lt.mp hlt⟩
    have hout := h.inside _ _ (stored_outside buf m hcount htyped hroom hfull)
    omega
  · exact readsLine_of_room buf m hcount

/-- Characters that are neither taken back nor dropped. -/
theorem edited_const (n : ℕ) : (edited (fun _ => some 0x61) n).length = n := by
  induction n with
  | zero => rfl
  | succ n ih =>
    rw [edited]
    dsimp only
    unfold edit
    rw [if_neg (by decide), if_neg (by decide), List.length_append, ih]
    rfl

/-- As many characters as `cmd` has bytes. -/
theorem readline_full : ¬ ReadsLine 0 MAX_CMD_LEN (fun _ => 0) fun _ => some 0x61 := by
  intro h
  have htyped : Typed (fun _ => some 0x61) MAX_CMD_LEN := fun i _ => by
    change ¬ LineEnd (some 0x61)
    decide
  have hroom : ∀ k < MAX_CMD_LEN, (edited (fun _ => some 0x61) k).length < MAX_CMD_LEN := by
    intro k hk
    rwa [edited_const]
  have hout := h.inside _ _ (stored_outside 0 _ (by decide) htyped hroom (edited_const _).ge)
  unfold MAX_CMD_LEN at hout
  omega

/-- The characters of `lx`, a backspace, a tab, `s` and a newline. -/
def keys : ℕ → Option Byte := fun n => [0x6c, 0x78, BACKSPACE, TAB, 0x73, NEWLINE][n]?

theorem readline_keys : ReadsLine 0 3 (fun _ => 0) keys ∧ edited keys 5 = [0x6c, 0x73] := by
  refine ⟨(readline_iff (by decide)).mpr fun n htyped => ?_, by decide⟩
  have hn : n ≤ 5 := by
    by_contra hlt
    exact htyped 5 (by omega) (by decide)
  interval_cases n <;> decide

end Onix.Osh
