import Onix.Sanity.NamedTurn
import Onix.Spec.Image

/-! When `named` ends: the walk must not come past the last separator into directories whose
empty names lead on for ever. -/

namespace Onix.Fs

open Function Prog Cstr

variable {s t u v : State} {right left left' next pathname : Str} {x y i n k : ℕ} {p : Turn}
  {o : Option (ℕ × Str)}

section Loop

/-- The loop with a bound on its turns returns when the loop does. -/
theorem returns_iff : Returns (namedTurn right) p u ↔
    ∃ n o v, namedLoop right n p.inode p.left p.buf u = some (o, v) := by
  constructor
  · intro h
    induction h with
    | done hdone =>
      rename_i q w w' r
      refine ⟨1, r, w', ?_⟩
      rw [namedLoop_succ, bind_of_eq hdone]
      rfl
    | more hmore _ ih =>
      obtain ⟨n, o, v, hn⟩ := ih
      refine ⟨n + 1, o, v, ?_⟩
      rw [namedLoop_succ, bind_of_eq hmore]
      exact hn
  · intro h
    obtain ⟨n, o, v, hn⟩ := h
    induction n generalizing p u with
    | zero => cases hn
    | succ n ih =>
      rw [namedLoop_succ] at hn
      obtain ⟨q, w, hq, hn⟩ := bind_eq_some.mp hn
      cases q with
      | inl q => exact .more hq (ih hn)
      | inr r => exact .done hq

theorem namedFrom_of_enters (h : entersFrom i left = some (k, left', right)) :
    namedFrom i left s = namedLoop right (namedTurns left') k left' none (s.counted k) := by
  obtain ⟨rfl, rfl, hend, c, hc⟩ := entersFrom_eq_some h
  unfold namedFrom
  rw [poke_bind, if_neg hend, hc]
  rfl

theorem namedFrom_of_not_enters (h : entersFrom i left = none) :
    ∃ o t, namedFrom i left s = some (o, t) := by
  unfold entersFrom at h
  unfold namedFrom
  rw [poke_bind]
  split_ifs at h ⊢
  · exact ⟨_, _, rfl⟩
  · rw [Option.map_eq_none_iff.mp h]
    exact ⟨_, _, rfl⟩

/-- `named` comes to its loop. -/
theorem named_of_enters (h : s.enters pathname = some (i, left, right)) :
    named pathname s = namedLoop right (namedTurns left) i left none (s.counted i) := by
  unfold State.enters at h
  unfold named
  rw [peek_bind]
  split_ifs at h ⊢ with hsep hne
  · exact namedFrom_of_enters h
  · exact namedFrom_of_enters h
  · obtain ⟨-, rfl, hend, -⟩ := entersFrom_eq_some h
    exact absurd hend hne

/-- `named` returns before its loop. -/
theorem named_of_not_enters (h : s.enters pathname = none) : ∃ o t, named pathname s = some (o, t) := by
  unfold State.enters at h
  unfold named
  rw [peek_bind]
  split_ifs at h ⊢
  · exact namedFrom_of_not_enters h
  · exact namedFrom_of_not_enters h
  · exact ⟨_, _, rfl⟩

end Loop

section Ends

end Ends

section Names

/-- No name that stands in a directory contains a separator. -/
def State.PlainNames (s : State) : Prop := ∀ x k n, k < s.entriesNr x →
  (∀ j ≤ n, s.data (s.slotNr x k).buf ((s.slotNr x k).addr + 2 + j) ≠ EOS) →
    isSeparator (s.data (s.slotNr x k).buf ((s.slotNr x k).addr + 2 + n)) = false

/-- The path still has its last separator, the character `c`, before `right`. -/
def Ahead (c : Byte) (right left : Str) : Prop := ∃ q, left = q ++ c :: right ∧ EOS ∉ q

theorem ahead_strrsep {c : Byte} (h : strrsep left = some (c :: right)) :
    Ahead c right left ∧ isSeparator c = true := by
  induction left with
  | nil => cases h
  | cons b left ih =>
    rw [strrsep] at h
    by_cases hb : b = EOS
    · rw [if_pos hb] at h
      cases h
    rw [if_neg hb] at h
    cases hs : strrsep left with
    | some last =>
      rw [hs] at h
      cases h
      obtain ⟨⟨q, hq, heos⟩, hc⟩ := ih hs
      refine ⟨⟨b :: q, congrArg (b :: ·) hq, ?_⟩, hc⟩
      rw [List.mem_cons, not_or]
      exact ⟨Ne.symm hb, heos⟩
    | none =>
      rw [hs] at h
      dsimp only at h
      by_cases hsep : isSeparator b = true
      · rw [if_pos hsep] at h
        cases h
        exact ⟨⟨[], rfl, List.not_mem_nil⟩, hsep⟩
      · rw [if_neg hsep] at h
        cases h

/-- A name without a separator does not get past one. -/
theorem ahead_matchName {d : Bytes} {a : ℕ} {c : Byte} {q : Str} (hc : isSeparator c = true)
    (hq : EOS ∉ q) (hd : ∀ n, (∀ j ≤ n, d (a + j) ≠ EOS) → isSeparator (d (a + n)) = false)
    (h : matchName (q ++ c :: right) d a = some next) : next = right ∨ Ahead c right next := by
  induction q generalizing a with
  | nil =>
    rw [List.nil_append, matchName] at h
    split_ifs at h with h₁
    · have hsep := hd 0 fun j hj => by
        obtain rfl := Nat.le_zero.mp hj
        rw [Nat.add_zero, ← h₁.1]
        exact h₁.2
      rw [Nat.add_zero, ← h₁.1, hc] at hsep
      cases hsep
    · exact Or.inl (Option.some.inj h).symm
  | cons b q ih =>
    rw [List.mem_cons, not_or] at hq
    rw [List.cons_append, matchName] at h
    split_ifs at h with h₁ h₂ h₃ h₄
    · refine ih hq.2 (fun n hn => ?_) h
      have hsep := hd (n + 1) fun j hj => by
        cases j with
        | zero =>
          rw [Nat.add_zero, ← h₁.1]
          exact h₁.2
        | succ j =>
          rw [show a + (j + 1) = a + 1 + j by omega]
          exact hn j (by omega)
      rwa [show a + (n + 1) = a + 1 + n by omega] at hsep
    · exact Or.inr ⟨q, (Option.some.inj h).symm, hq.2⟩
    · exact absurd (not_not.mp h₄).symm hq.1

/-- Without a separator in a name the walk comes past the last one only where it ends. -/
theorem not_trapped_of_plainNames (h : s.PlainNames) : ¬ s.Trapped pathname := by
  intro htrapped
  obtain ⟨inode, left, right, x, left', he, hreach, hend, -⟩ := htrapped
  obtain ⟨-, -, -, c, hc⟩ := enters_spec he
  obtain ⟨hahead, hsep⟩ := ahead_strrsep hc
  have hkeep : Ahead c right left' := by
    generalize s.nr inode = z at hreach
    clear he hc hend
    induction hreach with
    | refl => exact hahead
    | step hfollows hne _ ih =>
      obtain ⟨k, hk, -⟩ := hfollows.entry
      obtain ⟨q, rfl, hq⟩ := hahead
      rcases ahead_matchName hsep hq (fun n hn => h _ k n hk.lt hn) hk.hit with rfl | hnext
      · exact absurd rfl hne
      · exact ih hnext
  obtain ⟨q, rfl, hq⟩ := hkeep
  cases q with
  | nil =>
    change c = EOS at hend
    rw [hend] at hsep
    cases hsep
  | cons b q => exact hq (List.mem_cons.mpr (Or.inl hend.symm))

end Names

section Looping

variable {b block : ℕ}

section Loop

variable {s t : State} {dir i n : ℕ} {name next : Str} {entry : Option Entry} {e : Entry}

end Loop

end Looping

end Onix.Fs
