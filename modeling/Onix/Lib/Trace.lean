import Onix.Lib.Prog

/-! Programs that note some of the calls they make, and the programs they are without the notes. -/

namespace Onix.Prog

variable {σ κ α β : Type}

/-- A program on `σ` and the calls noted so far. -/
abbrev Noted (σ κ α : Type) := Prog (σ × List κ) α

/-- `m`, of which nothing is noted. -/
def still (m : Prog σ α) : Noted σ κ α := fun x => (m x.1).map fun r => (r.1, (r.2, x.2))

/-- `m`, noted as the call `c`. -/
def note (c : κ) (m : Prog σ α) : Noted σ κ α :=
  fun x => (m x.1).map fun r => (r.1, (r.2, x.2 ++ [c]))

/-- Without its notes `m` is `p`. -/
def Erases (m : Noted σ κ α) (p : Prog σ α) : Prop :=
  ∀ s l, (m (s, l)).map (fun r => (r.1, r.2.1)) = p s

variable {m : Noted σ κ α} {p : Prog σ α} {f : α → Noted σ κ β} {g : α → Prog σ β}
  {s t : σ} {l l' : List κ} {a : α} {b : β} {c : κ}

theorem still_eq_some : still p (s, l) = some (a, (t, l')) ↔ p s = some (a, t) ∧ l' = l := by
  unfold still
  cases h : p s with
  | none => simp
  | some r => simp [Prod.ext_iff, eq_comm, and_assoc]

theorem note_eq_some :
    note c p (s, l) = some (a, (t, l')) ↔ p s = some (a, t) ∧ l' = l ++ [c] := by
  unfold note
  cases h : p s with
  | none => simp
  | some r => simp [Prod.ext_iff, eq_comm, and_assoc]

theorem still_peek_bind (h : σ → α) : (still (peek h) >>= f) (s, l) = f (h s) (s, l) := rfl

theorem Erases.run (h : Erases m p) (hp : p s = some (a, t)) (l : List κ) :
    ∃ l', m (s, l) = some (a, (t, l')) := by
  have hm := h s l
  rw [hp] at hm
  obtain ⟨⟨a', t', l'⟩, hr, he⟩ := Option.map_eq_some_iff.mp hm
  obtain ⟨rfl, rfl⟩ := Prod.mk.inj he
  exact ⟨l', hr⟩

theorem erases_pure (a : α) : Erases (pure a : Noted σ κ α) (pure a) := fun _ _ => rfl

theorem erases_still (p : Prog σ α) : Erases (still p : Noted σ κ α) p := by
  intro s l
  unfold still
  cases p s <;> rfl

theorem erases_note (c : κ) (p : Prog σ α) : Erases (note c p) p := by
  intro s l
  unfold note
  cases p s <;> rfl

theorem Erases.bind (hm : Erases m p) (hf : ∀ a, Erases (f a) (g a)) : Erases (m >>= f) (p >>= g) := by
  intro s l
  have h := hm s l
  cases hr : m (s, l) with
  | none =>
    rw [hr] at h
    rw [bind_of_none hr, bind_of_none h.symm]
    rfl
  | some r =>
    obtain ⟨a, t, l'⟩ := r
    rw [hr] at h
    rw [bind_of_eq hr, bind_of_eq h.symm]
    exact hf a t l'

theorem Erases.ite {e : Prop} [Decidable e] {m' : Noted σ κ α} {p' : Prog σ α} (hm : Erases m p)
    (hm' : Erases m' p') : Erases (if e then m else m') (if e then p else p') := by
  split_ifs
  · exact hm
  · exact hm'

theorem erases_loop {h : ℕ → Noted σ κ Unit} {h' : ℕ → Prog σ Unit} (hh : ∀ i, Erases (h i) (h' i))
    (n i : ℕ) : Erases (loop h n i) (loop h' n i) := by
  induction n generalizing i with
  | zero => exact erases_pure ()
  | succ n ih => exact (hh i).bind fun _ => ih (i + 1)

/-- A run with its notes is a run without them. -/
theorem Erases.forget (h : Erases m p) (hm : m (s, l) = some (a, (t, l'))) : p s = some (a, t) := by
  have hp := h s l
  rw [hm] at hp
  exact hp.symm

/-- The turns of a loop note one after the other what each of them notes. -/
theorem loop_notes {h : ℕ → Noted σ κ Unit} {f : ℕ → List κ} (I : ℕ → σ → Prop) (n i : ℕ)
    (hh : ∀ j, i ≤ j → j < i + n → ∀ s t l l', I j s → h j (s, l) = some ((), (t, l')) →
      l' = l ++ f j ∧ I (j + 1) t)
    (hs : I i s) (hrun : loop h n i (s, l) = some ((), (t, l'))) :
    l' = l ++ (List.range' i n).flatMap f ∧ I (i + n) t := by
  induction n generalizing i s l with
  | zero =>
    obtain ⟨-, hlast⟩ := Prod.mk.inj (Option.some.inj hrun)
    obtain ⟨rfl, rfl⟩ := Prod.mk.inj hlast
    exact ⟨(List.append_nil l).symm, hs⟩
  | succ n ih =>
    obtain ⟨⟨⟩, ⟨u, l₁⟩, hfirst, hrest⟩ := bind_eq_some.mp hrun
    obtain ⟨rfl, hu⟩ := hh i (Nat.le_refl i) (by omega) s u l l₁ hs hfirst
    obtain ⟨rfl, ht⟩ := ih (i + 1) (fun j hi hj => hh j (by omega) (by omega)) hu hrest
    rw [List.range'_succ, List.flatMap_cons, List.append_assoc]
    refine ⟨rfl, ?_⟩
    rw [Nat.add_right_comm] at ht
    exact ht

end Onix.Prog
