import Onix.Sanity.SchedInv

/-! Which ready task `task_search` returns. Its test for a better one is not transitive: a
task that the result is worse than may have lost against a third one before. -/

namespace Onix.Sched

open Function Onix.Task

variable {k : Kernel} {current i j m n : ℕ} {t u x : TaskT}

/-- More remaining ticks and an older `jiffies`. -/
def Dominates (x u : TaskT) : Prop := u.ticks < x.ticks ∧ x.jiffies < u.jiffies

/-- A slot of the table with a ready task other than the current one. -/
def Slot (k : Kernel) (current i : ℕ) (t : TaskT) : Prop :=
  i < NR_TASKS ∧ Candidate k current .ready i t

/-- No ready task of the slots between `j` and `n`. -/
def Adjacent (k : Kernel) (current j n : ℕ) : Prop :=
  ∀ l z, j < l → l < n → ¬ Candidate k current .ready l z

theorem not_dominates_of_better (h : better u t = true) : ¬ Dominates u t := by
  unfold better at h
  intro ⟨hticks, hjiffies⟩
  simp only [Bool.or_eq_true, decide_eq_true_eq] at h
  omega

theorem not_better (h : ¬ better u x = true) : x.ticks ≤ u.ticks ∧ u.jiffies ≤ x.jiffies := by
  unfold better at h
  simp only [Bool.or_eq_true, decide_eq_true_eq, not_or] at h
  omega

/-- The best so far after the first `m` slots. -/
structure Best (k : Kernel) (current m n : ℕ) (u : TaskT) : Prop where
  lt : n < m
  candidate : Candidate k current .ready n u
  later : ∀ j x, n < j → j < m → Candidate k current .ready j x → ¬ better u x = true
  before : ∀ j x, j < n → Adjacent k current j n → Candidate k current .ready j x → ¬ Dominates x u

/-- One turn of the loop at a ready task. -/
theorem Best.step (h : Best k current m n u) (ht : Candidate k current .ready m t) :
    (better u t = true → Best k current (m + 1) m t) ∧
    (¬ better u t = true → Best k current (m + 1) n u) := by
  obtain ⟨hlt, hu, hlater, hbefore⟩ := h
  constructor
  · intro hb
    refine ⟨Nat.lt_succ_self m, ht, fun j x hj hj' => absurd hj' (by omega), fun j x hj hadj hx hdom => ?_⟩
    -- the best so far is not between `j` and `m`
    have hle : n ≤ j := by
      apply Nat.le_of_not_lt
      intro hn
      exact hadj n u hn hlt hu
    obtain rfl | hne := eq_or_ne n j
    · obtain rfl : u = x := Option.some.inj (hu.1.symm.trans hx.1)
      exact not_dominates_of_better hb hdom
    · obtain ⟨hticks, hjiffies⟩ := not_better (hlater j x (by omega) hj hx)
      refine not_dominates_of_better hb ?_
      unfold Dominates at hdom ⊢
      omega
  · intro hb
    refine ⟨by omega, hu, fun j x hj hj' hx => ?_, hbefore⟩
    obtain rfl | hne := eq_or_ne j m
    · obtain rfl : t = x := Option.some.inj (ht.1.symm.trans hx.1)
      exact hb
    · exact hlater j x hj (by omega) hx

/-- A slot without a ready task changes nothing. -/
theorem Best.skip (h : Best k current m n u) (hno : ∀ t, ¬ Candidate k current .ready m t) :
    Best k current (m + 1) n u where
  lt := Nat.lt_succ_of_lt h.lt
  candidate := h.candidate
  later j x hj hj' hx := by
    obtain rfl | hne := eq_or_ne j m
    · exact absurd hx (hno x)
    · exact h.later j x hj (by omega) hx
  before := h.before

theorem searchStep_none (hno : ∀ t, ¬ Candidate k current .ready m t) (best : Option (ℕ × TaskT)) :
    searchStep k current .ready best m = best := by
  obtain ⟨t, ht, -⟩ | ⟨heq, -⟩ := searchStep_cases k current .ready best m
  · exact absurd ht (hno t)
  · exact heq

theorem searchStep_some (ht : Candidate k current .ready m t) :
    searchStep k current .ready none m = some (m, t) ∧
      searchStep k current .ready (some (n, u)) m = if better u t then some (m, t) else some (n, u) := by
  obtain ⟨htable, hstate, hne⟩ := ht
  unfold searchStep
  rw [htable]
  dsimp only
  have hstate' : ¬ t.state ≠ .ready := not_not.mpr hstate
  constructor
  · rw [if_neg hstate', if_neg hne]
  · rw [if_neg hstate', if_neg hne]

/-- The loop of `task_search` over the first `m` slots. -/
theorem search_best (k : Kernel) (current m : ℕ) :
    ((List.range m).foldl (searchStep k current .ready) none = none ∧
      ∀ i t, i < m → ¬ Candidate k current .ready i t) ∨
    ∃ n u, (List.range m).foldl (searchStep k current .ready) none = some (n, u) ∧
      Best k current m n u := by
  induction m with
  | zero => exact .inl ⟨rfl, fun i t hi => absurd hi (Nat.not_lt_zero i)⟩
  | succ m ih =>
    rw [List.range_succ, List.foldl_append, List.foldl_cons, List.foldl_nil]
    by_cases hm : ∃ t, Candidate k current .ready m t
    · obtain ⟨t, ht⟩ := hm
      right
      obtain ⟨hnone, hno⟩ | ⟨n, u, hsome, hbest⟩ := ih
      · refine ⟨m, t, ?_, Nat.lt_succ_self m, ht, fun j x hj hj' => absurd hj' (by omega),
          fun j x hj _ hx => absurd hx (hno j x hj)⟩
        rw [hnone]
        exact (searchStep_some (n := 0) (u := t) ht).1
      · obtain ⟨hreplace, hkeep⟩ := hbest.step ht
        rw [hsome, (searchStep_some ht).2]
        split_ifs with hb
        · exact ⟨m, t, rfl, hreplace hb⟩
        · exact ⟨n, u, rfl, hkeep hb⟩
    · have hno := not_exists.mp hm
      rw [searchStep_none hno]
      obtain ⟨hnone, hall⟩ | ⟨n, u, hsome, hbest⟩ := ih
      · refine .inl ⟨hnone, fun i t hi => ?_⟩
        obtain rfl | hne := eq_or_ne i m
        · exact hno t
        · exact hall i t (by omega)
      · exact .inr ⟨n, u, hsome, hbest.skip hno⟩

/-- `task_search(TASK_READY)` returns a ready task; one that dominates it stands before it in
the table, and another ready task between the two. Without any the idle task is returned. -/
theorem taskSearch_undominated (k : Kernel) (current : ℕ) :
    ((∃ i t, Slot k current i t) → ∃ n u, taskSearch k current .ready = some n ∧ Slot k current n u ∧
      ∀ j x, Slot k current j x → Dominates x u → ∃ l z, j < l ∧ l < n ∧ Slot k current l z) ∧
    ((∀ i t, ¬ Slot k current i t) → taskSearch k current .ready = some 0) := by
  unfold taskSearch
  obtain ⟨hnone, hno⟩ | ⟨n, u, hsome, hbest⟩ := search_best k current NR_TASKS
  · rw [hnone]
    refine ⟨fun ⟨i, t, hlt, ht⟩ => absurd ht (hno i t hlt), fun _ => rfl⟩
  · rw [hsome]
    refine ⟨fun _ => ⟨n, u, rfl, ⟨hbest.lt, hbest.candidate⟩, fun j x hx hdom => ?_⟩,
      fun hno => absurd ⟨hbest.lt, hbest.candidate⟩ (hno n u)⟩
    obtain hj | rfl | hj := Nat.lt_trichotomy j n
    · by_contra hbetween
      push Not at hbetween
      refine hbest.before j x hj (fun l z hjl hln hz => ?_) hx.2 hdom
      exact hbetween l z hjl hln ⟨Nat.lt_trans hln hbest.lt, hz⟩
    · obtain rfl : u = x := Option.some.inj (hbest.candidate.1.symm.trans hx.2.1)
      exact absurd hdom.1 (lt_irrefl _)
    · obtain ⟨hticks, -⟩ := not_better (hbest.later j x hj hx.1 hx.2)
      exact absurd hdom.1 (not_lt.mpr hticks)

/-- A ready task. -/
def readyTask (ticks : ℤ) (jiffies : ℕ) : TaskT :=
  ⟨false, .ready, 5, ticks, jiffies, 0, 0, 0, 0⟩

/-- Task 3 is older than task 2, and task 4 has more ticks than task 3. -/
def threeReady : Kernel where
  table i := [none, none, some (readyTask 10 5), some (readyTask 1 3), some (readyTask 5 9)].getD i none
  lists _ := []
  cpu := some 1

theorem taskSearch_undominated_threeReady : ∃ n u, taskSearch threeReady 1 .ready = some n ∧
    Slot threeReady 1 n u ∧
    ∀ j x, Slot threeReady 1 j x → Dominates x u → ∃ l z, j < l ∧ l < n ∧ Slot threeReady 1 l z :=
  (taskSearch_undominated threeReady 1).1 ⟨2, readyTask 10 5, by decide, rfl, rfl, by decide⟩

/-- Task 4 is returned, though task 2 has more ticks left and has waited longer. -/
theorem taskSearch_dominated : ¬ ∀ k current, (∃ i t, Slot k current i t) →
    ∃ n u, taskSearch k current .ready = some n ∧ Slot k current n u ∧
      ∀ j x, Slot k current j x → ¬ Dominates x u := by
  intro h
  have h2 : Slot threeReady 1 2 (readyTask 10 5) := ⟨by decide, rfl, rfl, by decide⟩
  obtain ⟨n, u, hn, hu, hall⟩ := h threeReady 1 ⟨2, _, h2⟩
  have hfour : taskSearch threeReady 1 .ready = some 4 := by decide
  obtain rfl : n = 4 := Option.some.inj (hn.symm.trans hfour)
  obtain rfl : readyTask 5 9 = u := Option.some.inj hu.2.1
  exact hall 2 _ h2 ⟨by decide, by decide⟩

end Onix.Sched
