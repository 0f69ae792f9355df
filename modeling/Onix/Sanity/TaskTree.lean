import Onix.Spec.Task

/-! The tree of tasks: what each call does to the table, said once, and that parents stay
alive and every task descends from the idle task. -/

namespace Onix.Task

open Function Outcome

variable {k k' : Kernel} {i j : ℕ} {t t' c : TaskT} {pid status : ℤ}

/-- Following `ppid` from slot `i` reaches the idle task. -/
inductive Rooted (k : Kernel) : ℕ → Prop where
  | idle : Rooted k 0
  | child {i : ℕ} {t : TaskT} : k.table i = some t → Rooted k t.ppid → Rooted k i

/-- The table: pids are slots, parents are alive, and the running task is the one on the
processor. -/
structure Tree (k : Kernel) : Prop where
  pid : ∀ i t, k.table i = some t → t.pid = i
  bound : ∀ i t, k.table i = some t → i < NR_TASKS
  idle : ∃ t, k.table 0 = some t ∧ (t.state = .ready ∨ t.state = .running) ∧ t.ppid = 0
  first : ∃ t, k.table 1 = some t ∧ t.ppid = 0
  parent : ∀ i t, k.table i = some t → i ≠ 0 → ∃ p, k.table t.ppid = some p ∧ p.state ≠ .died
  rooted : ∀ i t, k.table i = some t → Rooted k i
  cpu : ∀ i t, k.table i = some t → (t.state = .running ↔ k.cpu = some i)

/-- No process is its own parent. -/
theorem Rooted.ppid_ne (h : Rooted k i) (hi : i ≠ 0) (ht : k.table i = some t) : t.ppid ≠ i := by
  induction h generalizing t with
  | idle => exact absurd rfl hi
  | @child i t₀ ht₀ _ ih =>
    obtain rfl : t₀ = t := by simpa [ht₀] using ht
    intro he
    rw [he] at ih
    exact ih hi ht₀ he

/-- Every task keeps its place in the tree and is as dead as before. -/
theorem Tree.congr (hi : Tree k)
    (new : ∀ j u', k'.table j = some u' → ∃ u, k.table j = some u ∧ u'.pid = u.pid ∧
      u'.ppid = u.ppid)
    (old : ∀ j u, k.table j = some u → ∃ u', k'.table j = some u' ∧ u'.ppid = u.ppid ∧
      (u.state ≠ .died → u'.state ≠ .died))
    (hidle : ∀ t, k'.table 0 = some t → t.state = .ready ∨ t.state = .running)
    (hcpu : ∀ j u, k'.table j = some u → (u.state = .running ↔ k'.cpu = some j)) : Tree k' := by
  have lift : ∀ m, Rooted k m → Rooted k' m := by
    intro m hm
    induction hm with
    | idle => exact .idle
    | @child m v hv _ ih =>
      obtain ⟨v', hv', hpp, -⟩ := old m v hv
      exact .child hv' (hpp ▸ ih)
  refine ⟨fun j u' hu' => ?_, fun j u' hu' => ?_, ?_, ?_, fun j u' hu' h0 => ?_, fun j u' hu' => ?_,
    hcpu⟩
  · obtain ⟨u, hu, hpid, -⟩ := new j u' hu'
    rw [hpid, hi.pid j u hu]
  · obtain ⟨u, hu, -⟩ := new j u' hu'
    exact hi.bound j u hu
  · obtain ⟨u, hu, -, hp⟩ := hi.idle
    obtain ⟨u', hu', hpp, -⟩ := old 0 u hu
    exact ⟨u', hu', hidle u' hu', hpp.trans hp⟩
  · obtain ⟨u, hu, hp⟩ := hi.first
    obtain ⟨u', hu', hpp, -⟩ := old 1 u hu
    exact ⟨u', hu', hpp.trans hp⟩
  · obtain ⟨u, hu, -, hpp⟩ := new j u' hu'
    obtain ⟨p, hp, hd⟩ := hi.parent j u hu h0
    obtain ⟨p', hp', -, hd'⟩ := old _ p hp
    exact ⟨p', by rwa [hpp], hd' hd⟩
  · obtain ⟨u, hu, -⟩ := new j u' hu'
    exact lift j (hi.rooted j u hu)

/-- The processor follows the task that changes. -/
theorem Tree.cpu_change (hi : Tree k) (htable : k'.table = update k.table i (some t'))
    (hother : ∀ j, j ≠ i → (k'.cpu = some j ↔ k.cpu = some j))
    (hself : t'.state = .running ↔ k'.cpu = some i) :
    ∀ j u, k'.table j = some u → (u.state = .running ↔ k'.cpu = some j) := by
  intro j u hu
  rw [htable] at hu
  obtain rfl | hj := eq_or_ne j i
  · obtain rfl : t' = u := by simpa using hu
    exact hself
  · rw [hother j hj]
    exact hi.cpu j u (by simpa [hj] using hu)

variable (t') in
/-- A task changes its state, staying alive, and nothing else in the table moves. -/
theorem Tree.change (hi : Tree k) (ht : k.table i = some t)
    (hsame : t'.pid = t.pid ∧ t'.ppid = t.ppid) (halive : t'.state ≠ .died)
    (hidle : i = 0 → t'.state = .ready ∨ t'.state = .running)
    (htable : k'.table = update k.table i (some t'))
    (hcpu : ∀ j u, k'.table j = some u → (u.state = .running ↔ k'.cpu = some j)) : Tree k' := by
  refine hi.congr (fun j u hu => ?_) (fun j u hu => ?_) (fun u hu => ?_) hcpu
  · obtain rfl | hj := eq_or_ne j i
    · obtain rfl : t' = u := by simpa [htable] using hu
      exact ⟨t, ht, hsame⟩
    · exact ⟨u, by simpa [htable, hj] using hu, rfl, rfl⟩
  · obtain rfl | hj := eq_or_ne j i
    · obtain rfl : t = u := by simpa [ht] using hu
      exact ⟨t', by simp [htable], hsame.2, fun _ => halive⟩
    · exact ⟨u, by simpa [htable, hj] using hu, rfl, id⟩
  · obtain rfl | h0 := eq_or_ne 0 i
    · obtain rfl : t' = u := by simpa [htable] using hu
      exact hidle rfl
    · obtain ⟨v, hv, hs, -⟩ := hi.idle
      obtain rfl : v = u := by simpa [htable, h0, hv] using hu
      exact hs

/-- `get_free_task` finds an empty slot of the table. -/
theorem getFreeTask_spec (h : getFreeTask k = some i) : i < NR_TASKS ∧ k.table i = none := by
  unfold getFreeTask at h
  have h1 := List.mem_of_find?_eq_some h
  have h2 := List.find?_some h
  exact ⟨by simpa using h1, by simpa using h2⟩

theorem taskFork_spec (h : taskFork k t = .next (k', j)) :
    t.state = .running ∧ j < NR_TASKS ∧ k.table j = none ∧ k' = k.setTask j (forkChild t j) := by
  unfold taskFork at h
  obtain ⟨hb, h⟩ := assert_eq_next.mp h
  simp only [Bool.and_eq_true, Bool.not_eq_true', beq_iff_eq] at hb
  cases hf : getFreeTask k with
  | none => simp [hf] at h
  | some m =>
    obtain ⟨h1, h2⟩ := getFreeTask_spec hf
    simp only [hf, Outcome.next.injEq, Prod.mk.injEq] at h
    obtain ⟨rfl, rfl⟩ := h
    exact ⟨hb.2, h1, h2, rfl⟩

/-- The new task is the only one in the table that was not there. -/
theorem fork_table (hnone : k.table j = none) (m : ℕ) (u : TaskT) :
    (k.setTask j (forkChild t j)).table m = some u ↔
      (m = j ∧ u = forkChild t j) ∨ k.table m = some u := by
  obtain rfl | hm := eq_or_ne m j
  · simp [Kernel.setTask, hnone, eq_comm]
  · simp [Kernel.setTask, hm]

theorem Tree.fork (hi : Tree k) (ht : k.table i = some t) (h : taskFork k t = .next (k', j)) :
    Tree k' := by
  obtain ⟨hrun, hj, hnone, rfl⟩ := taskFork_spec h
  have hij : i ≠ j := by
    rintro rfl
    simp [hnone] at ht
  have old : ∀ m u, k.table m = some u → (k.setTask j (forkChild t j)).table m = some u :=
    fun m u hu => (fork_table hnone m u).mpr (.inr hu)
  have new := fun m u => (fork_table (t := t) hnone m u).mp
  have lift : ∀ m, Rooted k m → Rooted (k.setTask j (forkChild t j)) m := by
    intro m hm
    induction hm with
    | idle => exact .idle
    | @child m v hv _ ih => exact .child (old m v hv) ih
  refine ⟨fun m u hu => ?_, fun m u hu => ?_, ?_, ?_, fun m u hu h0 => ?_, fun m u hu => ?_,
    fun m u hu => ?_⟩
  · rcases new m u hu with ⟨rfl, rfl⟩ | hu
    · rfl
    · exact hi.pid m u hu
  · rcases new m u hu with ⟨rfl, rfl⟩ | hu
    · exact hj
    · exact hi.bound m u hu
  · obtain ⟨u, hu, hs⟩ := hi.idle
    exact ⟨u, old 0 u hu, hs⟩
  · obtain ⟨u, hu, hp⟩ := hi.first
    exact ⟨u, old 1 u hu, hp⟩
  · rcases new m u hu with ⟨rfl, rfl⟩ | hu
    · refine ⟨t, ?_, by simp [hrun]⟩
      rw [show (forkChild t m).ppid = i from hi.pid i t ht]
      exact old i t ht
    · obtain ⟨p, hp, hd⟩ := hi.parent m u hu h0
      exact ⟨p, old _ p hp, hd⟩
  · rcases new m u hu with ⟨rfl, rfl⟩ | hu'
    · refine .child hu ?_
      rw [show (forkChild t m).ppid = i from hi.pid i t ht]
      exact lift i (hi.rooted i t ht)
    · exact lift m (hi.rooted m u hu')
  · rcases new m u hu with ⟨rfl, rfl⟩ | hu
    · have hc : k.cpu = some i := (hi.cpu i t ht).mp hrun
      simpa [forkChild, Kernel.setTask, hc] using hij
    · exact hi.cpu m u hu

/-- What the first part of `task_exit` makes of the task `u` in slot `j`: the
exiting task dies, its children move to its parent. -/
def buried (i : ℕ) (t : TaskT) (status : ℤ) (j : ℕ) (u : TaskT) : TaskT :=
  let u := if j = i then { u with state := .died, status := status } else u
  if 2 ≤ j ∧ u.ppid = t.pid then { u with ppid := t.ppid } else u

/-- What `task_exit` makes of the task `u` in slot `j`: a parent that waits for
the exiting task is made ready as well. -/
def exitEffect (i : ℕ) (t : TaskT) (status : ℤ) (j : ℕ) (u : TaskT) : TaskT :=
  let u := buried i t status j u
  if j = t.ppid ∧ u.state = .waiting ∧ (u.waitpid = -1 ∨ u.waitpid = t.pid) then
    { u with node := false, state := .ready }
  else u

variable (status) in
theorem table_buried (hi : Tree k) (ht : k.table i = some t) (j : ℕ) :
    (reparent (k.setTask i { t with state := .died, status := status }) t.pid t.ppid).table j =
      (k.table j).map (buried i t status j) := by
  simp only [reparent, Kernel.setTask]
  by_cases hj : j = i
  · subst hj
    have := hi.bound j t ht
    by_cases h2 : 2 ≤ j <;> simp [ht, h2, this, buried]
  · cases hu : k.table j with
    | none => simp [hj, hu]
    | some u =>
      have := hi.bound j u hu
      by_cases h2 : 2 ≤ j <;> simp [hj, hu, h2, this, buried]

theorem taskExit_spec (hi : Tree k) (ht : k.table i = some t)
    (h : taskExit k i t status = .next k') :
    t.state = .running ∧ k'.cpu = none ∧
      ∀ j, k'.table j = (k.table j).map (exitEffect i t status j) := by
  unfold taskExit at h
  obtain ⟨hb, h⟩ := assert_eq_next.mp h
  simp only [Bool.and_eq_true, Bool.not_eq_true', beq_iff_eq] at hb
  refine ⟨hb.2, ?_⟩
  have table₁ := table_buried status hi ht
  dsimp only at h
  generalize reparent (k.setTask i { t with state := .died, status := status }) t.pid t.ppid = k₁
    at h table₁
  have other : ∀ j, j ≠ t.ppid → k₁.table j = (k.table j).map (exitEffect i t status j) := by
    intro j hj
    rw [table₁ j]
    congr 1
    funext u
    simp [exitEffect, hj]
  cases hp : k₁.table t.ppid with
  | none => simp [hp] at h
  | some p =>
    simp only [hp] at h
    have hp' := hp
    rw [table₁] at hp'
    obtain ⟨u, hu, rfl⟩ := Option.map_eq_some_iff.mp hp'
    split_ifs at h with hw
    · obtain ⟨-, h⟩ := assert_eq_next.mp h
      obtain rfl := Outcome.next.inj h
      refine ⟨rfl, fun j => ?_⟩
      by_cases hj : j = t.ppid
      · subst hj
        simp [Kernel.setTask, hu, exitEffect, hw]
      · simpa [Kernel.setTask, hj] using other j hj
    · obtain rfl := Outcome.next.inj h
      refine ⟨rfl, fun j => ?_⟩
      by_cases hj : j = t.ppid
      · subst hj
        simpa [hu, exitEffect, hw] using hp
      · exact other j hj

variable (i t status) in
/-- The fields of a task after an exit. -/
theorem exitEffect_fields (j : ℕ) (u : TaskT) :
    (exitEffect i t status j u).pid = u.pid ∧
    (exitEffect i t status j u).waitpid = u.waitpid ∧
    (exitEffect i t status j u).ppid = (if 2 ≤ j ∧ u.ppid = t.pid then t.ppid else u.ppid) ∧
    (j ≠ i → (exitEffect i t status j u).status = u.status) := by
  unfold exitEffect buried
  dsimp only
  split_ifs <;> simp_all

variable (i t status) in
theorem exitEffect_state (j : ℕ) (u : TaskT) :
    (exitEffect i t status j u).state =
      if j = i then .died
      else if j = t.ppid ∧ u.state = .waiting ∧ (u.waitpid = -1 ∨ u.waitpid = t.pid) then .ready
      else u.state := by
  unfold exitEffect buried
  dsimp only
  split_ifs <;> simp_all

/-- The slots below 2 are nobody's children but the idle task's. -/
theorem Tree.low (hi : Tree k) (h0 : i ≠ 0) (ht : k.table j = some t) (hp : t.ppid = i) : 2 ≤ j := by
  by_contra hj
  obtain ⟨v, hv, hv0⟩ := hi.first
  obtain ⟨w, hw, -, hw0⟩ := hi.idle
  obtain rfl | rfl : j = 0 ∨ j = 1 := by omega
  · obtain rfl : t = w := by simpa [ht] using hw
    exact h0 (hp.symm.trans hw0)
  · obtain rfl : t = v := by simpa [ht] using hv
    exact h0 (hp.symm.trans hv0)

variable (status) in
/-- An exit gives the children of the exiting task to its parent. -/
theorem Tree.exit_ppid (hi : Tree k) (ht : k.table i = some t) (h0 : i ≠ 0) {u : TaskT}
    (hu : k.table j = some u) :
    (exitEffect i t status j u).ppid = if u.ppid = i then t.ppid else u.ppid := by
  rw [(exitEffect_fields i t status j u).2.2.1, hi.pid i t ht]
  by_cases hpp : u.ppid = i
  · rw [if_pos ⟨hi.low h0 hu hpp, hpp⟩, if_pos hpp]
  · rw [if_neg (fun h => hpp h.2), if_neg hpp]

variable (i t status) in
theorem exit_alive (j : ℕ) (u : TaskT) (hj : j ≠ i) (hd : u.state ≠ .died) :
    (exitEffect i t status j u).state ≠ .died := by
  rw [exitEffect_state, if_neg hj]
  split_ifs
  · simp
  · exact hd

theorem Tree.exit (hi : Tree k) (ht : k.table i = some t) (h0 : i ≠ 0)
    (h : taskExit k i t status = .next k') : Tree k' := by
  obtain ⟨hrun, hcpu, htable⟩ := taskExit_spec hi ht h
  have hne := (hi.rooted i t ht).ppid_ne h0 ht
  obtain ⟨p, hp, hpd⟩ := hi.parent i t ht h0
  have fields := exitEffect_fields i t status
  have state := exitEffect_state i t status
  have alive := exit_alive i t status
  have ppid := fun j u => hi.exit_ppid status ht h0 (j := j) (u := u)
  have new : ∀ j u', k'.table j = some u' →
      ∃ u, k.table j = some u ∧ u' = exitEffect i t status j u := by
    intro j u' hu'
    rw [htable] at hu'
    obtain ⟨u, hu, rfl⟩ := Option.map_eq_some_iff.mp hu'
    exact ⟨u, hu, rfl⟩
  have old : ∀ j u, k.table j = some u → k'.table j = some (exitEffect i t status j u) := by
    intro j u hu
    rw [htable, hu, Option.map_some]
  refine ⟨fun j u' hu' => ?_, fun j u' hu' => ?_, ?_, ?_, fun j u' hu' hj => ?_, fun j u' hu' => ?_,
    fun j u' hu' => ?_⟩
  · obtain ⟨u, hu, rfl⟩ := new j u' hu'
    rw [(fields j u).1, hi.pid j u hu]
  · obtain ⟨u, hu, rfl⟩ := new j u' hu'
    exact hi.bound j u hu
  · obtain ⟨u, hu, hs, hu0⟩ := hi.idle
    refine ⟨_, old 0 u hu, ?_, by rw [ppid 0 u hu, hu0, if_neg (Ne.symm h0)]⟩
    rw [state, if_neg (Ne.symm h0)]
    split_ifs
    · exact Or.inl rfl
    · exact hs
  · obtain ⟨u, hu, hu0⟩ := hi.first
    refine ⟨_, old 1 u hu, ?_⟩
    rw [(fields 1 u).2.2.1, if_neg (by omega), hu0]
  · obtain ⟨u, hu, rfl⟩ := new j u' hu'
    rw [ppid j u hu]
    split_ifs with hpp
    · exact ⟨_, old _ p hp, alive _ p hne hpd⟩
    · obtain ⟨q, hq, hqd⟩ := hi.parent j u hu hj
      exact ⟨_, old _ q hq, alive _ q hpp hqd⟩
  · obtain ⟨u, hu, -⟩ := new j u' hu'
    -- along the old chain, a step through the exiting task becomes two
    have lift : ∀ m, Rooted k m → Rooted k' m := by
      intro m hm
      induction hm with
      | idle => exact .idle
      | @child m v hv _ ih =>
        refine .child (old m v hv) ?_
        rw [ppid m v hv]
        split_ifs with hpp
        · rw [hpp] at ih
          cases ih with
          | idle => exact absurd rfl h0
          | child hi' hr =>
            have := (old i t ht).symm.trans hi'
            rw [← Option.some.inj this, ppid i t ht, if_neg hne] at hr
            exact hr
        · exact ih
    exact lift j (hi.rooted j u hu)
  · obtain ⟨u, hu, rfl⟩ := new j u' hu'
    have hci : k.cpu = some i := (hi.cpu i t ht).mp hrun
    rw [state, hcpu]
    by_cases hj : j = i
    · simp [hj]
    · have : u.state ≠ .running := fun hr => by
        have := (hi.cpu j u hu).mp hr
        rw [hci] at this
        exact hj (by simpa using this.symm)
      rw [if_neg hj]
      split_ifs <;> simp [this]

/-- `task_waitpid` takes an exited child off the table. -/
theorem Tree.reap (hi : Tree k) (hc : k.table j = some c) (hd : c.state = .died) (hj : 2 ≤ j) :
    Tree { k with table := update k.table j none } := by
  have old : ∀ m u, m ≠ j → k.table m = some u → update k.table j none m = some u := by
    intro m u hm hu
    simpa [hm] using hu
  have new : ∀ m u, update k.table j none m = some u → m ≠ j ∧ k.table m = some u := by
    intro m u hu
    have hm : m ≠ j := by
      rintro rfl
      simp at hu
    exact ⟨hm, by simpa [hm] using hu⟩
  have alive : ∀ m u, k.table m = some u → u.state ≠ .died → m ≠ j := by
    rintro m u hu hs rfl
    obtain rfl : c = u := by simpa [hc] using hu
    exact hs hd
  refine ⟨fun m u hu => hi.pid m u (new m u hu).2, fun m u hu => hi.bound m u (new m u hu).2,
    ?_, ?_, fun m u hu h0 => ?_, fun m u hu => ?_, fun m u hu => hi.cpu m u (new m u hu).2⟩
  · obtain ⟨u, hu, hs⟩ := hi.idle
    exact ⟨u, old 0 u (by omega) hu, hs⟩
  · obtain ⟨u, hu, hs⟩ := hi.first
    exact ⟨u, old 1 u (by omega) hu, hs⟩
  · obtain ⟨p, hp, hs⟩ := hi.parent m u (new m u hu).2 h0
    exact ⟨p, old _ p (alive _ p hp hs) hp, hs⟩
  · have lift : ∀ m, Rooted k m → m ≠ j → Rooted { k with table := update k.table j none } m := by
      intro m hm
      induction hm with
      | idle => exact fun _ => .idle
      | @child m v hv _ ih =>
        intro hmj
        by_cases hm0 : m = 0
        · exact hm0 ▸ .idle
        obtain ⟨p, hp, hs⟩ := hi.parent m v hv hm0
        exact .child (old m v hmj hv) (ih (alive _ p hp hs))
    obtain ⟨hmj, hu'⟩ := new m u hu
    exact lift m (hi.rooted m u hu') hmj

theorem taskBlock_spec {blist : ListId} {state : TaskState}
    (h : taskBlock k i t blist state = .next k') :
    k'.table = update k.table i (some { t with node := true, state := state }) ∧
      k'.cpu = if k.cpu = some i then none else k.cpu := by
  unfold taskBlock at h
  obtain ⟨-, h⟩ := assert_eq_next.mp h
  obtain ⟨-, h⟩ := assert_eq_next.mp h
  obtain ⟨-, h⟩ := assert_eq_next.mp h
  obtain rfl := Outcome.next.inj h
  by_cases hc : k.cpu = some i <;> simp [Kernel.setTask, hc]

theorem taskUnblock_spec (h : taskUnblock k i t = .next k') :
    k'.table = update k.table i (some { t with node := false, state := .ready }) ∧
      k'.cpu = k.cpu := by
  unfold taskUnblock at h
  obtain ⟨-, h⟩ := assert_eq_next.mp h
  obtain rfl := Outcome.next.inj h
  exact ⟨rfl, rfl⟩

end Onix.Task
