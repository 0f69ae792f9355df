import Onix.Sanity.TaskTree

/-! The invariant of the task table: the tree of tasks, and whoever waits has a live child
to wait for. -/

namespace Onix.Task

open Function Outcome

variable {k k' : Kernel} {i j : ℕ} {t t' c : TaskT} {pid status : ℤ}

/-- Process `me` has a child that `waitpid(pid)` waits for and that has not exited. -/
def HasChild (k : Kernel) (me : ℕ) (pid : ℤ) : Prop :=
  ∃ j c, k.table j = some c ∧ c.ppid = me ∧ (pid = -1 ∨ pid = c.pid) ∧ c.state ≠ .died

structure KInv (k : Kernel) : Prop where
  pid : ∀ i t, k.table i = some t → t.pid = i
  bound : ∀ i t, k.table i = some t → i < NR_TASKS
  idle : ∃ t, k.table 0 = some t ∧ (t.state = .ready ∨ t.state = .running) ∧ t.ppid = 0
  first : ∃ t, k.table 1 = some t ∧ t.ppid = 0
  parent : ∀ i t, k.table i = some t → i ≠ 0 → ∃ p, k.table t.ppid = some p ∧ p.state ≠ .died
  rooted : ∀ i t, k.table i = some t → Rooted k i
  cpu : ∀ i t, k.table i = some t → (t.state = .running ↔ k.cpu = some i)
  waiting : ∀ i t, k.table i = some t → t.state = .waiting → HasChild k i t.waitpid

theorem KInv.tree (hi : KInv k) : Tree k :=
  ⟨hi.pid, hi.bound, hi.idle, hi.first, hi.parent, hi.rooted, hi.cpu⟩

theorem Tree.kinv (hi : Tree k)
    (hw : ∀ i t, k.table i = some t → t.state = .waiting → HasChild k i t.waitpid) : KInv k :=
  ⟨hi.pid, hi.bound, hi.idle, hi.first, hi.parent, hi.rooted, hi.cpu, hw⟩

/-- The tables that `task_init` leaves. -/
theorem kinv_start (hcreated : ∀ i t, k.table i = some t → i < NR_TASKS ∧ Created i t)
    (hidle : ∃ t, k.table 0 = some t) (hfirst : ∃ t, k.table 1 = some t) (hcpu : k.cpu = none) :
    KInv k := by
  obtain ⟨t₀, ht₀⟩ := hidle
  obtain ⟨t₁, ht₁⟩ := hfirst
  have hc₀ := (hcreated 0 t₀ ht₀).2
  have hc₁ := (hcreated 1 t₁ ht₁).2
  refine ⟨fun i t ht => (hcreated i t ht).2.pid, fun i t ht => (hcreated i t ht).1,
    ⟨t₀, ht₀, Or.inl hc₀.state, hc₀.ppid⟩, ⟨t₁, ht₁, hc₁.ppid⟩, fun i t ht _ => ?_,
    fun i t ht => ?_, fun i t ht => ?_, fun i t ht hw => ?_⟩
  · rw [(hcreated i t ht).2.ppid]
    exact ⟨t₀, ht₀, by simp [hc₀.state]⟩
  · refine .child ht ?_
    rw [(hcreated i t ht).2.ppid]
    exact .idle
  · simp [(hcreated i t ht).2.state, hcpu]
  · simp [(hcreated i t ht).2.state] at hw

variable (t') in
/-- A task changes its state, staying alive, and nothing else in the table moves. -/
theorem KInv.change (hi : KInv k) (ht : k.table i = some t)
    (hsame : t'.pid = t.pid ∧ t'.ppid = t.ppid) (halive : t'.state ≠ .died)
    (hidle : i = 0 → t'.state = .ready ∨ t'.state = .running)
    (hwait : t'.state = .waiting → HasChild k i t'.waitpid)
    (htable : k'.table = update k.table i (some t'))
    (hcpu : ∀ j u, k'.table j = some u → (u.state = .running ↔ k'.cpu = some j)) :
    KInv k' := by
  obtain ⟨hpid, hppid⟩ := hsame
  have get : ∀ j u, k'.table j = some u → (j = i ∧ u = t') ∨ (j ≠ i ∧ k.table j = some u) := by
    intro j u hu
    rw [htable] at hu
    by_cases hj : j = i
    · subst hj
      exact Or.inl ⟨rfl, by simpa using hu.symm⟩
    · exact Or.inr ⟨hj, by simpa [hj] using hu⟩
  have self : k'.table i = some t' := by simp [htable]
  have put : ∀ j u, k.table j = some u → ∃ u', k'.table j = some u' ∧ u'.pid = u.pid ∧
      u'.ppid = u.ppid ∧ (u.state ≠ .died → u'.state ≠ .died) := by
    intro j u hu
    by_cases hj : j = i
    · subst hj
      obtain rfl : t = u := by simpa [ht] using hu
      exact ⟨t', self, hpid, hppid, fun _ => halive⟩
    · exact ⟨u, by simpa [htable, hj] using hu, rfl, rfl, id⟩
  have child : ∀ me w, HasChild k me w → HasChild k' me w := by
    rintro me w ⟨j, c, hc, hp, hw, hd⟩
    obtain ⟨c', hc', hcp, hcpp, hcd⟩ := put j c hc
    exact ⟨j, c', hc', hcpp.trans hp, by rwa [hcp], hcd hd⟩
  refine (hi.tree.change t' ht ⟨hpid, hppid⟩ halive hidle htable hcpu).kinv fun j u hu hw => ?_
  rcases get j u hu with ⟨rfl, rfl⟩ | ⟨-, hu⟩
  · exact child _ _ (hwait hw)
  · exact child _ _ (hi.waiting j u hu hw)

theorem KInv.fork (hi : KInv k) (ht : k.table i = some t) (h : taskFork k t = .next (k', j)) :
    KInv k' := by
  have htree := hi.tree.fork ht h
  obtain ⟨-, -, hnone, rfl⟩ := taskFork_spec h
  refine htree.kinv fun m u hu hw => ?_
  rcases (fork_table hnone m u).mp hu with ⟨rfl, rfl⟩ | hu
  · simp [forkChild] at hw
  · obtain ⟨n, c, hc, hp, hw', hd⟩ := hi.waiting m u hu hw
    exact ⟨n, c, (fork_table hnone n c).mpr (.inr hc), hp, hw', hd⟩

theorem KInv.exit (hi : KInv k) (ht : k.table i = some t) (h0 : i ≠ 0)
    (h : taskExit k i t status = .next k') : KInv k' := by
  obtain ⟨-, -, htable⟩ := taskExit_spec hi.tree ht h
  refine (hi.tree.exit ht h0 h).kinv fun j u' hu' hw => ?_
  rw [htable] at hu'
  obtain ⟨u, hu, rfl⟩ := Option.map_eq_some_iff.mp hu'
  rw [exitEffect_state] at hw
  split_ifs at hw with hj hm
  obtain ⟨n, c, hc, hcp, hcw, hcd⟩ := hi.waiting j u hu hw
  -- the child it waits for is not the one that exits: that one would have woken it
  have hn : n ≠ i := by
    rintro rfl
    obtain rfl : t = c := by simpa [ht] using hc
    exact hm ⟨hcp.symm, hw, hcw⟩
  refine ⟨n, _, by rw [htable, hc, Option.map_some], ?_, ?_, exit_alive i t status n c hn hcd⟩
  · rw [hi.tree.exit_ppid status ht h0 hc, if_neg (by rw [hcp]; exact hj), hcp]
  · rw [(exitEffect_fields i t status n c).1, (exitEffect_fields i t status j u).2.1]
    exact hcw

theorem KInv.reap (hi : KInv k) (hc : k.table j = some c) (hd : c.state = .died) (hj : 2 ≤ j) :
    KInv { k with table := update k.table j none } := by
  refine (hi.tree.reap hc hd hj).kinv fun m u hu hw => ?_
  have hm : m ≠ j := by
    rintro rfl
    simp at hu
  have hu : k.table m = some u := by simpa [hm] using hu
  obtain ⟨n, d, hdn, hp, hw', hs⟩ := hi.waiting m u hu hw
  have hn : n ≠ j := by
    rintro rfl
    obtain rfl : c = d := by simpa [hc] using hdn
    exact hs hd
  exact ⟨n, d, by simpa [hn] using hdn, hp, hw', hs⟩

/-- The scan of `task_waitpid` over the slots `is`. -/
theorem waitScan_spec (me : ℕ) (pid : ℤ) (is : List ℕ) (b : Bool) :
    (∀ i c, (waitScan k me pid is b).1 = some (i, c) →
      i ∈ is ∧ k.table i = some c ∧ c.ppid = me ∧ c.state = .died) ∧
    ((waitScan k me pid is b).1 = none → (waitScan k me pid is b).2 = true →
      b = true ∨ HasChild k me pid) := by
  fun_induction waitScan k me pid is b with
  | case1 b => exact ⟨by simp, fun _ h => Or.inl h⟩
  | case2 b j is hj ih | case3 b j is c hj hp ih | case4 b j is c hj hp hw ih =>
    exact ⟨fun i c h => ⟨List.mem_cons_of_mem _ (ih.1 i c h).1, (ih.1 i c h).2⟩, ih.2⟩
  | case5 b j is c hj hp hw hd =>
    refine ⟨fun i c' h => ?_, by simp⟩
    simp only [Option.some.injEq, Prod.mk.injEq] at h
    obtain ⟨rfl, rfl⟩ := h
    exact ⟨by simp, hj, by simpa using hp, hd⟩
  | case6 j is b c hj hp hw hd ih =>
    refine ⟨fun i c h => ⟨List.mem_cons_of_mem _ (ih.1 i c h).1, (ih.1 i c h).2⟩, fun _ _ => ?_⟩
    refine Or.inr ⟨j, c, hj, by simpa using hp, ?_, hd⟩
    tauto

/-- The three ways a pass of `task_waitpid` ends. -/
theorem taskWaitpid_spec {r : WaitResult} (h : taskWaitpid k i t pid = .next (k', r)) :
    (∃ j c, r = .reaped j c.pid c.status ∧ 2 ≤ j ∧ k.table j = some c ∧ c.ppid = t.pid ∧
      c.state = .died ∧ k' = { k with table := update k.table j none }) ∨
    (r = .noChild ∧ k' = k) ∨
    (r = .waits ∧ HasChild k t.pid pid ∧
      k'.table = update k.table i (some { t with node := true, state := .waiting, waitpid := pid }) ∧
      k'.cpu = if k.cpu = some i then none else k.cpu) := by
  obtain ⟨hsome, hnone⟩ := waitScan_spec (k := k) t.pid pid (List.range' 2 (NR_TASKS - 2)) false
  unfold taskWaitpid at h
  generalize waitScan k t.pid pid (List.range' 2 (NR_TASKS - 2)) false = w at h hsome hnone
  match w with
  | (some (j, c), b) =>
    simp only [Outcome.next.injEq, Prod.mk.injEq] at h
    obtain ⟨rfl, rfl⟩ := h
    obtain ⟨hmem, hc, hp, hd⟩ := hsome j c rfl
    exact Or.inl ⟨j, c, rfl, by simp at hmem; omega, hc, hp, hd, rfl⟩
  | (none, false) =>
    simp only [Outcome.next.injEq, Prod.mk.injEq] at h
    exact Or.inr (Or.inl ⟨h.2.symm, h.1.symm⟩)
  | (none, true) =>
    dsimp only at h
    cases hb : taskBlock (k.setTask i { t with waitpid := pid }) i { t with waitpid := pid }
        .blockList .waiting with
    | next k₁ =>
      simp only [hb, Outcome.next.injEq, Prod.mk.injEq] at h
      obtain ⟨rfl, rfl⟩ := h
      obtain ⟨htable, hcpu⟩ := taskBlock_spec hb
      refine Or.inr (Or.inr ⟨rfl, by simpa using hnone rfl rfl, ?_, hcpu⟩)
      simpa [Kernel.setTask] using htable
    | refused => simp [hb] at h
    | failed => simp [hb] at h

end Onix.Task
