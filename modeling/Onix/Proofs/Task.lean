import Onix.Sanity.TaskHistory

/-! The process tree over every run: slots and pids, parents, the one report of
each exit, and no waiter without a child to wait for. -/

namespace Onix.Task

open Function Outcome

variable {s s' s₀ : Sys} {k k' : Kernel} {i j : ℕ} {t t' : TaskT} {pid status : ℤ} {as : List Act}

theorem process_eq (h : s.process = some (i, t)) :
    s.k.cpu = some i ∧ i ≠ 0 ∧ s.k.table i = some t := by
  unfold Sys.process at h
  cases hc : s.k.cpu with
  | none => simp [hc] at h
  | some m =>
    rw [hc] at h
    by_cases h0 : m = 0
    · simp [h0] at h
    · simp only [h0, if_false, Option.map_eq_some_iff, Prod.mk.injEq] at h
      obtain ⟨u, hu, rfl, rfl⟩ := h
      exact ⟨rfl, h0, hu⟩

/-- What every step keeps. -/
structure SysInv (s : Sys) : Prop where
  kernel : KInv s.k
  history : History s

theorem waitPass_inv (hi : SysInv s) (hc : s.k.cpu = some i) (h0 : i ≠ 0)
    (ht : s.k.table i = some t) (h : waitPass s i t pid = .next s') : SysInv s' := by
  have hpid := hi.kernel.pid i t ht
  unfold waitPass at h
  cases hw : taskWaitpid s.k i t pid with
  | refused => simp [hw] at h
  | failed => simp [hw] at h
  | next r =>
    obtain ⟨k', r⟩ := r
    rw [hw] at h
    rcases taskWaitpid_spec hw with ⟨j, c, rfl, hj, hcj, hpp, hd, rfl⟩ | ⟨rfl, rfl⟩ |
      ⟨rfl, hchild, htable, hcpu⟩
    · obtain rfl := Outcome.next.inj h
      refine ⟨hi.kernel.reap hcj hd hj, ?_⟩
      rw [hcj]
      dsimp only
      rw [hpp, hpid]
      exact hi.history.reap hcj hd _ _
    · obtain rfl := Outcome.next.inj h
      exact ⟨hi.kernel, hi.history.same ⟨fun j t ht => ⟨t, ht, Iff.rfl, fun _ => ⟨rfl, rfl⟩⟩⟩ _⟩
    · obtain rfl := Outcome.next.inj h
      obtain ⟨hk, hsame⟩ := hi.kernel.leave { t with node := true, state := .waiting, waitpid := pid }
        ht hc ⟨rfl, rfl⟩ (by simp) (fun h => absurd h h0) (fun _ => by simpa [hpid] using hchild) htable (by simp [hcpu, hc])
      exact ⟨hk, hi.history.same hsame _⟩

theorem step_inv (a : Act) (hi : SysInv s) (h : Step s a s') : SysInv s' := by
  unfold Step exec at h
  cases a with
  | fork =>
    cases hp : s.process with
    | none => simp [hp] at h
    | some it =>
      obtain ⟨i, t⟩ := it
      obtain ⟨hc, h0, ht⟩ := process_eq hp
      simp only [hp] at h
      obtain ⟨-, h⟩ := guard_eq_next.mp h
      cases hf : taskFork s.k t with
      | refused => simp [hf] at h
      | failed => simp [hf] at h
      | next r =>
        obtain ⟨k', j⟩ := r
        rw [hf] at h
        obtain rfl := Outcome.next.inj h
        exact ⟨hi.kernel.fork ht hf, hi.history.fork hf⟩
  | exit status =>
    cases hp : s.process with
    | none => simp [hp] at h
    | some it =>
      obtain ⟨i, t⟩ := it
      obtain ⟨hc, h0, ht⟩ := process_eq hp
      simp only [hp] at h
      obtain ⟨-, h⟩ := guard_eq_next.mp h
      cases he : taskExit s.k i t status with
      | refused => simp [he] at h
      | failed => simp [he] at h
      | next k' =>
        rw [he] at h
        obtain rfl := Outcome.next.inj h
        exact ⟨hi.kernel.exit ht h0 he, hi.history.exit hi.kernel ht he⟩
  | waitpid pid =>
    cases hp : s.process with
    | none => simp [hp] at h
    | some it =>
      obtain ⟨i, t⟩ := it
      obtain ⟨hc, h0, ht⟩ := process_eq hp
      simp only [hp] at h
      exact waitPass_inv hi hc h0 ht (guard_eq_next.mp h).2
  | resume =>
    cases hp : s.process with
    | none => simp [hp] at h
    | some it =>
      obtain ⟨i, t⟩ := it
      obtain ⟨hc, h0, ht⟩ := process_eq hp
      simp only [hp] at h
      cases hcall : s.call i with
      | none => simp [hcall] at h
      | some pid =>
        rw [hcall] at h
        exact waitPass_inv hi hc h0 ht h
  | block blist state =>
    cases hp : s.process with
    | none => simp [hp] at h
    | some it =>
      obtain ⟨i, t⟩ := it
      obtain ⟨hc, h0, ht⟩ := process_eq hp
      simp only [hp] at h
      obtain ⟨hg, h⟩ := guard_eq_next.mp h
      have hs : state = .blocked ∨ state = .sleeping := by simp_all
      cases hb : taskBlock s.k i t blist state with
      | refused => simp [hb] at h
      | failed => simp [hb] at h
      | next k' =>
        rw [hb] at h
        obtain rfl := Outcome.next.inj h
        obtain ⟨htable, hcpu⟩ := taskBlock_spec hb
        obtain ⟨hk, hsame⟩ := hi.kernel.leave { t with node := true, state := state } ht hc ⟨rfl, rfl⟩
          (by rcases hs with rfl | rfl <;> simp) (fun h => absurd h h0)
          (by rcases hs with rfl | rfl <;> simp) htable (by simp [hcpu, hc])
        exact ⟨hk, hi.history.same hsame _⟩
  | wake i =>
    cases ht : s.k.table i with
    | none => simp [ht] at h
    | some t =>
      simp only [ht] at h
      obtain ⟨hg, h⟩ := guard_eq_next.mp h
      have hs : t.state = .blocked ∨ t.state = .sleeping := by simp_all
      cases hu : taskUnblock s.k i t with
      | refused => simp [hu] at h
      | failed => simp [hu] at h
      | next k' =>
        rw [hu] at h
        obtain rfl := Outcome.next.inj h
        obtain ⟨htable, hcpu⟩ := taskUnblock_spec hu
        have hrun : s.k.cpu ≠ some i := fun hc => by
          have := (hi.kernel.cpu i t ht).mpr hc
          rcases hs with hs | hs <;> simp [hs] at this
        refine ⟨hi.kernel.change { t with node := false, state := .ready } ht ⟨rfl, rfl⟩ (by simp) (by simp) (by simp) htable
          (hi.kernel.tree.cpu_change htable (fun j hj => by rw [hcpu]) (by simp [hcpu, hrun])), ?_⟩
        exact hi.history.same (SameTasks.change _ ht (by rcases hs with hs | hs <;> simp [hs])
          (by simp) htable) _
  | preempt =>
    cases hc : s.k.cpu with
    | none => simp [hc] at h
    | some i =>
      simp only [hc] at h
      cases ht : s.k.table i with
      | none => simp [ht] at h
      | some t =>
        simp only [ht] at h
        obtain ⟨-, h⟩ := guard_eq_next.mp h
        obtain rfl := Outcome.next.inj h
        have htable : ({ s.k.setTask i { t with state := .ready } with cpu := none } : Kernel).table =
            update s.k.table i (some { t with state := .ready }) := rfl
        obtain ⟨hk, hsame⟩ := hi.kernel.leave { t with state := .ready } ht hc ⟨rfl, rfl⟩ (by simp)
          (by simp) (by simp) htable rfl
        exact ⟨hk, hi.history.same hsame _⟩
  | dispatch i =>
    cases ht : s.k.table i with
    | none => simp [ht] at h
    | some t =>
      simp only [ht] at h
      obtain ⟨hg, h⟩ := guard_eq_next.mp h
      obtain ⟨hc, hs⟩ : s.k.cpu = none ∧ t.state = .ready := by simp_all
      obtain rfl := Outcome.next.inj h
      refine ⟨hi.kernel.change { t with state := .running } ht ⟨rfl, rfl⟩ (by simp) (by simp)
        (by simp) rfl (hi.kernel.tree.cpu_change rfl (fun j hj => by simp [hc, Ne.symm hj]) (by simp)), ?_⟩
      exact hi.history.same (SameTasks.change { t with state := .running } ht (by simp [hs])
        (by simp) rfl) _

theorem inv_init (h : Init s) : SysInv s := by
  refine ⟨kinv_start h.created h.idle h.first h.cpu,
    ⟨h.serial, h.forks, ?_, ?_, fun i t ht _ => ?_, fun i t ht hd => ?_, ?_, ?_, ?_⟩⟩
  all_goals simp [h.exits, h.reports]
  simp [(h.created i t ht).2.state] at hd

theorem inv_run (h₀ : Init s₀) (h : Run Step s₀ as s) : SysInv s :=
  h.invariant (fun _ a _ hi hs => step_inv a hi hs) (inv_init h₀)

/-- Every state of every run: slots hold their pids, every parent is there and
alive and the idle task is at the root, each exit is reported at most once and
as it was, to the parent, and nobody waits for children that have all exited. -/
theorem process_tree (h₀ : Init s₀) (h : Run Step s₀ as s) :
    (∀ i t, s.k.table i = some t → t.pid = i) ∧
    (∀ i t, s.k.table i = some t →
      (∃ p, s.k.table t.ppid = some p ∧ p.state ≠ .died) ∧ Rooted s.k i) ∧
    ((s.exits.map Exit.serial).Nodup ∧ (s.reports.map fun r => r.exit.serial).Nodup ∧
      ∀ r ∈ s.reports, r.exit ∈ s.exits ∧ r.caller = r.parent) ∧
    (∀ i t, s.k.table i = some t → t.state = .waiting → HasChild s.k i t.waitpid) := by
  obtain ⟨hk, hh⟩ := inv_run h₀ h
  refine ⟨hk.pid, fun i t ht => ⟨?_, hk.rooted i t ht⟩, ⟨hh.exits_nodup, hh.reports_nodup,
    hh.reported⟩, hk.waiting⟩
  by_cases h0 : i = 0
  · subst h0
    obtain ⟨u, hu, hs, hp⟩ := hk.idle
    obtain rfl : t = u := by simpa [ht] using hu
    refine ⟨t, by rwa [hp], ?_⟩
    rcases hs with hs | hs <;> simp [hs]
  · exact hk.parent i t ht h0

/-- The idle task and the first process, just created. -/
def boot : Sys where
  k := {
    table i := if i < 2 then some {
      node := false, state := .ready, priority := 5, ticks := 5, jiffies := 0, pid := i, ppid := 0,
      status := 0, waitpid := 0 } else none
    lists _ := []
    cpu := none }
  call _ := none
  serial i := i
  forks := 2
  exits := []
  reports := []

theorem table_boot {i : Nat} {t : TaskT} (ht : boot.k.table i = some t) :
    i < 2 ∧ Created i t := by
  simp only [boot, Option.ite_none_right_eq_some, Option.some.injEq] at ht
  obtain ⟨hi, rfl⟩ := ht
  exact ⟨hi, by constructor <;> rfl⟩

theorem init_boot : Init boot :=
  ⟨fun _ _ ht => ⟨Nat.lt_trans (table_boot ht).1 (by decide), (table_boot ht).2⟩, ⟨_, rfl⟩,
    ⟨_, rfl⟩, fun _ => rfl, rfl, fun _ _ _ _ _ _ h => h, fun _ _ ht => (table_boot ht).1, rfl,
    rfl⟩

/-- The first process forks and waits; the child exits with 7 and wakes it. -/
def forkExitWait : List Act :=
  [.dispatch 1, .fork, .waitpid (-1), .dispatch 2, .exit 7, .dispatch 1, .resume]

theorem process_tree_forkExitWait :
    ∃ s, Run Step boot forkExitWait s ∧ s.reports = [⟨⟨2, 2, 7⟩, 1, 1⟩] ∧ Rooted s.k 1 := by
  obtain ⟨s, hs, hp⟩ := run_of_play (fun _ _ => True) exec boot forkExitWait
    (fun s => s.reports == [⟨⟨2, 2, 7⟩, 1, 1⟩] && (s.k.table 1).isSome) (by decide)
  simp only [Bool.and_eq_true, beq_iff_eq] at hp
  obtain ⟨t, ht⟩ := Option.isSome_iff_exists.mp hp.2
  exact ⟨s, hs.of_guarded, hp.1, ((process_tree init_boot hs.of_guarded).2.1 1 t ht).2⟩

end Onix.Task
