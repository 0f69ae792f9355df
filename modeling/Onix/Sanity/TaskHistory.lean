import Onix.Sanity.TaskInv

/-! The history of exits and reports that a run of the task table leaves: every
process exits once, an exited child in the table is in the log of exits with
its status, and a report is about a child that is gone from the table. -/

namespace Onix.Task

open Function Outcome

variable {s s' : Sys} {k k' : Kernel} {i j : ℕ} {t t' c : TaskT} {pid status : ℤ}

structure History (s : Sys) : Prop where
  inj : ∀ i j t u, s.k.table i = some t → s.k.table j = some u → s.serial i = s.serial j → i = j
  lt : ∀ i t, s.k.table i = some t → s.serial i < s.forks
  exits_lt : ∀ e ∈ s.exits, e.serial < s.forks
  exits_nodup : (s.exits.map Exit.serial).Nodup
  alive : ∀ i t, s.k.table i = some t → t.state ≠ .died → ∀ e ∈ s.exits, e.serial ≠ s.serial i
  dead : ∀ i t, s.k.table i = some t → t.state = .died → ⟨s.serial i, t.pid, t.status⟩ ∈ s.exits
  reported : ∀ r ∈ s.reports, r.exit ∈ s.exits ∧ r.caller = r.parent
  gone : ∀ r ∈ s.reports, ∀ i t, s.k.table i = some t → s.serial i ≠ r.exit.serial
  reports_nodup : (s.reports.map fun r => r.exit.serial).Nodup

/-- The table after a call that neither adds nor removes a task nor lets one die. -/
structure SameTasks (k k' : Kernel) : Prop where
  back : ∀ i t', k'.table i = some t' → ∃ t, k.table i = some t ∧
    (t'.state = .died ↔ t.state = .died) ∧
    (t.state = .died → t'.pid = t.pid ∧ t'.status = t.status)

variable (t') in
theorem SameTasks.change (ht : k.table i = some t) (hs : t.state ≠ .died) (hs' : t'.state ≠ .died)
    (h : k'.table = update k.table i (some t')) : SameTasks k k' where
  back j u' hu' := by
    rw [h] at hu'
    by_cases hj : j = i
    · subst hj
      obtain rfl : t' = u' := by simpa using hu'
      exact ⟨t, ht, by simp [hs, hs'], fun h => absurd h hs⟩
    · exact ⟨u', by simpa [hj] using hu', Iff.rfl, fun _ => ⟨rfl, rfl⟩⟩

theorem History.same (hh : History s) (h : SameTasks s.k k') (call : ℕ → Option ℤ) :
    History { s with k := k', call := call } where
  inj i j t u ht hu he := by
    obtain ⟨t₀, ht₀, -⟩ := h.back i t ht
    obtain ⟨u₀, hu₀, -⟩ := h.back j u hu
    exact hh.inj i j t₀ u₀ ht₀ hu₀ he
  lt i t ht := by
    obtain ⟨t₀, ht₀, -⟩ := h.back i t ht
    exact hh.lt i t₀ ht₀
  exits_lt := hh.exits_lt
  exits_nodup := hh.exits_nodup
  alive i t ht hd := by
    obtain ⟨t₀, ht₀, hs, -⟩ := h.back i t ht
    exact hh.alive i t₀ ht₀ (hs.not.mp hd)
  dead i t ht hd := by
    obtain ⟨t₀, ht₀, hs, hsame⟩ := h.back i t ht
    obtain ⟨h1, h2⟩ := hsame (hs.mp hd)
    rw [h1, h2]
    exact hh.dead i t₀ ht₀ (hs.mp hd)
  reported := hh.reported
  gone r hr i t ht := by
    obtain ⟨t₀, ht₀, -⟩ := h.back i t ht
    exact hh.gone r hr i t₀ ht₀
  reports_nodup := hh.reports_nodup

/-- A fork gives the new slot a number no process had. -/
theorem History.fork (hh : History s) (h : taskFork s.k t = .next (k', j)) :
    History { s with
      k := k', call := update s.call j none, serial := update s.serial j s.forks,
      forks := s.forks + 1 } := by
  obtain ⟨-, -, hnone, rfl⟩ := taskFork_spec h
  have new : ∀ m u, (s.k.setTask j (forkChild t j)).table m = some u →
      (m = j ∧ u = forkChild t j) ∨ (m ≠ j ∧ s.k.table m = some u) := by
    intro m u hu
    by_cases hm : m = j
    · subst hm
      exact Or.inl ⟨rfl, by simpa [Kernel.setTask] using hu.symm⟩
    · exact Or.inr ⟨hm, by simpa [Kernel.setTask, hm] using hu⟩
  refine ⟨fun m n u v hu hv he => ?_, fun m u hu => ?_, fun e he => ?_, hh.exits_nodup,
    fun m u hu hd e he => ?_, fun m u hu hd => ?_, hh.reported, fun r hr m u hu => ?_,
    hh.reports_nodup⟩
  · rcases new m u hu with ⟨rfl, -⟩ | ⟨hm, hu'⟩ <;> rcases new n v hv with ⟨rfl, -⟩ | ⟨hn, hv'⟩
    · rfl
    · have := hh.lt n v hv'
      simp [hn] at he
      omega
    · have := hh.lt m u hu'
      simp [hm] at he
      omega
    · exact hh.inj m n u v hu' hv' (by simpa [hm, hn] using he)
  · rcases new m u hu with ⟨rfl, -⟩ | ⟨hm, hu'⟩
    · simp
    · have := hh.lt m u hu'
      simp only [update_of_ne hm]
      omega
  · have := hh.exits_lt e he
    exact Nat.lt_succ_of_lt this
  · rcases new m u hu with ⟨rfl, -⟩ | ⟨hm, hu'⟩
    · have := hh.exits_lt e he
      simp only [update_self]
      omega
    · simpa only [update_of_ne hm] using hh.alive m u hu' hd e he
  · rcases new m u hu with ⟨-, rfl⟩ | ⟨hm, hu'⟩
    · simp [forkChild] at hd
    · simpa only [update_of_ne hm] using hh.dead m u hu' hd
  · rcases new m u hu with ⟨rfl, -⟩ | ⟨hm, hu'⟩
    · have := hh.exits_lt _ (hh.reported r hr).1
      simp only [update_self]
      omega
    · simpa only [update_of_ne hm] using hh.gone r hr m u hu'

/-- An exit is logged with the pid and the argument of the call. -/
theorem History.exit (hi : KInv s.k) (hh : History s) (ht : s.k.table i = some t)
    (h : taskExit s.k i t status = .next k') :
    History { s with k := k', exits := ⟨s.serial i, t.pid, status⟩ :: s.exits } := by
  obtain ⟨hrun, -, htable⟩ := taskExit_spec hi.tree ht h
  have hlive : t.state ≠ .died := by simp [hrun]
  have new : ∀ j u', k'.table j = some u' →
      ∃ u, s.k.table j = some u ∧ u' = exitEffect i t status j u := by
    intro j u' hu'
    rw [htable] at hu'
    obtain ⟨u, hu, rfl⟩ := Option.map_eq_some_iff.mp hu'
    exact ⟨u, hu, rfl⟩
  refine ⟨fun m n u v hu hv he => ?_, fun m u hu => ?_, fun e he => ?_, ?_,
    fun m u' hu hd e he => ?_, fun m u' hu hd => ?_, fun r hr => ?_, fun r hr m u hu => ?_,
    hh.reports_nodup⟩
  · obtain ⟨u₀, hu₀, -⟩ := new m u hu
    obtain ⟨v₀, hv₀, -⟩ := new n v hv
    exact hh.inj m n u₀ v₀ hu₀ hv₀ he
  · obtain ⟨u₀, hu₀, -⟩ := new m u hu
    exact hh.lt m u₀ hu₀
  · rcases List.mem_cons.mp he with rfl | he
    · exact hh.lt i t ht
    · exact hh.exits_lt e he
  · rw [List.map_cons, List.nodup_cons]
    refine ⟨fun hmem => ?_, hh.exits_nodup⟩
    obtain ⟨e, he, hs⟩ := List.mem_map.mp hmem
    exact hh.alive i t ht hlive e he hs
  · obtain ⟨u, hu₀, rfl⟩ := new m u' hu
    rw [exitEffect_state] at hd
    split_ifs at hd with hm
    · exact absurd rfl hd
    all_goals
      rcases List.mem_cons.mp he with rfl | he
      · exact fun h => hm (hh.inj m i u t hu₀ ht h.symm)
    · exact hh.alive m u hu₀ (by simp_all) e he
    · exact hh.alive m u hu₀ hd e he
  · obtain ⟨u, hu₀, rfl⟩ := new m u' hu
    rw [exitEffect_state] at hd
    by_cases hm : m = i
    · subst hm
      obtain rfl : t = u := by simpa [ht] using hu₀
      have hst : (exitEffect m t status m t).status = status := by
        unfold exitEffect buried
        dsimp only
        split_ifs <;> simp_all
      rw [hst, (exitEffect_fields m t status m t).1]
      exact List.mem_cons_self
    · rw [if_neg hm] at hd
      split_ifs at hd with hw
      rw [(exitEffect_fields i t status m u).2.2.2 hm, (exitEffect_fields i t status m u).1]
      exact List.mem_cons_of_mem _ (hh.dead m u hu₀ hd)
  · obtain ⟨h1, h2⟩ := hh.reported r hr
    exact ⟨List.mem_cons_of_mem _ h1, h2⟩
  · obtain ⟨u₀, hu₀, -⟩ := new m u hu
    exact hh.gone r hr m u₀ hu₀

/-- A report takes its child off the table. -/
theorem History.reap (hh : History s) (hc : s.k.table j = some c) (hd : c.state = .died)
    (call : ℕ → Option ℤ) (n : ℕ) :
    History { s with
      k := { s.k with table := update s.k.table j none }, call := call,
      reports := ⟨⟨s.serial j, c.pid, c.status⟩, n, n⟩ :: s.reports } := by
  have new : ∀ m u, update s.k.table j none m = some u → m ≠ j ∧ s.k.table m = some u := by
    intro m u hu
    have hm : m ≠ j := by
      rintro rfl
      simp at hu
    exact ⟨hm, by simpa [hm] using hu⟩
  refine ⟨fun m n u v hu hv => hh.inj m n u v (new m u hu).2 (new n v hv).2,
    fun m u hu => hh.lt m u (new m u hu).2, hh.exits_lt, hh.exits_nodup,
    fun m u hu => hh.alive m u (new m u hu).2, fun m u hu => hh.dead m u (new m u hu).2,
    fun r hr => ?_, fun r hr m u hu => ?_, ?_⟩
  · rcases List.mem_cons.mp hr with rfl | hr
    · exact ⟨hh.dead j c hc hd, rfl⟩
    · exact hh.reported r hr
  · obtain ⟨hm, hu'⟩ := new m u hu
    rcases List.mem_cons.mp hr with rfl | hr
    · exact fun h => hm (hh.inj m j u c hu' hc h)
    · exact hh.gone r hr m u hu'
  · rw [List.map_cons, List.nodup_cons]
    refine ⟨fun hmem => ?_, hh.reports_nodup⟩
    obtain ⟨r, hr, he⟩ := List.mem_map.mp hmem
    exact hh.gone r hr j c hc he.symm

variable (t') in
/-- The running task leaves the processor, alive. -/
theorem KInv.leave (hi : KInv k) (ht : k.table i = some t) (hc : k.cpu = some i)
    (hsame : t'.pid = t.pid ∧ t'.ppid = t.ppid)
    (hs : t'.state ≠ .died ∧ t'.state ≠ .running) (hidle : i = 0 → t'.state = .ready)
    (hwait : t'.state = .waiting → HasChild k i t'.waitpid)
    (htable : k'.table = update k.table i (some t')) (hcpu : k'.cpu = none) :
    KInv k' ∧ SameTasks k k' := by
  have hrun : t.state = .running := (hi.cpu i t ht).mpr hc
  refine ⟨hi.change t' ht hsame hs.1 (fun h => Or.inl (hidle h)) hwait htable ?_,
    SameTasks.change t' ht (by simp [hrun]) hs.1 htable⟩
  refine hi.tree.cpu_change htable (fun j hj => ?_) (by simp [hs.2, hcpu])
  simp [hcpu, hc, Ne.symm hj]

end Onix.Task
