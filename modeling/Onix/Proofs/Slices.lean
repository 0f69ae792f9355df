import Onix.Proofs.Sched

/-! Time slices: `ticks` is what is left of a task's slice, and while it sleeps the time at
which it wakes. A task that `task_wakeup` has woken has neither. -/

namespace Onix.Sched

open Function Outcome Onix.Task

variable {s s' s₀ s₁ : State} {k k' : Kernel} {i j n : ℕ} {t t' u : TaskT} {as : List Act}

/-- A slice that the clock can count down. -/
structure Slice (t : TaskT) : Prop where
  pos : 1 ≤ t.ticks
  le : t.ticks ≤ t.priority
  lt : t.priority < 2 ^ 31

/-- `task_wakeup` finds the first task of the sleep list due. -/
def due (s : State) : Bool :=
  match s.k.lists .sleepList with
  | [] => false
  | i :: _ =>
    match s.k.table i with
    | none => false
    | some t => u32 t.ticks ≤ s.jiffies

/-- No task is woken from its sleep. -/
def Calm (s : State) : Act → Prop
  | .clock | .wakeup => due s = false
  | _ => True

instance (s : State) (a : Act) : Decidable (Calm s a) := by
  cases a <;> unfold Calm <;> infer_instance

section Wakeup

/-- A task that is not in the list stays as it is. -/
theorem wakeLoop_table (jiffies : ℕ) (is : List ℕ) (hj : j ∉ is)
    (h : wakeLoop jiffies is k = .next k') : k'.table j = k.table j := by
  induction is generalizing k with
  | nil =>
    obtain rfl := Outcome.next.inj h
    rfl
  | cons i is ih =>
    obtain ⟨hne, hj⟩ : j ≠ i ∧ j ∉ is := by simpa using hj
    unfold wakeLoop at h
    cases ht : k.table i with
    | none => simp [ht] at h
    | some t =>
      simp only [ht] at h
      split_ifs at h
      · obtain rfl := Outcome.next.inj h
        rfl
      · obtain ⟨k₁, hk₁, h⟩ := andThen_eq_next.mp h
        rw [ih hj h, (taskUnblock_spec hk₁).1, update_of_ne hne]

/-- Where nobody is due `task_wakeup` does nothing. -/
theorem taskWakeup_calm (hs : Inv s) (hd : due s = false) : taskWakeup s = .next s := by
  unfold due at hd
  unfold taskWakeup
  cases hl : s.k.lists .sleepList with
  | nil => rfl
  | cons i is =>
    obtain ⟨t, ht, -⟩ := hs.lists.mem .sleepList i (by simp [hl])
    rw [hl] at hd
    simp only [ht, decide_eq_false_iff_not, not_le] at hd
    unfold wakeLoop
    rw [ht]
    dsimp only
    rw [if_pos hd]
    rfl

/-- A task that is woken is ready with no ticks. -/
theorem taskWakeup_due (hs : Inv s) (hd : due s = true) (h : taskWakeup s = .next s') :
    ∃ j t, s'.k.table j = some t ∧ t.state = .ready ∧ t.ticks = 0 := by
  unfold due at hd
  unfold taskWakeup at h
  obtain ⟨k, hk, h⟩ := andThen_eq_next.mp h
  obtain rfl := Outcome.next.inj h
  have hnd := hs.lists.nodup .sleepList
  cases hl : s.k.lists .sleepList with
  | nil => simp [hl] at hd
  | cons i is =>
    obtain ⟨t, ht, -⟩ := hs.lists.mem .sleepList i (by simp [hl])
    rw [hl] at hd hk hnd
    simp only [ht, decide_eq_true_eq] at hd
    unfold wakeLoop at hk
    simp only [ht, not_lt.mpr hd, if_false] at hk
    obtain ⟨k₁, hk₁, hk⟩ := andThen_eq_next.mp hk
    refine ⟨i, { t with ticks := 0, node := false, state := .ready }, ?_, rfl, rfl⟩
    rw [wakeLoop_table _ _ (List.nodup_cons.mp hnd).1 hk, (taskUnblock_spec hk₁).1, update_self]

end Wakeup

section Invariant

/-- Every task that is awake has a slice, and the running task has not used more of its own
than is gone. -/
structure Sliced (s : State) : Prop where
  inv : Inv s
  slice : ∀ i t, s.k.table i = some t → t.state ≠ .sleeping → Slice t
  held : ∀ i t, s.k.cpu = some i → s.k.table i = some t → s.held + t.ticks ≤ t.priority

/-- Whoever is awake has been, with the slice it has, or is new. -/
def Kept (k k' : Kernel) : Prop :=
  ∀ j u', k'.table j = some u' → u'.state ≠ .sleeping →
    (k.table j = none ∧ Slice u') ∨
    ∃ u, k.table j = some u ∧ u.state ≠ .sleeping ∧ u'.ticks = u.ticks ∧ u'.priority = u.priority

theorem Slice.congr (h : Slice u) (ht : t.ticks = u.ticks) (hp : t.priority = u.priority) :
    Slice t := by
  refine ⟨?_, ?_, ?_⟩
  · rw [ht]
    exact h.pos
  · rw [ht, hp]
    exact h.le
  · rw [hp]
    exact h.lt

theorem Sliced.kept_slice (hs : Sliced s) (hk : Kept s.k k') (hu : k'.table j = some u)
    (hsleep : u.state ≠ .sleeping) : Slice u := by
  rcases hk j u hu hsleep with ⟨-, h⟩ | ⟨v, hv, hvs, ht, hp⟩
  · exact h
  · exact (hs.slice j v hv hvs).congr ht hp

/-- The running task goes on. -/
theorem Sliced.kept (hs : Sliced s) (hi : Inv s') (hk : Kept s.k s'.k) (hc : s'.k.cpu = s.k.cpu)
    (hheld : s'.held = s.held) : Sliced s' := by
  refine ⟨hi, fun j u hu hsleep => hs.kept_slice hk hu hsleep, fun j u hj hu => ?_⟩
  have hrun : u.state = .running := (hi.tree.cpu j u hu).mpr hj
  obtain ⟨m, v, hm, hv⟩ := hs.inv.running
  obtain rfl : m = j := Option.some.inj (hm.symm.trans (hc.symm.trans hj))
  rcases hk m u hu (by simp [hrun]) with ⟨hnone, -⟩ | ⟨w, hw, -, ht, hp⟩
  · simp [hnone] at hv
  · rw [hheld, ht, hp]
    exact hs.held m w hm hw

theorem switched_sleeping (hn : k.table n = some t) (hs : t.state = .ready ∨ t.state = .running)
    (hj : k.table j = some u) (h : (switched i n j u).state ≠ .sleeping) : u.state ≠ .sleeping := by
  rw [switched_state] at h
  split_ifs at h with hjn hji
  · obtain rfl : t = u := Option.some.inj (hn.symm.trans (hjn ▸ hj))
    rcases hs with hs | hs <;> simp [hs]
  · simp [hji.2]
  · exact h

/-- `schedule` gives a task that has used its slice up a new one. -/
theorem schedule_sliced (hs : Sound s) (hc : s.k.cpu = some i ∨ s.k.cpu = none)
    (hother : ∀ j u, s.k.table j = some u → u.state ≠ .sleeping → j ≠ i → Slice u)
    (hself : ∀ u, s.k.table i = some u → u.state ≠ .sleeping →
      0 ≤ u.ticks ∧ u.ticks ≤ u.priority ∧ 1 ≤ u.priority ∧ u.priority < 2 ^ 31)
    (h : schedule s i = .next s') : Sliced s' := by
  have hinv := (schedule_inv hs hc).of_next h
  obtain ⟨n, v, k', hv, hvs, -, hk', hcpu, -, htable⟩ := schedule_next hs hc
  obtain rfl := Outcome.next.inj (hk'.symm.trans h)
  have hslice : ∀ j u, k'.table j = some u → u.state ≠ .sleeping → Slice u := by
    intro j u' hu' hsleep
    rw [htable] at hu'
    obtain ⟨u, hu, rfl⟩ := Option.map_eq_some_iff.mp hu'
    have hsleep' := switched_sleeping hv hvs hu hsleep
    obtain ⟨-, -, -, hp, -, ht⟩ := switched_fields i n j u
    obtain rfl | hj := eq_or_ne j i
    · obtain ⟨h₁, h₂, h₃, h₄⟩ := hself u hu hsleep'
      refine ⟨?_, ?_, by omega⟩
      · rw [ht]
        split_ifs <;> omega
      · rw [ht, hp]
        split_ifs <;> omega
    · rw [if_neg (fun h => hj h.1)] at ht
      exact (hother j u hu hsleep' hj).congr ht hp
  refine ⟨hinv, hslice, fun j u hj hu => ?_⟩
  have hrun : u.state = .running := (hinv.tree.cpu j u hu).mpr hj
  simpa using (hslice j u hu (by simp [hrun])).le

/-- The running task has left its slice as it is and calls `schedule`. -/
theorem Sliced.schedule (hs : Sliced s) (hi : Sound s') (hk : Kept s.k s'.k)
    (hc : s'.k.cpu = some i ∨ s'.k.cpu = none) (h : schedule s' i = .next s₁) : Sliced s₁ := by
  refine schedule_sliced hi hc (fun j u hu hsleep _ => hs.kept_slice hk hu hsleep)
    (fun u hu hsleep => ?_) h
  have := hs.kept_slice hk hu hsleep
  have := this.pos
  have := (hs.kept_slice hk hu hsleep).le
  have := (hs.kept_slice hk hu hsleep).lt
  omega

end Invariant

section Actions

theorem Kept.refl (k : Kernel) : Kept k k :=
  fun _ u hu hs => .inr ⟨u, hu, hs, rfl, rfl⟩

/-- One task changes, keeping its slice. -/
theorem kept_update (hi : k.table i = some t) (htable : k'.table = update k.table i (some t'))
    (hsame : t'.state ≠ .sleeping →
      t.state ≠ .sleeping ∧ t'.ticks = t.ticks ∧ t'.priority = t.priority) : Kept k k' := by
  intro j u hu hs
  rw [htable] at hu
  obtain rfl | hj := eq_or_ne j i
  · obtain rfl : t' = u := by simpa using hu
    exact .inr ⟨t, hi, hsame hs⟩
  · rw [update_of_ne hj] at hu
    exact .inr ⟨u, hu, hs, rfl, rfl⟩

theorem kept_exit (ht : Tree k) (hi : k.table i = some t) {status : ℤ}
    (h : taskExit k i t status = .next k') : Kept k k' := by
  obtain ⟨hrun, -, htable⟩ := taskExit_spec ht hi h
  intro j u' hu' hs
  rw [htable] at hu'
  obtain ⟨u, hu, rfl⟩ := Option.map_eq_some_iff.mp hu'
  refine .inr ⟨u, hu, ?_, ?_⟩
  · intro hsleep
    rw [exitEffect_state, hsleep] at hs
    obtain rfl | hj := eq_or_ne j i
    · obtain rfl : t = u := Option.some.inj (hi.symm.trans hu)
      simp [hrun] at hsleep
    · simp [hj] at hs
  · unfold exitEffect buried
    dsimp only
    split_ifs <;> exact ⟨rfl, rfl⟩

/-- A pass of `task_waitpid` keeps every slice. -/
theorem kept_waitpid (hi : k.table i = some t) (hrun : t.state = .running) {pid : ℤ}
    {r : WaitResult} (h : taskWaitpid k i t pid = .next (k', r)) : Kept k k' := by
  rcases taskWaitpid_spec h with ⟨j, c, -, -, -, -, -, rfl⟩ | ⟨-, rfl⟩ | ⟨-, -, htable, -⟩
  · intro m u hu hs
    obtain rfl | hm := eq_or_ne m j
    · simp at hu
    · exact .inr ⟨u, by simpa [hm] using hu, hs, rfl, rfl⟩
  · exact Kept.refl k'
  · exact kept_update hi htable fun _ => ⟨by simp [hrun], rfl, rfl⟩

theorem waitPass_sliced (hs : Sliced s) (hc : s.k.cpu = some i) (h0 : i ≠ 0)
    (hi : s.k.table i = some t) {pid : ℤ} (h : waitPass s i t pid = .next s') : Sliced s' := by
  have hinv := (waitPass_inv hs.inv hc h0 hi pid).of_next h
  have hrun : t.state = .running := (hs.inv.tree.cpu i t hi).mpr hc
  unfold waitPass at h
  obtain ⟨⟨k', r⟩, hk, h⟩ := andThen_eq_next.mp h
  have hpassed := (taskWaitpid_all hs.inv.tree hs.inv.lists hi h0 hc pid).of_next hk
  have hkept := kept_waitpid hi hrun hk
  have hcpu := hpassed.cpu
  cases r with
  | waits =>
    have hk' := hs.inv.toSound.of_kernel hpassed.tree hpassed.lists hpassed.old
    have hsound : Sound { s with k := k', call := update s.call i (some pid) } :=
      ⟨hk'.tree, hk'.lists, hk'.magic, by simpa [h0.symm] using hs.inv.call⟩
    exact hs.schedule hsound hkept (.inr hcpu) h
  | noChild =>
    obtain rfl := Outcome.next.inj h
    exact hs.kept hinv hkept hcpu rfl
  | reaped j pid status =>
    obtain rfl := Outcome.next.inj h
    exact hs.kept hinv hkept hcpu rfl

theorem int32_eq {n : ℤ} (h₁ : -(2 ^ 31) ≤ n) (h₂ : n < 2 ^ 31) : int32 n = n := by
  unfold int32
  apply Int.bmod_eq_of_le_mul_two <;> omega

/-- The clock takes a tick from the running task, and `schedule` is called at its last. -/
theorem clockTick_sliced (hs : Sliced s) (hc : s.k.cpu = some i) (h : clockTick s i = .next s') :
    Sliced s' := by
  have hinv := (clockTick_inv hs.inv hc).of_next h
  obtain ⟨m, t, hm, ht⟩ := hs.inv.running
  obtain rfl : m = i := Option.some.inj (hm.symm.trans hc)
  have hrun : t.state = .running := (hs.inv.tree.cpu m t ht).mpr hc
  have hslice := hs.slice m t ht (by simp [hrun])
  have hheld := hs.held m t hc ht
  have hpos := hslice.pos
  have hle := hslice.le
  have hlt := hslice.lt
  have hticks : int32 (t.ticks - 1) = t.ticks - 1 := int32_eq (by omega) (by omega)
  have hs' : Inv { s with
      k := modTask s.k m fun t => { t with ticks := int32 (t.ticks - 1) }, held := s.held + 1 } :=
    modTask_inv hs.inv (fun u => { u with ticks := int32 (u.ticks - 1) })
      (fun u => ⟨rfl, rfl, rfl, rfl⟩) _ _
  have hself : (modTask s.k m fun t => { t with ticks := int32 (t.ticks - 1) }).table m =
      some { t with ticks := t.ticks - 1 } := by
    rw [modTask_table, if_pos rfl, ht, Option.map_some, hticks]
  have hother : ∀ j, j ≠ m → (modTask s.k m fun t =>
      { t with ticks := int32 (t.ticks - 1) }).table j = s.k.table j := by
    intro j hj
    rw [modTask_table, if_neg hj]
  unfold clockTick ticksOf at h
  dsimp only at h
  rw [hself] at h
  split_ifs at h with h0
  · refine schedule_sliced hs'.toSound (.inl ((modTask_cpu ..).trans hc)) (fun j u hu hsleep hj => ?_)
      (fun u hu _ => ?_) h
    · exact hs.slice j u ((hother j hj).symm.trans hu) hsleep
    · obtain rfl := Option.some.inj (hself.symm.trans hu)
      dsimp only at h0 ⊢
      omega
  · obtain rfl := Outcome.next.inj h
    dsimp only at h0
    refine ⟨hs', fun j u hu hsleep => ?_, fun j u hj hu => ?_⟩
    · obtain rfl | hj := eq_or_ne j m
      · obtain rfl := Option.some.inj (hself.symm.trans hu)
        exact ⟨by dsimp only; omega, by dsimp only; omega, hlt⟩
      · exact hs.slice j u ((hother j hj).symm.trans hu) hsleep
    · obtain rfl : j = m := Option.some.inj (hj.symm.trans ((modTask_cpu ..).trans hc))
      obtain rfl := Option.some.inj (hself.symm.trans hu)
      push_cast
      omega

/-- The clock interrupt where nobody is woken. -/
theorem clock_sliced (hs : Sliced s) (hc : s.k.cpu = some i) (hd : due s = false)
    (h : ((clockEntry s i).andThen fun s => clockTick s i) = .next s') : Sliced s' := by
  obtain ⟨s₁, h₁, h⟩ := andThen_eq_next.mp h
  obtain ⟨hi₁, hc₁⟩ := (clockEntry_inv hs.inv hc).of_next h₁
  unfold clockEntry at h₁
  rw [taskWakeup_calm hs.inv hd] at h₁
  obtain ⟨-, h₁⟩ := assert_eq_next.mp h₁
  obtain rfl := Outcome.next.inj h₁
  refine clockTick_sliced (hs.kept hi₁ (fun j u hu hsleep => ?_) (modTask_cpu ..) rfl) hc₁ h
  -- `jiffies` alone has changed so far
  dsimp only at hu
  rw [modTask_table] at hu
  split_ifs at hu
  · obtain ⟨v, hv, rfl⟩ := Option.map_eq_some_iff.mp hu
    exact .inr ⟨v, hv, hsleep, rfl, rfl⟩
  · exact .inr ⟨u, hu, hsleep, rfl, rfl⟩

theorem step_sliced (hs : Sliced s) {a : Act} (hcalm : Calm s a) (h : Step s a s') : Sliced s' := by
  have hinv := (exec_inv hs.inv a).of_next h
  unfold Step exec at h
  cases a with
  | yield =>
    cases hc : s.k.cpu with
    | none => simp [hc] at h
    | some i =>
      rw [hc] at h
      exact hs.schedule hs.inv.toSound (Kept.refl _) (.inl hc) (guard_eq_next.mp h).2
  | clock =>
    cases hc : s.k.cpu with
    | none => simp [hc] at h
    | some i =>
      rw [hc] at h
      exact clock_sliced hs hc hcalm (guard_eq_next.mp h).2
  | block blist state =>
    cases hp : process s with
    | none => simp [hp] at h
    | some it =>
      obtain ⟨i, t⟩ := it
      obtain ⟨hc, h0, hi⟩ := process_eq hp
      simp only [hp] at h
      obtain ⟨hg, h⟩ := guard_eq_next.mp h
      have hstate : state = .blocked ∨ state = .waiting := by simpa using hg
      obtain ⟨k', hk', h⟩ := andThen_eq_next.mp h
      obtain ⟨hs', hc', htable⟩ := (block_all hs.inv hp blist hstate).of_next hk'
      have hrun : t.state = .running := (hs.inv.tree.cpu i t hi).mpr hc
      refine hs.schedule hs' (kept_update hi htable fun _ => ⟨?_, rfl, rfl⟩) (.inr hc') h
      simp [hrun]
  | unblock j =>
    cases hj : s.k.table j with
    | none => simp [hj] at h
    | some u =>
      simp only [hj] at h
      obtain ⟨hg, h⟩ := guard_eq_next.mp h
      obtain ⟨k', hk', h⟩ := andThen_eq_next.mp h
      obtain rfl := Outcome.next.inj h
      obtain ⟨htable, hcpu⟩ := taskUnblock_spec hk'
      refine hs.kept hinv (kept_update hj htable fun _ => ⟨?_, rfl, rfl⟩) hcpu rfl
      have : u.state = .blocked ∨ u.state = .waiting := by simpa using hg
      rcases this with h | h <;> simp [h]
  | sleep ms =>
    cases hp : process s with
    | none => simp [hp] at h
    | some it =>
      obtain ⟨i, t⟩ := it
      obtain ⟨hc, h0, hi⟩ := process_eq hp
      simp only [hp] at h
      obtain ⟨k', ticks, heq, hs', hc', htable, -⟩ := taskSleep_eq hs.inv hp ms
      rw [heq] at h
      exact hs.schedule hs' (kept_update hi htable fun h => absurd rfl h) (.inr hc') h
  | wakeup =>
    rw [taskWakeup_calm hs.inv hcalm] at h
    obtain rfl := Outcome.next.inj h
    exact hs
  | fork =>
    cases hp : process s with
    | none => simp [hp] at h
    | some it =>
      obtain ⟨i, t⟩ := it
      obtain ⟨hc, h0, hi⟩ := process_eq hp
      simp only [hp] at h
      obtain ⟨⟨k', j⟩, hk', h⟩ := andThen_eq_next.mp (guard_eq_next.mp h).2
      obtain rfl := Outcome.next.inj h
      obtain ⟨hrun, -, hnone, rfl⟩ := taskFork_spec hk'
      have hslice := hs.slice i t hi (by simp [hrun])
      refine hs.kept hinv (fun m u hu hsleep => ?_) rfl rfl
      rcases (fork_table hnone m u).mp hu with ⟨rfl, rfl⟩ | hu
      · refine .inl ⟨hnone, ?_, le_refl _, hslice.lt⟩
        exact hslice.pos.trans hslice.le
      · exact .inr ⟨u, hu, hsleep, rfl, rfl⟩
  | exit status =>
    cases hp : process s with
    | none => simp [hp] at h
    | some it =>
      obtain ⟨i, t⟩ := it
      obtain ⟨hc, h0, hi⟩ := process_eq hp
      simp only [hp] at h
      obtain ⟨k', hk', h⟩ := andThen_eq_next.mp h
      obtain ⟨hs', hc'⟩ := (exit_all hs.inv hp status).of_next hk'
      exact hs.schedule hs' (kept_exit hs.inv.tree hi hk') (.inr hc') h
  | waitpid pid =>
    cases hp : process s with
    | none => simp [hp] at h
    | some it =>
      obtain ⟨i, t⟩ := it
      obtain ⟨hc, h0, hi⟩ := process_eq hp
      simp only [hp] at h
      exact waitPass_sliced hs hc h0 hi h
  | resume =>
    obtain ⟨i, t, hc, hi⟩ := hs.inv.running
    rw [hc] at h
    dsimp only at h
    cases hcall : s.call i with
    | none => simp [hcall] at h
    | some pid =>
      rw [hcall, hi] at h
      refine waitPass_sliced hs hc ?_ hi h
      rintro rfl
      simp [hs.inv.call] at hcall

end Actions

section Runs

theorem sliced_run (h₀ : Init s₀) (hslice : ∀ i t, s₀.k.table i = some t → Slice t)
    (hheld : s₀.held = 0) (h : Run (Guarded Calm Step) s₀ as s) : Sliced s := by
  refine h.invariant (fun _ _ _ hi hs => step_sliced hi hs.1 hs.2) ⟨inv_init h₀,
    fun i t ht _ => hslice i t ht, fun i t _ ht => ?_⟩
  simpa [hheld] using (hslice i t ht).le

/-- `clock_handler` finds a slice to count down in every task that is ready or running, unless
it has just woken one. -/
theorem Sliced.clockEntry (hs : Sliced s) (h : clockEntry s i = .next s₁) :
    (∀ j t, s₁.k.table j = some t → t.state = .ready ∨ t.state = .running →
      1 ≤ t.ticks ∧ t.ticks ≤ t.priority) ↔ due s = false := by
  have hkept : ∀ (k : Kernel) (n j : ℕ) (u : TaskT),
      (modTask k i fun t => { t with jiffies := n }).table j = some u →
      ∃ v, k.table j = some v ∧ u.state = v.state ∧ u.ticks = v.ticks ∧ u.priority = v.priority := by
    intro k n j u hu
    rw [modTask_table] at hu
    split_ifs at hu
    · obtain ⟨v, hv, rfl⟩ := Option.map_eq_some_iff.mp hu
      exact ⟨v, hv, rfl, rfl, rfl⟩
    · exact ⟨u, hu, rfl, rfl, rfl⟩
  unfold Sched.clockEntry at h
  obtain ⟨s₂, h₂, h⟩ := andThen_eq_next.mp h
  obtain ⟨-, h⟩ := assert_eq_next.mp h
  obtain rfl := Outcome.next.inj h
  refine ⟨fun hall => ?_, fun hd j u hu hstate => ?_⟩
  · by_contra hd
    obtain ⟨j, t, ht, hr, h0⟩ := taskWakeup_due hs.inv (by simpa using hd) h₂
    have hj : ((modTask s₂.k i fun t =>
        { t with jiffies := (s₂.jiffies + 1) % 2 ^ 32 }).table j).isSome := by
      rw [modTask_table]
      split_ifs <;> simp [ht]
    obtain ⟨u, hu⟩ := Option.isSome_iff_exists.mp hj
    obtain ⟨v, hv, hs', hticks, -⟩ := hkept _ _ _ _ hu
    obtain rfl : t = v := Option.some.inj (ht.symm.trans hv)
    have := (hall j u hu (.inl (hs'.trans hr))).1
    omega
  · rw [taskWakeup_calm hs.inv hd] at h₂
    obtain rfl := Outcome.next.inj h₂
    obtain ⟨v, hv, hs', hticks, hp⟩ := hkept _ _ _ _ hu
    have hslice := hs.slice j v hv (by rw [← hs']; rcases hstate with h | h <;> simp [h])
    rw [hticks, hp]
    exact ⟨hslice.pos, hslice.le⟩

/-- In a run in which no sleeper has been woken, `clock_handler` finds slices as they should
be exactly where it wakes nobody either, no task has had more ticks than its priority, and
`schedule` passes the processor on while another task is ready. -/
theorem clock_slices (h₀ : Init s₀) (hslice : ∀ i t, s₀.k.table i = some t → Slice t)
    (hheld : s₀.held = 0) (h : Run (Guarded Calm Step) s₀ as s) :
    (∀ i s₁, s.k.cpu = some i → clockEntry s i = .next s₁ →
      ((∀ j t, s₁.k.table j = some t → t.state = .ready ∨ t.state = .running →
        1 ≤ t.ticks ∧ t.ticks ≤ t.priority) ↔ Calm s .clock)) ∧
    (∀ i t, s.k.cpu = some i → s.k.table i = some t → s.held < t.priority) ∧
    (∀ i s₁, s.k.cpu = some i → schedule s i = .next s₁ →
      (∃ j u, j ≠ i ∧ s.k.table j = some u ∧ u.state = .ready) → s₁.k.cpu ≠ some i) := by
  have hs := sliced_run h₀ hslice hheld h
  refine ⟨fun i s₁ _ h₁ => hs.clockEntry h₁, fun i t hc ht => ?_, fun i s₁ hc h₁ => ?_⟩
  · have hrun : t.state = .running := (hs.inv.tree.cpu i t ht).mpr hc
    have hpos := (hs.slice i t ht (by simp [hrun])).pos
    have := hs.held i t hc ht
    omega
  · intro ⟨j, u, hj, hu, hr⟩
    obtain ⟨n, v, k', -, -, hn, hk', hcpu, -⟩ := schedule_next hs.inv.toSound (.inl hc)
    obtain rfl := Outcome.next.inj (hk'.symm.trans h₁)
    rcases hn with hn | hn
    · intro heq
      exact hn (Option.some.inj (hcpu.symm.trans heq))
    · exact absurd (hn j u hu hr) hj

theorem slice_boot : ∀ i t, boot.k.table i = some t → Slice t := by
  intro i t ht
  simp only [boot, Option.ite_none_right_eq_some, Option.some.injEq] at ht
  obtain ⟨-, rfl⟩ := ht
  exact ⟨by norm_num, by norm_num, by norm_num⟩

theorem clock_slices_boot :
    ∃ s, Run (Guarded Calm Step) boot [.fork, .clock, .sleep 10] s ∧ s.k.cpu = some 0 ∧
      ∀ i s₁, s.k.cpu = some i → clockEntry s i = .next s₁ →
        ((∀ j t, s₁.k.table j = some t → t.state = .ready ∨ t.state = .running →
          1 ≤ t.ticks ∧ t.ticks ≤ t.priority) ↔ Calm s .clock) := by
  obtain ⟨s, hs, hp⟩ := run_of_play Calm exec boot [.fork, .clock, .sleep 10]
    (fun s => s.k.cpu == some 0) (by decide +kernel)
  exact ⟨s, hs, by simpa using hp, (clock_slices init_boot slice_boot rfl hs).1⟩

/-- The first process sleeps for one tick; at the second clock interrupt it is woken with no
ticks left. -/
theorem woken_no_slice : ¬ ∀ s₀ as s i s₁, Init s₀ → (∀ i t, s₀.k.table i = some t → Slice t) →
    s₀.held = 0 → Run Step s₀ as s → s.k.cpu = some i → clockEntry s i = .next s₁ →
    ∀ j t, s₁.k.table j = some t → t.state = .ready ∨ t.state = .running →
      1 ≤ t.ticks ∧ t.ticks ≤ t.priority := by
  intro hall
  obtain ⟨s, hs, hp⟩ := run_of_play (fun _ _ => True) exec boot [.sleep 10, .clock]
    (fun s => s.k.cpu == some 0 && (clockEntry s 0).Ends fun s =>
      (s.k.table 1).any fun t => t.state == .ready && t.ticks == 0) (by decide +kernel)
  simp only [Bool.and_eq_true, beq_iff_eq] at hp
  obtain ⟨s₁, h₁, ht⟩ := ends_eq_true.mp hp.2
  obtain ⟨t, ht, hr⟩ := (Option.any_eq_true _ _).mp ht
  simp only [Bool.and_eq_true, beq_iff_eq] at hr
  have := (hall boot _ s 0 s₁ init_boot slice_boot rfl hs.of_guarded hp.1 h₁ 1 t ht (.inl hr.1)).1
  omega

end Runs

end Onix.Sched
