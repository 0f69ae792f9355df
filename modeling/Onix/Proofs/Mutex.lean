import Onix.Sanity.MutexInv

/-! The reentrant lock under every interleaving: mutual exclusion, the meaning
of `holder` and `repeat`, no failed assertion, no lost wakeup. `repeat` is a
`u32`, so it stands for the depth as long as nobody nests 2^32 calls. -/

namespace Onix.Mutex

open Function Outcome

variable {τ : Type*} [DecidableEq τ] {s s₀ : State τ} {t : τ} {as : List (Act τ)}

/-- `lock_acquire` is called at a depth that `repeat` can still count. -/
def Shallow (s : State τ) (a : Act τ) : Prop :=
  match a with
  | .acquire => ∀ t, s.cpu = some t → s.depth t + 1 < 2 ^ 32
  | _ => True

theorem all_statement (hi : Inv s) (hrun : s.state t = .running) : All Inv (statement s t) := by
  have ha := hi.stmt t
  have ho := fun h : Owns s t => h
  unfold statement
  cases hpc : s.pc t <;> simp only [At, hpc] at ha <;> simp only [Owns, hpc] at ho
  case out => trivial
  case retest => trivial
  case yielded => trivial
  case locking =>
    have := all_mutexLock hi (Or.inl ⟨hpc, hrun⟩)
    rwa [← (hi.cpu t).mp hrun, ← hrun, update_eq_self] at this
  case locked =>
    refine inv_owner_goto { s.lock with holder := some t } .owned hi (by simp [Owns, hpc]) hrun
      rfl (Or.inr rfl) (by simp) ?_
    simp [At, State.goto, State.setLock, ha]
  case owned =>
    refine all_assert (by simp [ha]) ?_
    refine inv_owner_goto s.lock .counting hi (by simp [Owns, hpc]) hrun rfl (Or.inr ha.2.1)
      (by simp) ?_
    simp [At, State.goto, State.setLock, ha]
  case counting =>
    refine inv_owner { s.lock with repeats := 1 } .out (s.depth t + 1) hi (by simp [Owns, hpc])
      hrun rfl (Or.inr ha.2.1) (by simp) ?_
    simp [At, State.goto, State.setLock, State.setDepth, ha]
  case nesting =>
    refine inv_owner { s.lock with repeats := (s.lock.repeats + 1) % 2 ^ 32 } .out
      (s.depth t + 1) hi (by simp [Owns, hpc]) hrun rfl (Or.inr ha.2.1) (by simp) ?_
    have hmod : (s.lock.repeats + 1) % 2 ^ 32 = s.depth t + 1 := by
      rw [ha.2.2, Nat.mod_eq_of_lt ha.1.2]
    simp only [At, State.goto, State.setLock, State.setDepth, update_self, hmod]
    exact ⟨fun h => absurd h (by omega), fun _ => ⟨ha.2.1, trivial⟩⟩
  case releasing =>
    refine inv_owner_goto s.lock _ hi (by simp [Owns, hpc]) hrun rfl (Or.inr ha.1)
      (by split_ifs <;> simp) ?_
    by_cases hd : s.depth t = 0
    · simp [At, State.goto, State.setLock, ha, hd]
    · have hd : 0 < s.depth t := by omega
      simp [At, State.goto, State.setLock, ha, hd]
  case unnesting =>
    refine inv_owner_goto { s.lock with repeats := s.lock.repeats - 1 } .out hi
      (by simp [Owns, hpc]) hrun rfl (Or.inr ha.2.1) (by simp) ?_
    simp only [At, State.goto, State.setLock, update_self]
    exact ⟨fun h => absurd h (by omega), fun _ => ⟨ha.2.1, by omega⟩⟩
  case last =>
    refine all_assert (by simp [ha]) ?_
    refine inv_owner_goto s.lock .dropping hi (by simp [Owns, hpc]) hrun rfl (Or.inr ha.2.1)
      (by simp) ?_
    simp [At, State.goto, State.setLock, ha]
  case dropping =>
    refine inv_owner_goto { s.lock with holder := none } .clearing hi (by simp [Owns, hpc]) hrun
      rfl (Or.inl rfl) (by simp) ?_
    simp [At, State.goto, State.setLock, ha]
  case clearing =>
    refine inv_owner_goto { s.lock with repeats := 0 } .unlocking hi (by simp [Owns, hpc]) hrun
      rfl (Or.inl ha.2.1) (by simp) ?_
    simp [At, State.goto, State.setLock, ha]
  case unlocking => exact all_mutexUnlock hi hpc hrun

theorem all_acquire (hi : Inv s) (hrun : s.state t = .running) (hpc : s.pc t = .out)
    (hd : s.depth t + 1 < 2 ^ 32) :
    Inv (s.goto t (if s.lock.holder ≠ some t then .locking else .nesting)) := by
  have ha := hi.stmt t
  simp only [At, hpc] at ha
  by_cases h0 : s.depth t = 0
  · rw [if_pos (ha.1 h0)]
    exact inv_locking hi hpc h0 hrun
  · have h0 : 0 < s.depth t := by omega
    obtain ⟨hh, hr⟩ := ha.2 h0
    rw [if_neg (by simp [hh])]
    refine inv_owner_goto s.lock .nesting hi (by simpa [Owns, hpc] using h0) hrun rfl
      (Or.inr hh) (by simp) ?_
    simp only [At, State.goto, State.setLock, update_self]
    exact ⟨⟨h0, hd⟩, hh, hr⟩

theorem all_release (hi : Inv s) (hrun : s.state t = .running) (hpc : s.pc t = .out)
    (hd : 0 < s.depth t) :
    s.lock.holder = some t ∧ Inv ((s.goto t .releasing).setDepth t (s.depth t - 1)) := by
  have ha := hi.stmt t
  simp only [At, hpc] at ha
  obtain ⟨hh, hr⟩ := ha.2 hd
  refine ⟨hh, inv_owner s.lock .releasing (s.depth t - 1) hi (by simpa [Owns, hpc] using hd) hrun
    rfl (Or.inr hh) (by simp) ?_⟩
  simp only [At, State.goto, State.setLock, State.setDepth, update_self]
  exact ⟨hh, by omega⟩

/-- The running task leaves the processor for a list outside the lock code. -/
theorem inv_block (hi : Inv s) (hrun : s.state t = .running) (hpc : s.pc t = .out) :
    Inv { s with
      linked := update s.linked t true, state := update s.state t .blocked, cpu := none } := by
  have hcpu : ∀ u, u ≠ t → s.state u ≠ .running := fun u hu h => by
    have := ((hi.cpu t).mp hrun).symm.trans ((hi.cpu u).mp h)
    exact hu (by simpa using this.symm)
  refine ⟨fun u => ?_, fun u => ?_, hi.magic, hi.nodup, fun u => ?_, fun u hu => ?_, hi.stmt,
    hi.excl, hi.free, fun hv hw => ?_⟩ <;> try by_cases hut : u = t
  · simp [hut]
  · simpa [hut] using hcpu u hut
  · simp [hut]
  · simpa [hut] using hi.linked u
  · have := hi.waiters t
    simpa [hut, hpc] using this
  · simpa [hut] using hi.waiters u
  · simp [hut]
  · simpa [hut] using hcpu u hut
  · obtain ⟨u, hu, hr⟩ := hi.wake hv hw
    have hut : u ≠ t := by
      rintro rfl
      simp [hrun] at hr
    exact ⟨u, hu, by simpa [hut] using hr⟩

/-- A task outside the lock code changes between blocked, ready and running
with the processor following it. -/
theorem inv_wake (hi : Inv s) (hb : s.state t = .blocked) (hpc : s.pc t = .out) :
    Inv { s with linked := update s.linked t false, state := update s.state t .ready } := by
  refine ⟨fun u => ?_, fun u => ?_, hi.magic, hi.nodup, fun u => ?_, fun u hu => ?_, hi.stmt,
    hi.excl, hi.free, fun hv hw => ?_⟩ <;> try by_cases hut : u = t
  · have := hi.cpu t
    simpa [hut, hb] using this
  · simpa [hut] using hi.cpu u
  · simp [hut]
  · simpa [hut] using hi.linked u
  · have := hi.waiters t
    simpa [hut, hpc] using this
  · simpa [hut] using hi.waiters u
  · simp [hut]
  · simpa [hut] using hi.parked u hu
  · obtain ⟨u, hu, hr⟩ := hi.wake hv hw
    have hut : u ≠ t := by
      rintro rfl
      simp [hb] at hr
    exact ⟨u, hu, by simpa [hut] using hr⟩

/-- `schedule` switches to a ready task at place `p` that is not in the loop of
`mutex_lock`. -/
theorem inv_dispatch (hi : Inv s) (hc : s.cpu = none) (hr : s.state t = .ready)
    (hpc : s.pc t ≠ .retest ∧ s.pc t ≠ .yielded) :
    Inv { s with state := update s.state t .running, cpu := some t } := by
  have hcpu : ∀ u, s.state u ≠ .running := fun u h => by
    simpa [hc] using (hi.cpu u).mp h
  refine ⟨fun u => ?_, fun u => ?_, hi.magic, hi.nodup, fun u => ?_, fun u hu => ?_, hi.stmt,
    hi.excl, hi.free, fun hv hw => ?_⟩ <;> try by_cases hut : u = t
  · simp [hut]
  · simpa [hut, Ne.symm hut] using hcpu u
  · have := hi.linked t
    simpa [hut, hr] using this
  · simpa [hut] using hi.linked u
  · have := hi.waiters t
    simpa [hut, hpc.1] using this
  · simpa [hut] using hi.waiters u
  · simp [hut, hpc.1, hpc.2] at hu
  · simpa [hut] using hcpu u
  · obtain ⟨u, hu, hr'⟩ := hi.wake hv hw
    have hut : u ≠ t := by
      rintro rfl
      exact hpc.1 hu
    exact ⟨u, hu, by simpa [hut] using hr'⟩

/-- A task at the end of `mutex_unlock` is outside again. -/
theorem inv_goto_out (hi : Inv s) (hpc : s.pc t = .yielded) : Inv (s.goto t .out) := by
  have ha := hi.stmt t
  simp only [At, hpc] at ha
  have hown : ∀ u, Owns (s.goto t .out) u → Owns s u := by
    intro u hu
    by_cases hut : u = t
    · subst hut
      simp [Owns, State.goto, ha.1] at hu
    · simpa [Owns, State.goto, hut] using hu
  refine ⟨hi.cpu, hi.linked, hi.magic, hi.nodup, fun u => ?_, fun u hu => ?_, fun u => ?_,
    fun u v hu hv => hi.excl u v (hown u hu) (hown v hv), fun hv => ?_, fun hv hw => ?_⟩
  · by_cases hut : u = t
    · have := hi.waiters t
      simpa [State.goto, hut, hpc] using this
    · simpa [State.goto, hut] using hi.waiters u
  · by_cases hut : u = t
    · simp [State.goto, hut] at hu
    · exact hi.parked u (by simpa [State.goto, hut] using hu)
  · by_cases hut : u = t
    · subst hut
      simp [At, State.goto, ha]
    · simpa [At, State.goto, hut] using hi.stmt u
  · obtain ⟨h1, h2, h3⟩ := hi.free hv
    exact ⟨h1, h2, fun u hu => h3 u (hown u hu)⟩
  · obtain ⟨u, hu, hr⟩ := hi.wake hv hw
    have hut : u ≠ t := by
      rintro rfl
      simp [hpc] at hu
    exact ⟨u, by simpa [State.goto, hut] using hu, hr⟩

theorem all_dispatch (hi : Inv s) : All Inv (exec s (.dispatch t)) := by
  refine all_guard fun hg => ?_
  obtain ⟨hc, hr⟩ : s.cpu = none ∧ s.state t = .ready := by simpa using hg
  refine all_assert (by simp [hi.magic t]) ?_
  dsimp only
  cases hpc : s.pc t
  case retest => exact all_mutexLock hi (Or.inr ⟨hpc, hr, hc⟩)
  case yielded =>
    have hi' := inv_goto_out hi hpc
    exact inv_dispatch hi' hc hr (by simp [State.goto])
  all_goals exact inv_dispatch hi hc hr (by simp [hpc])

/-- One action: no assertion fails, and the invariant survives. -/
theorem all_exec (hi : Inv s) (a : Act τ) (hs : Shallow s a) : All Inv (exec s a) := by
  cases a with
  | dispatch t => exact all_dispatch hi
  | wake t =>
    refine all_guard fun hg => ?_
    obtain ⟨hb, hpc⟩ : s.state t = .blocked ∧ s.pc t = .out := by simpa using hg
    exact inv_wake hi hb hpc
  | acquire =>
    unfold exec
    cases hc : s.cpu with
    | none => trivial
    | some t =>
      refine all_guard fun hg => ?_
      exact all_acquire hi ((hi.cpu t).mpr hc) (by simpa using hg) (hs t hc)
  | release =>
    unfold exec
    cases hc : s.cpu with
    | none => trivial
    | some t =>
      refine all_guard fun hg => ?_
      obtain ⟨hpc, hd⟩ : s.pc t = .out ∧ 0 < s.depth t := by simpa using hg
      obtain ⟨hh, hi'⟩ := all_release hi ((hi.cpu t).mpr hc) hpc hd
      exact all_assert (by simp [hh]) hi'
  | step =>
    unfold exec
    cases hc : s.cpu with
    | none => trivial
    | some t => exact all_statement hi ((hi.cpu t).mpr hc)
  | preempt =>
    unfold exec
    cases hc : s.cpu with
    | none => trivial
    | some t => exact inv_yieldCpu hi ((hi.cpu t).mpr hc)
  | block =>
    unfold exec
    cases hc : s.cpu with
    | none => trivial
    | some t =>
      refine all_guard fun hg => ?_
      exact inv_block hi ((hi.cpu t).mpr hc) (by simpa using hg)

theorem inv_run (h₀ : Init s₀) (h : Run (Guarded Shallow Step) s₀ as s) : Inv s :=
  h.invariant (fun _ a _ hi hs => (all_exec hi a hs.1).of_next hs.2) (inv_init h₀)

/-- Every state of every run: one owner at most, `holder` and `repeat` tell it
and its depth, no assertion fails, and a free mutex with waiters has a task off
the list that is ready and tests again. -/
theorem lock_correct (h₀ : Init s₀) (h : Run (Guarded Shallow Step) s₀ as s) :
    (∀ t u, Owns s t → Owns s u → t = u) ∧
    (∀ t, s.pc t = .out → 0 < s.depth t →
      s.lock.holder = some t ∧ s.lock.repeats = s.depth t) ∧
    (∀ a, Shallow s a → exec s a ≠ .failed) ∧
    (s.lock.mutex.value = false → s.lock.mutex.waiters ≠ [] →
      ∃ t, t ∉ s.lock.mutex.waiters ∧ s.state t = .ready ∧ s.pc t = .retest) := by
  have hi := inv_run h₀ h
  refine ⟨hi.excl, fun t hpc hd => ?_, fun a ha => (all_exec hi a ha).ne_failed, fun hv hw => ?_⟩
  · have ha := hi.stmt t
    simp only [At, hpc] at ha
    exact ha.2 hd
  · obtain ⟨t, hpc, hr⟩ := hi.wake hv hw
    exact ⟨t, (hi.waiters t).not.mpr (by simp [hr]), hr, hpc⟩

/-- Tasks that are all ready, with the lock just initialised. -/
def start (τ : Type*) : State τ where
  lock := { holder := none, mutex := { value := false, waiters := [] }, repeats := 0 }
  cpu := none
  state _ := .ready
  linked _ := false
  magic _ := ONIX_MAGIC
  pc _ := .out
  depth _ := 0

theorem init_start (τ : Type*) : Init (start τ) := by
  constructor <;> simp [start]

instance (s : State (Fin 2)) (a : Act (Fin 2)) : Decidable (Shallow s a) := by
  cases a <;> unfold Shallow <;> infer_instance

/-- Task 0 takes the lock and is preempted, task 1 waits for it, task 0 gives it back. -/
def contended : List (Act (Fin 2)) :=
  [.dispatch 0, .acquire, .step, .step, .step, .step, .preempt, .dispatch 1, .acquire, .step,
    .dispatch 0, .release, .step, .step, .step, .step, .step]

theorem lock_correct_contended :
    ∃ s, Run (Guarded Shallow Step) (start (Fin 2)) contended s ∧
      s.lock.mutex.value = false ∧ s.pc 1 = .retest ∧ (∀ t u, Owns s t → Owns s u → t = u) := by
  obtain ⟨s, hs, hp⟩ := run_of_play Shallow exec (start (Fin 2)) contended
    (fun s => !s.lock.mutex.value && s.pc 1 == .retest) (by decide)
  simp only [Bool.and_eq_true, Bool.not_eq_true', beq_iff_eq] at hp
  exact ⟨s, hs, hp.1, hp.2, (lock_correct (init_start _) hs).1⟩

/-- The only task is outside the lock code after `n` calls of `lock_acquire`. -/
def Nested (n : ℕ) (s : State Unit) : Prop :=
  s.cpu = some () ∧ s.pc () = .out ∧ s.lock.holder = some () ∧ s.depth () = n ∧
    s.lock.repeats = n % 2 ^ 32

theorem nested_one : ∃ as s, Run Step (start Unit) as s ∧ Nested 1 s := by
  obtain ⟨s, hs, hp⟩ := run_of_play (fun _ _ => True) exec (start Unit)
    [.dispatch (), .acquire, .step, .step, .step, .step]
    (fun s => s.cpu == some () && s.pc () == .out && s.lock.holder == some () &&
      s.depth () == 1 && s.lock.repeats == 1) (by decide)
  simp only [Bool.and_eq_true, beq_iff_eq] at hp
  obtain ⟨⟨⟨⟨h1, h2⟩, h3⟩, h4⟩, h5⟩ := hp
  exact ⟨_, s, hs.of_guarded, h1, h2, h3, h4, h5⟩

theorem nested_succ {n : ℕ} {s : State Unit} (h : Nested n s) :
    ∃ as t, Run Step s as t ∧ Nested (n + 1) t := by
  obtain ⟨hc, hpc, hh, hd, hr⟩ := h
  have h1 : Step s .acquire (s.goto () .nesting) := by
    simp [Step, exec, hc, hpc, hh, Outcome.guard]
  have h2 : Step (s.goto () .nesting) .step (((s.setLock { s.lock with
      repeats := (s.lock.repeats + 1) % 2 ^ 32 }).goto () .out).setDepth () (s.depth () + 1)) := by
    simp [Step, exec, statement, State.goto, State.setLock, State.setDepth, hc]
  refine ⟨_, _, (Run.single h1).snoc h2, hc, by simp [State.setDepth, State.goto], hh,
    by simp [State.setDepth, hd], ?_⟩
  simp only [State.setDepth, State.goto, State.setLock, hr]
  omega

/-- 2^32 calls nest and `repeat` is back at 0: without a bound on the depth the
count and the depth part. -/
theorem lock_repeat_wraps :
    ¬ ∀ (as : List (Act Unit)) (s : State Unit), Run Step (start Unit) as s →
      ∀ t, s.pc t = .out → 0 < s.depth t → s.lock.repeats = s.depth t := by
  have nested : ∀ n, ∃ as s, Run Step (start Unit) as s ∧ Nested (n + 1) s := by
    intro n
    induction n with
    | zero => exact nested_one
    | succ n ih =>
      obtain ⟨as, s, hs, hn⟩ := ih
      obtain ⟨bs, t, ht, hn'⟩ := nested_succ hn
      exact ⟨as ++ bs, t, hs.trans ht, hn'⟩
  intro h
  obtain ⟨as, s, hs, -, hpc, -, hd, hr⟩ := nested (2 ^ 32 - 1)
  have := h as s hs () hpc (by omega)
  omega

end Onix.Mutex
