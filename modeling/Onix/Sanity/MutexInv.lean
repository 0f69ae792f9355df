import Onix.Lib.Run
import Onix.Spec.Mutex

/-! The invariant of the lock: who owns it, what `holder` and `repeat` are at
each statement, who is on `waiters`, and that a free mutex with waiters has a
woken task on its way. -/

namespace Onix.Mutex

open Function Outcome

variable {τ : Type*} {s s' : State τ} {t u : τ}

/-- `t` has taken the mutex in `mutex_lock` and not yet entered `mutex_unlock`. -/
def Owns (s : State τ) (t : τ) : Prop :=
  match s.pc t with
  | .out => 0 < s.depth t
  | .locking | .retest | .yielded => False
  | _ => True

/-- `holder`, `repeat` and the nesting depth as the statement of `t` finds them. -/
def At (s : State τ) (t : τ) : Prop :=
  match s.pc t with
  | .out => (s.depth t = 0 → s.lock.holder ≠ some t) ∧
      (0 < s.depth t → s.lock.holder = some t ∧ s.lock.repeats = s.depth t)
  | .locking | .retest | .yielded => s.depth t = 0 ∧ s.lock.holder ≠ some t
  | .locked => s.depth t = 0 ∧ s.lock.holder = none ∧ s.lock.repeats = 0
  | .owned | .counting => s.depth t = 0 ∧ s.lock.holder = some t ∧ s.lock.repeats = 0
  | .nesting => (0 < s.depth t ∧ s.depth t + 1 < 2 ^ 32) ∧ s.lock.holder = some t ∧
      s.lock.repeats = s.depth t
  | .releasing => s.lock.holder = some t ∧ s.lock.repeats = s.depth t + 1
  | .unnesting => 0 < s.depth t ∧ s.lock.holder = some t ∧ s.lock.repeats = s.depth t + 1
  | .last | .dropping => s.depth t = 0 ∧ s.lock.holder = some t ∧ s.lock.repeats = 1
  | .clearing => s.depth t = 0 ∧ s.lock.holder = none ∧ s.lock.repeats = 1
  | .unlocking => s.depth t = 0 ∧ s.lock.holder = none ∧ s.lock.repeats = 0

structure Inv (s : State τ) : Prop where
  cpu : ∀ t, s.state t = .running ↔ s.cpu = some t
  linked : ∀ t, s.linked t = true ↔ s.state t = .blocked
  magic : ∀ t, s.magic t = ONIX_MAGIC
  nodup : s.lock.mutex.waiters.Nodup
  waiters : ∀ t, t ∈ s.lock.mutex.waiters ↔ s.pc t = .retest ∧ s.state t = .blocked
  parked : ∀ t, s.pc t = .retest ∨ s.pc t = .yielded → s.state t ≠ .running
  stmt : ∀ t, At s t
  excl : ∀ t u, Owns s t → Owns s u → t = u
  free : s.lock.mutex.value = false →
    s.lock.holder = none ∧ s.lock.repeats = 0 ∧ ∀ t, ¬ Owns s t
  wake : s.lock.mutex.value = false → s.lock.mutex.waiters ≠ [] →
    ∃ t, s.pc t = .retest ∧ s.state t = .ready

theorem inv_init (h : Init s) : Inv s where
  cpu := h.cpu
  linked := h.linked
  magic := h.magic
  nodup := by simp [h.waiters]
  waiters t := by simp [h.waiters, h.pc]
  parked t := by simp [h.pc]
  stmt t := by simp [At, h.pc, h.depth, h.holder]
  excl t u ht := by simp [Owns, h.pc, h.depth] at ht
  free _ := ⟨h.holder, h.repeats, fun t => by simp [Owns, h.pc, h.depth]⟩
  wake _ hw := absurd h.waiters hw

/-- A task that does not own the lock is not its holder, whatever its statement. -/
theorem at_of_not_owns (hp : s'.pc u = s.pc u) (hd : s'.depth u = s.depth u)
    (hh : s'.lock.holder ≠ some u) (ho : ¬ Owns s u) (ha : At s u) : At s' u := by
  unfold Owns at ho
  unfold At at ha ⊢
  rw [hp, hd]
  cases h : s.pc u <;> simp_all

/-- Where the next test of the loop in `mutex_lock` runs: the running task just
called it, or `schedule` has chosen a woken task. -/
def Testing (s : State τ) (t : τ) : Prop :=
  (s.pc t = .locking ∧ s.state t = .running) ∨
    (s.pc t = .retest ∧ s.state t = .ready ∧ s.cpu = none)

theorem Testing.at (ht : Testing s t) (hi : Inv s) :
    s.depth t = 0 ∧ s.lock.holder ≠ some t ∧ ¬ Owns s t ∧ s.state t ≠ .blocked := by
  have ha := hi.stmt t
  rcases ht with ⟨hp, hs⟩ | ⟨hp, hs, -⟩ <;>
    simp only [At, hp] at ha <;> simp [ha, Owns, hp, hs]

theorem Testing.cpu (ht : Testing s t) (hi : Inv s) (hut : u ≠ t) : s.cpu ≠ some u := by
  rcases ht with ⟨-, hs⟩ | ⟨-, -, hc⟩
  · rw [(hi.cpu t).mp hs]
    simpa using fun h => hut h.symm
  · simp [hc]

variable [DecidableEq τ]

/-- A statement of the owner: only its own place and depth, the holder and the
count change, and the holder stays it or becomes nobody. -/
theorem inv_owner (l : LockT τ) (p : Pc) (d : ℕ) (hi : Inv s) (ho : Owns s t)
    (hrun : s.state t = .running) (hl : l.mutex = s.lock.mutex) (hh : l.holder = none ∨ l.holder = some t)
    (hp : p ≠ .retest ∧ p ≠ .yielded)
    (ha : At (((s.setLock l).goto t p).setDepth t d) t) :
    Inv (((s.setLock l).goto t p).setDepth t d) := by
  set s' := ((s.setLock l).goto t p).setDepth t d with hs'
  have hpc : ∀ u, u ≠ t → s'.pc u = s.pc u := fun u hu => by simp [s', State.setDepth, State.goto, State.setLock, hu]
  have hdep : ∀ u, u ≠ t → s'.depth u = s.depth u := fun u hu => by simp [s', State.setDepth, State.goto, State.setLock, hu]
  have hown : ∀ u, Owns s' u → u = t := by
    intro u hu
    by_contra hne
    exact hne (hi.excl u t (by simpa [Owns, hpc u hne, hdep u hne] using hu) ho)
  have hval : s.lock.mutex.value = true := by
    by_contra hv
    exact (hi.free (by simpa using hv)).2.2 t ho
  refine ⟨hi.cpu, hi.linked, hi.magic, ?_, fun u => ?_, fun u hu => ?_, fun u => ?_, ?_, ?_, ?_⟩
  · simpa [s', State.setDepth, State.goto, State.setLock, hl] using hi.nodup
  · by_cases hu : u = t
    · subst hu
      have := (hi.waiters u).not.mpr (by simp [hrun])
      simpa [s', State.setDepth, State.goto, State.setLock, hl, hp.1] using this
    · rw [hpc u hu]
      simpa [s', State.setDepth, State.goto, State.setLock, hl] using hi.waiters u
  · by_cases hut : u = t
    · subst hut
      simp [s', State.setDepth, State.goto, hp.1, hp.2] at hu
    · rw [hpc u hut] at hu
      exact hi.parked u hu
  · by_cases hut : u = t
    · exact hut ▸ ha
    · refine at_of_not_owns (hpc u hut) (hdep u hut) ?_ (fun h => hut (hi.excl u t h ho)) (hi.stmt u)
      show l.holder ≠ some u
      rcases hh with hh | hh <;> rw [hh]
      · simp
      · simpa using fun h => hut h.symm
  · exact fun u v hu hv => (hown u hu).trans (hown v hv).symm
  · intro hv
    have : s.lock.mutex.value = false := by simpa [s', State.setDepth, State.goto, State.setLock, hl] using hv
    simp [hval] at this
  · intro hv
    have : s.lock.mutex.value = false := by simpa [s', State.setDepth, State.goto, State.setLock, hl] using hv
    simp [hval] at this

theorem setDepth_self (s : State τ) (t : τ) : s.setDepth t (s.depth t) = s := by
  simp [State.setDepth]

/-- The owner's statements that leave the nesting depth as it is. -/
theorem inv_owner_goto (l : LockT τ) (p : Pc) (hi : Inv s) (ho : Owns s t)
    (hrun : s.state t = .running) (hl : l.mutex = s.lock.mutex)
    (hh : l.holder = none ∨ l.holder = some t) (hp : p ≠ .retest ∧ p ≠ .yielded)
    (ha : At ((s.setLock l).goto t p) t) : Inv ((s.setLock l).goto t p) := by
  have h := setDepth_self ((s.setLock l).goto t p) t
  rw [← h]
  exact inv_owner l p (s.depth t) hi ho hrun hl hh hp (h.symm ▸ ha)

/-- A call of `lock_acquire` by a task that is not the holder moves only that task. -/
theorem inv_locking (hi : Inv s) (hpc : s.pc t = .out) (hd : s.depth t = 0)
    (hrun : s.state t = .running) : Inv (s.goto t .locking) := by
  have hh : s.lock.holder ≠ some t := by
    have := hi.stmt t
    simp only [At, hpc] at this
    exact this.1 hd
  have hown : ∀ u, Owns (s.goto t .locking) u ↔ Owns s u := by
    intro u
    by_cases hu : u = t
    · subst hu
      simp [Owns, State.goto, hpc, hd]
    · simp [Owns, State.goto, hu]
  refine ⟨hi.cpu, hi.linked, hi.magic, hi.nodup, fun u => ?_, fun u hu => ?_, fun u => ?_, ?_, ?_, ?_⟩
  · by_cases hu : u = t
    · subst hu
      have := (hi.waiters u).not.mpr (by simp [hpc])
      simpa [State.goto] using this
    · simpa [State.goto, hu] using hi.waiters u
  · by_cases hut : u = t
    · subst hut
      simp [State.goto] at hu
    · exact hi.parked u (by simpa [State.goto, hut] using hu)
  · by_cases hu : u = t
    · subst hu
      simpa [At, State.goto] using ⟨hd, hh⟩
    · simpa [At, State.goto, hu] using hi.stmt u
  · intro u v hu hv
    exact hi.excl u v ((hown u).mp hu) ((hown v).mp hv)
  · intro hv
    obtain ⟨h1, h2, h3⟩ := hi.free hv
    exact ⟨h1, h2, fun u hu => h3 u ((hown u).mp hu)⟩
  · intro hv hw
    obtain ⟨u, hu, hr⟩ := hi.wake hv hw
    have hut : u ≠ t := by
      rintro rfl
      simp [hpc] at hu
    exact ⟨u, by simpa [State.goto, hut] using hu, hr⟩

/-- The state in which `t` has left the loop of `mutex_lock` with the mutex. -/
def taken (s : State τ) (t : τ) : State τ :=
  { s with
    lock := { s.lock with mutex := { s.lock.mutex with value := true } }
    pc := update s.pc t .locked
    state := update s.state t .running
    cpu := some t }

/-- The state in which `t` waits at the head of `waiters`. -/
def queued (s : State τ) (t : τ) : State τ :=
  { s with
    lock := { s.lock with
      mutex := { s.lock.mutex with waiters := t :: s.lock.mutex.waiters } }
    pc := update s.pc t .retest
    linked := update s.linked t true
    state := update s.state t .blocked
    cpu := none }

/-- The test finds the mutex free: the task takes it. -/
theorem inv_take (hi : Inv s) (ht : Testing s t) (hv : s.lock.mutex.value = false) :
    Inv (taken s t) := by
  obtain ⟨hd, -, -, hb⟩ := ht.at hi
  obtain ⟨hh, hr, hno⟩ := hi.free hv
  have hw : t ∉ s.lock.mutex.waiters := (hi.waiters t).not.mpr fun h => hb h.2
  have hl : s.linked t = false := by simpa using (hi.linked t).not.mpr hb
  have hcpu : ∀ u, u ≠ t → s.state u ≠ .running := fun u hu h =>
    ht.cpu hi hu ((hi.cpu u).mp h)
  refine ⟨fun u => ?_, fun u => ?_, hi.magic, hi.nodup, fun u => ?_, fun u hu => ?_, fun u => ?_,
    fun u v hu hv => ?_, by simp [taken], by simp [taken]⟩
  · by_cases hu : u = t
    · simp [taken, hu]
    · simpa [taken, hu, Ne.symm hu] using hcpu u hu
  · by_cases hu : u = t
    · simp [taken, hu, hl]
    · simpa [taken, hu] using hi.linked u
  · by_cases hu : u = t
    · simp [taken, hu, hw]
    · simpa [taken, hu] using hi.waiters u
  · by_cases hut : u = t
    · simp [taken, hut] at hu
    · simpa [taken, hut] using hcpu u hut
  · by_cases hu : u = t
    · subst hu
      simp [taken, At, hd, hh, hr]
    · exact at_of_not_owns (s := s) (by simp [taken, hu]) rfl (by simp [taken, hh]) (hno u) (hi.stmt u)
  · have hown : ∀ w, Owns (taken s t) w → w = t := by
      intro w hw
      by_contra hne
      exact hno w (by simpa [Owns, taken, hne] using hw)
    exact (hown u hu).trans (hown v hv).symm

/-- The test finds the mutex held: the task goes to the head of `waiters`. -/
theorem inv_taskBlock (hi : Inv s) (ht : Testing s t) (hv : s.lock.mutex.value = true) :
    Inv (queued s t) := by
  obtain ⟨hd, hh, hno, hb⟩ := ht.at hi
  have hw : t ∉ s.lock.mutex.waiters := (hi.waiters t).not.mpr fun h => hb h.2
  have hcpu : ∀ u, u ≠ t → s.state u ≠ .running := fun u hu h =>
    ht.cpu hi hu ((hi.cpu u).mp h)
  refine ⟨fun u => ?_, fun u => ?_, hi.magic, by simp [queued, hw, hi.nodup], fun u => ?_,
    fun u hu => ?_, fun u => ?_, fun u v hu hv => ?_, by simp [queued, hv], by simp [queued, hv]⟩
  · by_cases hu : u = t
    · simp [queued, hu]
    · simpa [queued, hu] using hcpu u hu
  · by_cases hu : u = t
    · simp [queued, hu]
    · simpa [queued, hu] using hi.linked u
  · by_cases hu : u = t
    · simp [queued, hu]
    · simpa [queued, hu] using hi.waiters u
  · by_cases hut : u = t
    · simp [queued, hut]
    · simpa [queued, hut] using hcpu u hut
  · by_cases hu : u = t
    · subst hu
      simp [queued, At, hd, hh]
    · simpa [queued, At, hu] using hi.stmt u
  · have hown : ∀ w, Owns (queued s t) w → Owns s w := by
      intro w hw
      by_cases hwt : w = t
      · simp [Owns, queued, hwt] at hw
      · simpa [Owns, queued, hwt] using hw
    exact hi.excl u v (hown u hu) (hown v hv)

theorem all_mutexLock (hi : Inv s) (ht : Testing s t) :
    All Inv (mutexLock { s with state := update s.state t .running, cpu := some t } t) := by
  obtain ⟨-, -, -, hb⟩ := ht.at hi
  have hw : t ∉ s.lock.mutex.waiters := (hi.waiters t).not.mpr fun h => hb h.2
  have hl : s.linked t = false := by simpa using (hi.linked t).not.mpr hb
  unfold mutexLock
  by_cases hv : s.lock.mutex.value = true
  · rw [if_pos hv]
    refine all_assert (by simpa [State.goto] using hl) (all_assert (by simpa [State.goto] using hw) ?_)
    simpa [All, State.goto, queued] using inv_taskBlock hi ht hv
  · rw [if_neg hv]
    have hv : s.lock.mutex.value = false := by simpa using hv
    refine all_assert (by simp [hv]) ?_
    exact inv_take hi ht hv

/-- `task_yield` or the clock: the running task becomes ready. -/
theorem inv_yieldCpu (hi : Inv s) (hrun : s.state t = .running) : Inv (yieldCpu s t) := by
  have hcpu : ∀ u, u ≠ t → s.state u ≠ .running := fun u hu h => by
    have := ((hi.cpu t).mp hrun).symm.trans ((hi.cpu u).mp h)
    exact hu (by simpa using this.symm)
  refine ⟨fun u => ?_, fun u => ?_, hi.magic, hi.nodup, fun u => ?_, fun u hu => ?_, hi.stmt,
    hi.excl, hi.free, fun hv hw => ?_⟩
  · by_cases hu : u = t
    · simp [yieldCpu, hu]
    · simpa [yieldCpu, hu] using hcpu u hu
  · by_cases hu : u = t
    · subst hu
      simpa [yieldCpu, hrun] using hi.linked u
    · simpa [yieldCpu, hu] using hi.linked u
  · by_cases hu : u = t
    · subst hu
      simpa [yieldCpu, hrun] using hi.waiters u
    · simpa [yieldCpu, hu] using hi.waiters u
  · by_cases hut : u = t
    · simp [yieldCpu, hut]
    · simpa [yieldCpu, hut] using hcpu u hut
  · obtain ⟨u, hu, hr⟩ := hi.wake hv hw
    have hut : u ≠ t := by
      rintro rfl
      simp [hrun] at hr
    exact ⟨u, hu, by simpa [yieldCpu, hut] using hr⟩

/-- `mutex_unlock` with nobody waiting: the mutex is free. -/
theorem inv_unlock_nil (hi : Inv s) (hpc : s.pc t = .unlocking) (hrun : s.state t = .running)
    (hw : s.lock.mutex.waiters = []) :
    Inv ((s.setLock { s.lock with mutex := { s.lock.mutex with value := false } }).goto t .out) := by
  have ha := hi.stmt t
  simp only [At, hpc] at ha
  obtain ⟨hd, hh, hr⟩ := ha
  have ho : Owns s t := by simp [Owns, hpc]
  have hno : ∀ u, ¬ Owns ((s.setLock { s.lock with
      mutex := { s.lock.mutex with value := false } }).goto t .out) u := by
    intro u hu
    by_cases hut : u = t
    · subst hut
      simp [Owns, State.goto, State.setLock, hd] at hu
    · exact hut (hi.excl u t (by simpa [Owns, State.goto, State.setLock, hut] using hu) ho)
  refine ⟨hi.cpu, hi.linked, hi.magic, by simp [State.goto, State.setLock, hw], fun u => ?_,
    fun u hu => ?_, fun u => ?_, fun u _ hu _ => absurd hu (hno u), fun _ => ⟨hh, hr, hno⟩,
    fun _ h => absurd hw h⟩
  · by_cases hu : u = t
    · simp [State.goto, State.setLock, hw, hu]
    · simpa [State.goto, State.setLock, hu] using hi.waiters u
  · by_cases hut : u = t
    · simp [State.goto, hut] at hu
    · exact hi.parked u (by simpa [State.goto, State.setLock, hut] using hu)
  · by_cases hu : u = t
    · subst hu
      simp [At, State.goto, State.setLock, hd, hh]
    · refine at_of_not_owns (s := s) (by simp [State.goto, State.setLock, hu]) rfl
        (by simp [State.goto, State.setLock, hh]) (fun h => hu (hi.excl u t h ho)) (hi.stmt u)

/-- The state in which `t` has unlocked the mutex and made the oldest waiter `w`
ready, at its `task_yield`. -/
def woken (s : State τ) (t w : τ) : State τ :=
  { s with
    lock := { s.lock with
      mutex := { value := false, waiters := s.lock.mutex.waiters.dropLast } }
    linked := update s.linked w false
    state := update s.state w .ready
    pc := update s.pc t .yielded }

/-- `mutex_unlock` with waiters: the oldest one is ready and has to test again. -/
theorem inv_woken {w : τ} (hi : Inv s) (hpc : s.pc t = .unlocking) (hrun : s.state t = .running)
    (hw : s.lock.mutex.waiters.getLast? = some w) : Inv (yieldCpu (woken s t w) t) := by
  have ha := hi.stmt t
  simp only [At, hpc] at ha
  obtain ⟨hd, hh, hr⟩ := ha
  have ho : Owns s t := by simp [Owns, hpc]
  have hl : s.lock.mutex.waiters = s.lock.mutex.waiters.dropLast ++ [w] := by
    obtain ⟨ys, hys⟩ := List.getLast?_eq_some_iff.mp hw
    simp [hys]
  have hnd := hi.nodup
  rw [hl, List.nodup_append] at hnd
  have hwmem : w ∉ s.lock.mutex.waiters.dropLast := fun h =>
    hnd.2.2 w h w (by simp) rfl
  have hmem : ∀ u, u ∈ s.lock.mutex.waiters ↔ u ∈ s.lock.mutex.waiters.dropLast ∨ u = w := by
    intro u
    conv_lhs => rw [hl]
    simp
  obtain ⟨hwp, hws⟩ := (hi.waiters w).mp ((hmem w).mpr (Or.inr rfl))
  have hwt : w ≠ t := by
    rintro rfl
    simp [hpc] at hwp
  have hcpu : ∀ u, u ≠ t → s.state u ≠ .running := fun u hu h => by
    have := ((hi.cpu t).mp hrun).symm.trans ((hi.cpu u).mp h)
    exact hu (by simpa using this.symm)
  have hno : ∀ u, ¬ Owns (yieldCpu (woken s t w) t) u := by
    intro u hu
    by_cases hut : u = t
    · subst hut
      simp [Owns, woken, yieldCpu] at hu
    · exact hut (hi.excl u t (by simpa [Owns, woken, yieldCpu, hut] using hu) ho)
  refine ⟨fun u => ?_, fun u => ?_, hi.magic, hnd.1, fun u => ?_,
    fun u hu => ?_, fun u => ?_, fun u _ hu _ => absurd hu (hno u), fun _ => ⟨hh, hr, hno⟩,
    fun _ _ => ⟨w, ?_, ?_⟩⟩
  · by_cases hu : u = t
    · simp [yieldCpu, hu]
    · by_cases huw : u = w
      · simp [yieldCpu, woken, huw, hwt]
      · simpa [yieldCpu, woken, hu, huw] using hcpu u hu
  · by_cases hu : u = t
    · subst hu
      simpa [yieldCpu, woken, hwt.symm, hrun] using hi.linked u
    · by_cases huw : u = w
      · simp [yieldCpu, woken, huw, hwt]
      · simpa [yieldCpu, woken, hu, huw] using hi.linked u
  · by_cases hu : u = t
    · subst hu
      have := (hmem u).not.mp ((hi.waiters u).not.mpr (by simp [hpc]))
      simp only [not_or] at this
      simp [yieldCpu, woken, this.1]
    · by_cases huw : u = w
      · subst huw
        simp [yieldCpu, woken, hwmem, hu]
      · have := hi.waiters u
        rw [hmem u] at this
        simpa [yieldCpu, woken, hu, huw] using this
  · by_cases hut : u = t
    · simp [yieldCpu, hut]
    · by_cases huw : u = w
      · simp [yieldCpu, woken, huw, hwt]
      · simpa [yieldCpu, woken, hut, huw] using hcpu u hut
  · by_cases hu : u = t
    · subst hu
      simp [At, yieldCpu, woken, hd, hh]
    · exact at_of_not_owns (s := s) (by simp [yieldCpu, woken, hu]) rfl
        (by simp [yieldCpu, woken, hh]) (fun h => hu (hi.excl u t h ho)) (hi.stmt u)
  · simpa [yieldCpu, woken, hwt] using hwp
  · simp [yieldCpu, woken, hwt]

theorem all_mutexUnlock (hi : Inv s) (hpc : s.pc t = .unlocking) (hrun : s.state t = .running) :
    All Inv (mutexUnlock s t) := by
  have hv : s.lock.mutex.value = true := by
    by_contra hv
    exact (hi.free (by simpa using hv)).2.2 t (by simp [Owns, hpc])
  unfold mutexUnlock
  refine all_assert (by simp [hv]) (all_assert (by simp [hv]) ?_)
  simp only [State.setLock]
  cases hw : s.lock.mutex.waiters.getLast? with
  | none =>
    have hnil : s.lock.mutex.waiters = [] := by simpa using hw
    simpa [All, State.setLock, hv] using inv_unlock_nil hi hpc hrun hnil
  | some w =>
    have hmem : w ∈ s.lock.mutex.waiters := List.mem_of_getLast? hw
    have hlw : s.linked w = true := (hi.linked w).mpr ((hi.waiters w).mp hmem).2
    refine all_assert (by simp [hi.magic w]) ?_
    simpa [taskUnblock, Outcome.assert, All, State.goto, hlw, hv, woken] using inv_woken hi hpc hrun hw

end Onix.Mutex
