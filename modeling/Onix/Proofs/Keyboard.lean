import Onix.Sanity.KeyboardInv

/-! The keyboard queue under any interrupts and any readers: the characters come out in
the order in which they went in, only the oldest are lost and only from a full queue, and
no reader sleeps at characters. -/

namespace Onix.Keyboard

open Function Outcome
open Mutex (TaskState LockT MutexT)

section Invariant

variable {τ : Type*} {s s' s₀ : State τ} {t u w : τ}

/-- The running task has the lock and nobody waits for a character. -/
structure Within (s : State τ) (t : τ) : Prop where
  tasks : Tasks s.cpu s.state s.linked s.pc
  ring : Ring s.fifo s.queued s.delivered s.dropped
  locked : Locked s.lock s.state s.pc (some t)
  waiter : s.waiter = none
  cpu : s.cpu = some t

/-- Nobody but the running task reads. -/
theorem Within.alone (h : Within s t) : s.lock.holder = some t ∧ ∀ u n, s.pc u ≠ .reading n := by
  have hholder : s.lock.holder = some t := (h.locked.holder t).mpr (Or.inl rfl)
  refine ⟨hholder, fun u n hu => ?_⟩
  have heq : t = u := Option.some.inj (hholder.symm.trans (h.locked.reader hu))
  have hout := (h.tasks.running h.cpu).2.1
  rw [heq, hu] at hout
  cases hout

theorem Within.asleep (h : Within s t) : Asleep s.waiter s.undelivered s.state s.pc := by
  rw [h.waiter]
  exact Asleep.nobody h.alone.2

/-- The lock without a holder. -/
theorem Within.released (h : Within s t) :
    Locked ⟨none, { s.lock.mutex with value := false }, 0⟩ s.state s.pc none := by
  refine ⟨fun u => ?_, ?_, fun hn => absurd rfl hn, fun _ => rfl, h.locked.nodup, h.locked.waiters⟩
  · constructor
    · exact fun he => by cases he
    · intro hu
      rcases hu with hu | ⟨n, hn⟩
      · cases hu
      · exact absurd hn (h.alone.2 u n)
  · simp

variable [DecidableEq τ]

/-- The reader sleeps at the empty queue. -/
theorem inv_sleep (h : Within s t) (hempty : s.undelivered = []) (n : ℕ) :
    (taskBlock ({ s with waiter := some t }.goto t (.reading n)) t).All Inv := by
  obtain ⟨hrun, hout, hlink, hone⟩ := h.tasks.running h.cpu
  obtain ⟨hholder, hnobody⟩ := h.alone
  apply all_assert
  · simpa [State.goto] using hlink
  refine ⟨h.tasks.aside h.cpu _ _ (by decide) _ (by simp), h.ring, ?_, ?_, fun hv => ?_⟩
  · refine ⟨fun u => ?_, h.locked.value, h.locked.held, h.locked.free, h.locked.nodup, fun u => ?_⟩
    · dsimp only [State.goto]
      rw [hholder]
      obtain rfl | hne := eq_or_ne u t
      · simp
      · rw [update_of_ne hne]
        refine ⟨fun he => absurd (Option.some.inj he).symm hne, fun hu => ?_⟩
        rcases hu with hu | ⟨n, hn⟩
        · cases hu
        · exact absurd hn (hnobody u n)
    · dsimp only [State.goto]
      rw [h.locked.waiters]
      obtain rfl | hne := eq_or_ne u t
      · simp [hout]
      · rw [update_of_ne hne, update_of_ne hne]
  · refine ⟨fun u => ?_, fun _ => hempty⟩
    dsimp only [State.goto]
    obtain rfl | hne := eq_or_ne u t
    · simp
    · rw [update_of_ne hne, update_of_ne hne]
      refine ⟨fun he => absurd (Option.some.inj he).symm hne, fun hu => ?_⟩
      obtain ⟨⟨n, hn⟩, -⟩ := hu
      exact absurd hn (hnobody u n)
  · have htrue := h.locked.value.mpr (by rw [hholder]; simp)
    exact absurd (hv.symm.trans htrue) Bool.false_ne_true

theorem goto_out (h : s.pc t = .out) : s.goto t .out = s := by
  unfold State.goto
  rw [← h, update_eq_self]

/-- The lock is given back, and the longest waiting task is made ready. -/
theorem inv_release (h : Within s t) : (lockRelease s t).All Inv := by
  obtain ⟨hrun, hout, hlink, hone⟩ := h.tasks.running h.cpu
  obtain ⟨hholder, hnobody⟩ := h.alone
  have hrep := h.locked.held (by rw [hholder]; simp)
  have hvalue := h.locked.value.mpr (by rw [hholder]; simp)
  unfold lockRelease
  apply all_assert
  · simpa using hholder
  rw [if_neg (by omega)]
  apply all_assert
  · simpa using hrep
  unfold mutexUnlock
  apply all_assert
  · simpa using hvalue
  dsimp only
  apply all_assert
  · simp [hvalue]
  rw [hvalue]
  have hfree := h.released
  cases hlast : s.lock.mutex.waiters.getLast? with
  | none =>
    have hnil : s.lock.mutex.waiters = [] := List.getLast?_eq_none_iff.mp hlast
    dsimp only
    rw [goto_out (by exact hout)]
    exact ⟨h.tasks, h.ring, hfree, h.asleep, fun _ hne => absurd hnil hne⟩
  | some w =>
    have hmem : w ∈ s.lock.mutex.waiters := List.mem_of_getLast? hlast
    obtain ⟨⟨n, hn⟩, hst⟩ := (h.locked.waiters w).mp hmem
    have hwt : w ≠ t := by
      rintro rfl
      rw [hrun] at hst
      cases hst
    have hnone : ∀ u n, update s.pc t .yielded u ≠ .reading n := by
      intro u n
      obtain rfl | hne := eq_or_ne u t
      · simp
      · rw [update_of_ne hne]
        exact hnobody u n
    apply all_andThen
    apply all_assert
    · exact (h.tasks.linked w).mpr hst
    refine ⟨(h.tasks.woken hst).yielded h.cpu .yielded, h.ring, ?_, ?_, fun _ _ => ⟨w, n, ?_, ?_⟩⟩
    · refine ⟨fun u => ?_, hfree.value, hfree.held, hfree.free, h.locked.nodup.erase w, fun u => ?_⟩
      · refine ⟨fun he => (by cases he), fun hu => ?_⟩
        rcases hu with hu | ⟨n, hn⟩
        · cases hu
        · exact absurd hn (hnone u n)
      · dsimp only [yieldCpu, State.goto]
        rw [h.locked.nodup.mem_erase_iff, h.locked.waiters]
        obtain rfl | hne := eq_or_ne u t
        · simp [hout]
        · rw [update_of_ne hne, update_of_ne hne]
          obtain rfl | hw := eq_or_ne u w
          · simp
          · simp [hw]
    · dsimp only [yieldCpu, State.goto]
      rw [h.waiter]
      exact Asleep.nobody hnone
    · exact (update_of_ne hwt ..).trans hn
    · exact (update_of_ne hwt ..).trans (update_self ..)

/-- The reader takes what there is, and sleeps or gives the lock back. -/
theorem inv_readLoop (h : Within s t) (n : ℕ) : (readLoop s t n).All Inv := by
  induction n generalizing s with
  | zero => exact inv_release h
  | succ n ih =>
    unfold readLoop
    have hempty := h.ring.holds.empty_iff
    by_cases he : s.fifo.contents = []
    · rw [if_pos (hempty.mpr he)]
      exact inv_sleep h he (n + 1)
    · obtain ⟨ch, fifo, hget, hring⟩ := h.ring.get he
      rw [if_neg (mt hempty.mp he), hget]
      apply ih
      exact ⟨h.tasks, hring, h.locked, h.waiter, h.cpu⟩

/-- The state of the calls apart from the tasks that are on their way to the lock. -/
structure Ready (s : State τ) (t : τ) : Prop where
  tasks : Tasks s.cpu s.state s.linked s.pc
  ring : Ring s.fifo s.queued s.delivered s.dropped
  locked : Locked s.lock s.state s.pc none
  asleep : Asleep s.waiter s.undelivered s.state s.pc
  cpu : s.cpu = some t

/-- `mutex_lock` and all that follows. -/
theorem inv_mutexLock (h : Ready s t) (n : ℕ) : (mutexLock s t n).All Inv := by
  obtain ⟨hrun, hout, hlink, hone⟩ := h.tasks.running h.cpu
  have hnot : t ∉ s.lock.mutex.waiters := by
    rw [h.locked.waiters, hrun]
    simp
  unfold mutexLock
  cases hvalue : s.lock.mutex.value with
  | true =>
    rw [if_pos rfl]
    apply all_assert
    · simpa using hnot
    apply all_assert
    · simpa [State.goto] using hlink
    refine ⟨h.tasks.aside h.cpu _ _ (by decide) _ (by simp), h.ring, ?_, ?_, fun hv => ?_⟩
    · refine ⟨fun u => ?_, h.locked.value, h.locked.held, h.locked.free,
        List.nodup_cons.mpr ⟨hnot, h.locked.nodup⟩, fun u => ?_⟩
      · dsimp only [State.goto]
        rw [h.locked.holder]
        obtain rfl | hne := eq_or_ne u t
        · simp [hout]
        · rw [update_of_ne hne]
      · dsimp only [State.goto]
        rw [List.mem_cons, h.locked.waiters]
        obtain rfl | hne := eq_or_ne u t
        · simp
        · rw [update_of_ne hne, update_of_ne hne]
          simp [hne]
    · refine ⟨fun u => ?_, h.asleep.calm⟩
      dsimp only [State.goto]
      rw [h.asleep.who]
      obtain rfl | hne := eq_or_ne u t
      · simp [hout]
      · rw [update_of_ne hne, update_of_ne hne]
    · exact absurd (hv.symm.trans hvalue) Bool.false_ne_true
  | false =>
    have hfree : s.lock.holder = none := by
      by_contra hne
      exact absurd (hvalue.symm.trans (h.locked.value.mpr hne)) Bool.false_ne_true
    have hnobody : ∀ u n, s.pc u ≠ .reading n := by
      intro u n hu
      exact absurd (hfree.symm.trans (h.locked.reader hu)) (by simp)
    have hwaiter : s.waiter = none := by
      rw [Option.eq_none_iff_forall_ne_some]
      intro u hu
      obtain ⟨⟨n, hn⟩, -⟩ := (h.asleep.who u).mp hu
      exact hnobody u n hn
    rw [if_neg Bool.false_ne_true]
    apply all_assert rfl
    apply all_assert
    · simpa using h.locked.free hfree
    apply inv_readLoop
    refine ⟨h.tasks, h.ring, ⟨fun u => ?_, by simp, fun _ => rfl, fun hn => (by cases hn),
      h.locked.nodup, h.locked.waiters⟩, hwaiter, h.cpu⟩
    constructor
    · exact Or.inl
    · intro hu
      rcases hu with hu | ⟨n, hn⟩
      · exact hu
      · exact absurd hn (hnobody u n)

/-- A task outside the calls is made ready. -/
theorem inv_wake (h : Inv s) (hs : s.state u = .blocked) (hp : s.pc u = .out) :
    (taskUnblock s u).All Inv := by
  have hnot : u ∉ s.lock.mutex.waiters := by
    rw [h.locked.waiters, hp]
    simp
  apply all_assert ((h.tasks.linked u).mpr hs)
  rw [List.erase_of_not_mem hnot]
  refine ⟨h.tasks.woken hs, h.ring, h.locked.other hp _, h.asleep.other hp _, fun hv hne => ?_⟩
  obtain ⟨v, n, hp', hr⟩ := h.coming hv hne
  refine ⟨v, n, hp', ?_⟩
  obtain rfl | hu := eq_or_ne v u
  · exact update_self ..
  · exact (update_of_ne hu ..).trans hr

/-- An interrupt: a character that is queued wakes the reader that sleeps. -/
theorem inv_interrupt (h : Inv s) (code : Byte) : (keyboardHandler s code).All Inv := by
  unfold keyboardHandler
  dsimp only
  cases (scan s.keys code).2 with
  | none => exact ⟨h.tasks, h.ring, h.locked, h.asleep, h.coming⟩
  | some ch =>
    obtain ⟨lost, fifo, hput, -, hring⟩ := h.ring.put ch
    dsimp only
    rw [hput]
    dsimp only
    cases hw : s.waiter with
    | none =>
      have hasleep : Asleep none fifo.contents s.state s.pc := by
        have := h.asleep
        rw [hw] at this
        exact ⟨this.who, fun hne => absurd rfl hne⟩
      exact ⟨h.tasks, hring, h.locked, hasleep, h.coming⟩
    | some w =>
      obtain ⟨⟨n, hn⟩, hst⟩ := (h.asleep.who w).mp hw
      have hnot : w ∉ s.lock.mutex.waiters := by
        rw [h.locked.waiters, hn]
        simp
      apply all_andThen
      apply all_assert ((h.tasks.linked w).mpr hst)
      dsimp only
      rw [List.erase_of_not_mem hnot]
      refine ⟨h.tasks.woken hst, hring, ?_, ⟨fun u => ?_, fun hne => absurd rfl hne⟩,
        fun hv hne => ?_⟩
      · apply h.locked.congr fun _ => Iff.rfl
        intro u
        obtain rfl | hu := eq_or_ne u w
        · simp [hn]
        · dsimp only
          rw [update_of_ne hu]
      · refine ⟨fun he => (by cases he), fun hsleep => ?_⟩
        obtain ⟨hread, hblocked⟩ := hsleep
        dsimp only at hblocked
        obtain rfl | hu := eq_or_ne u w
        · simp at hblocked
        · rw [update_of_ne hu] at hblocked
          have hw' := (h.asleep.who u).mpr ⟨hread, hblocked⟩
          exact absurd (Option.some.inj (hw.symm.trans hw')).symm hu
      · obtain ⟨v, m, hp, hr⟩ := h.coming hv hne
        refine ⟨v, m, hp, ?_⟩
        obtain rfl | hu := eq_or_ne v w
        · exact update_self ..
        · exact (update_of_ne hu ..).trans hr

/-- The running task goes on later. -/
theorem inv_aside (h : Inv s) (hc : s.cpu = some t) (x : TaskState) (hx : x ≠ .running) (l : Bool)
    (hl : l = true ↔ x = .blocked) :
    Inv { s with state := update s.state t x, linked := update s.linked t l, cpu := none } := by
  obtain ⟨hrun, hout, -, -⟩ := h.tasks.running hc
  have htasks := h.tasks.aside hc .out x hx l hl
  rw [← hout, update_eq_self] at htasks
  refine ⟨htasks, h.ring, h.locked.other hout x, h.asleep.other hout x, fun hv hne => ?_⟩
  obtain ⟨v, n, hp', hr⟩ := h.coming hv hne
  refine ⟨v, n, hp', ?_⟩
  obtain rfl | hu := eq_or_ne v t
  · rw [hout] at hp'
    cases hp'
  · exact (update_of_ne hu ..).trans hr

/-- The state in which `schedule` has switched to `u`. -/
def switched (s : State τ) (u : τ) : State τ :=
  { s.goto u .out with state := update s.state u .running, cpu := some u }

/-- A switch to a task that does not hold the lock. -/
theorem ready_switched (h : Inv s) (hc : s.cpu = none) (hs : s.state u = .ready)
    (hp : ∀ n, s.pc u ≠ .reading n) : Ready (switched s u) u := by
  have htasks := h.tasks
  rw [hc] at htasks
  have hread : ∀ v, (∃ n, update s.pc u .out v = .reading n) ↔ ∃ n, s.pc v = .reading n := by
    intro v
    obtain rfl | hne := eq_or_ne v u
    · simp [hp]
    · rw [update_of_ne hne]
  refine ⟨htasks.dispatched hs, h.ring, ?_, ⟨fun v => ?_, h.asleep.calm⟩, rfl⟩
  · apply h.locked.congr hread
    intro v
    obtain rfl | hne := eq_or_ne v u
    · simp [switched, State.goto, hs]
    · dsimp only [switched, State.goto]
      rw [update_of_ne hne, update_of_ne hne]
  · dsimp only [switched, State.goto]
    rw [h.asleep.who]
    obtain rfl | hne := eq_or_ne v u
    · simp [hs]
    · rw [update_of_ne hne, update_of_ne hne]

/-- A switch to the reader that a character woke. -/
theorem within_switched (h : Inv s) (hc : s.cpu = none) (hs : s.state u = .ready) {n : ℕ}
    (hp : s.pc u = .reading n) : Within (switched s u) u := by
  have htasks := h.tasks
  rw [hc] at htasks
  have hholder := h.locked.reader hp
  refine ⟨htasks.dispatched hs, h.ring, ⟨fun v => ?_, h.locked.value, h.locked.held,
    h.locked.free, h.locked.nodup, fun v => ?_⟩, ?_, rfl⟩
  · dsimp only [switched, State.goto]
    rw [hholder]
    refine ⟨Or.inl, fun hv => ?_⟩
    rcases hv with hv | ⟨m, hm⟩
    · exact hv
    · obtain rfl | hne := eq_or_ne v u
      · rfl
      · rw [update_of_ne hne] at hm
        exact hholder.symm.trans (h.locked.reader hm)
  · dsimp only [switched, State.goto]
    rw [h.locked.waiters]
    obtain rfl | hne := eq_or_ne v u
    · simp [hs]
    · rw [update_of_ne hne, update_of_ne hne]
  · change s.waiter = none
    rw [Option.eq_none_iff_forall_ne_some]
    intro v hv
    obtain ⟨⟨m, hm⟩, hblocked⟩ := (h.asleep.who v).mp hv
    have heq : u = v := Option.some.inj (hholder.symm.trans (h.locked.reader hm))
    rw [← heq, hs] at hblocked
    cases hblocked

/-- A switch to a task outside the calls. -/
theorem inv_switched (h : Inv s) (hc : s.cpu = none) (hs : s.state u = .ready)
    (hread : ∀ n, s.pc u ≠ .reading n) (hacq : ∀ n, s.pc u ≠ .acquiring n) :
    Inv (switched s u) := by
  have hready := ready_switched h hc hs hread
  refine ⟨hready.tasks, hready.ring, hready.locked, hready.asleep, fun hv hne => ?_⟩
  obtain ⟨v, n, hp', hr⟩ := h.coming hv hne
  have hvu : v ≠ u := by
    rintro rfl
    exact hacq n hp'
  exact ⟨v, n, (update_of_ne hvu ..).trans hp', (update_of_ne hvu ..).trans hr⟩

/-- No action fails an assertion, and each keeps the invariant. -/
theorem inv_exec (h : Inv s) (a : Act τ) : (exec s a).All Inv := by
  cases a with
  | interrupt code => exact inv_interrupt h code
  | read count =>
    unfold exec
    cases hc : s.cpu with
    | none => trivial
    | some t =>
      apply all_guard
      intro hp
      have hnot : s.lock.holder ≠ some t := by
        rw [Ne, h.locked.holder, (beq_iff_eq.mp hp : s.pc t = .out)]
        simp
      unfold keyboardRead
      rw [if_pos hnot]
      exact inv_mutexLock ⟨h.tasks, h.ring, h.locked, h.asleep, hc⟩ count
  | preempt =>
    unfold exec
    cases hc : s.cpu with
    | none => trivial
    | some t =>
      apply all_guard
      intro hp
      have haside := inv_aside h hc .ready (by decide) false (by decide)
      rw [← (h.tasks.running hc).2.2.1, update_eq_self] at haside
      exact haside
  | block =>
    unfold exec
    cases hc : s.cpu with
    | none => trivial
    | some t =>
      apply all_guard
      intro hp
      apply all_assert
      · simpa using (h.tasks.running hc).2.2.1
      exact inv_aside h hc .blocked (by decide) true (by simp)
  | wake u =>
    apply all_guard
    intro hg
    rw [Bool.and_eq_true, beq_iff_eq, beq_iff_eq] at hg
    exact inv_wake h hg.1 hg.2
  | dispatch u =>
    apply all_guard
    intro hg
    rw [Bool.and_eq_true, beq_iff_eq, beq_iff_eq] at hg
    obtain ⟨hc, hs⟩ := hg
    dsimp only
    cases hp : s.pc u with
    | out => exact inv_switched h hc hs (by simp [hp]) (by simp [hp])
    | yielded => exact inv_switched h hc hs (by simp [hp]) (by simp [hp])
    | acquiring n => exact inv_mutexLock (ready_switched h hc hs (by simp [hp])) n
    | reading n => exact inv_readLoop (within_switched h hc hs hp) n

theorem inv_run {as : List (Act τ)} (h0 : Init s₀) (h : Run Step s₀ as s) : Inv s :=
  h.invariant (fun _ a _ hi hs => (inv_exec hi a).of_next hs) (inv_init h0)

end Invariant

section Delivery

variable {τ : Type*} {s s' s₀ : State τ} {t u : τ} {a : Act τ} {as : List (Act τ)}

theorem Inv.sleeping (hi : Inv s) (h : Sleeping s t) : s.undelivered = [] := by
  apply hi.asleep.calm
  rw [(hi.asleep.who t).mpr h]
  simp

/-- Where characters are left and a task waits for the lock, another is ready to read. -/
theorem Inv.awake (hi : Inv s) (hne : s.undelivered ≠ []) (hacq : ∃ n, s.pc t = .acquiring n)
    (hb : s.state t = .blocked) : Awake s := by
  have hmem := (hi.locked.waiters t).mpr ⟨hacq, hb⟩
  cases hv : s.lock.mutex.value with
  | false =>
    obtain ⟨u, n, hp, hr⟩ := hi.coming hv (List.ne_nil_of_mem hmem)
    exact ⟨u, Or.inl ⟨n, hp⟩, hr⟩
  | true =>
    obtain ⟨u, hu⟩ := Option.ne_none_iff_exists'.mp (hi.locked.value.mp hv)
    obtain ⟨n, hn⟩ := ((hi.locked.holder u).mp hu).resolve_left (by simp)
    refine ⟨u, Or.inr ⟨n, hn⟩, ?_⟩
    cases hs : s.state u with
    | ready => rfl
    | running => exact absurd hs (hi.tasks.away u (by simp [hn]))
    | blocked => exact absurd (hi.sleeping ⟨⟨n, hn⟩, hs⟩) hne

variable [DecidableEq τ]

theorem taskBlock_dropped (h : taskBlock s t = .next s') : s'.dropped = s.dropped := by
  obtain ⟨-, he⟩ := assert_eq_next.mp h
  cases he
  rfl

theorem taskUnblock_dropped (h : taskUnblock s t = .next s') : s'.dropped = s.dropped := by
  obtain ⟨-, he⟩ := assert_eq_next.mp h
  cases he
  rfl

theorem lockRelease_dropped (h : lockRelease s t = .next s') : s'.dropped = s.dropped := by
  unfold lockRelease at h
  obtain ⟨-, h⟩ := assert_eq_next.mp h
  split at h
  · cases h
    rfl
  · obtain ⟨-, h⟩ := assert_eq_next.mp h
    unfold mutexUnlock at h
    obtain ⟨-, h⟩ := assert_eq_next.mp h
    obtain ⟨-, h⟩ := assert_eq_next.mp h
    dsimp only at h
    split at h
    · obtain ⟨s₁, h₁, h₂⟩ := andThen_eq_next.mp h
      have := taskUnblock_dropped h₁
      cases h₂
      exact this
    · cases h
      rfl

/-- Reading drops nothing. -/
theorem readLoop_dropped (n : ℕ) (h : readLoop s t n = .next s') : s'.dropped = s.dropped := by
  induction n generalizing s with
  | zero => exact lockRelease_dropped h
  | succ n ih =>
    unfold readLoop at h
    split at h
    · exact (taskBlock_dropped h :)
    · split at h
      · cases h
      · exact (ih h :)

theorem mutexLock_dropped {n : ℕ} (h : mutexLock s t n = .next s') : s'.dropped = s.dropped := by
  unfold mutexLock at h
  split at h
  · obtain ⟨-, h⟩ := assert_eq_next.mp h
    exact (taskBlock_dropped h :)
  · obtain ⟨-, h⟩ := assert_eq_next.mp h
    obtain ⟨-, h⟩ := assert_eq_next.mp h
    exact (readLoop_dropped n h :)

/-- An action other than an interrupt drops nothing. -/
theorem exec_dropped (h : exec s a = .next s') (ha : ∀ code, a ≠ .interrupt code) :
    s'.dropped = s.dropped := by
  cases a with
  | interrupt code => exact absurd rfl (ha code)
  | read count =>
    unfold exec at h
    cases hc : s.cpu with
    | none => simp [hc] at h
    | some t =>
      rw [hc] at h
      obtain ⟨-, h⟩ := guard_eq_next.mp h
      unfold keyboardRead at h
      split at h
      · exact mutexLock_dropped h
      · exact (readLoop_dropped count h :)
  | preempt =>
    unfold exec at h
    cases hc : s.cpu with
    | none => simp [hc] at h
    | some t =>
      rw [hc] at h
      obtain ⟨-, h⟩ := guard_eq_next.mp h
      cases h
      rfl
  | block =>
    unfold exec at h
    cases hc : s.cpu with
    | none => simp [hc] at h
    | some t =>
      rw [hc] at h
      obtain ⟨-, h⟩ := guard_eq_next.mp h
      exact taskBlock_dropped h
  | wake u =>
    obtain ⟨-, h⟩ := guard_eq_next.mp h
    exact taskUnblock_dropped h
  | dispatch u =>
    obtain ⟨-, h⟩ := guard_eq_next.mp h
    dsimp only at h
    split at h
    · cases h
      rfl
    · cases h
      rfl
    · exact (mutexLock_dropped h :)
    · exact (readLoop_dropped _ h :)

/-- A character is dropped for another one that is put into the full queue. -/
theorem drops_step (hi : Inv s) (h : Step s a s') : Drops s s' := by
  unfold Step at h
  cases a with
  | interrupt code =>
    unfold exec keyboardHandler at h
    dsimp only at h
    split at h
    · cases h
      exact Or.inl rfl
    · obtain ⟨lost, fifo, hput, hlost, -⟩ := hi.ring.put (by assumption)
      rw [hput] at h
      dsimp only at h
      have hdropped : s'.dropped = s.dropped ++ lost := by
        split at h
        · cases h
          rfl
        · obtain ⟨s₁, h₁, h₂⟩ := andThen_eq_next.mp h
          have := taskUnblock_dropped h₁
          cases h₂
          exact this
      rcases hlost with rfl | ⟨old, rest, hold, hfull, rfl⟩
      · rw [List.append_nil] at hdropped
        exact Or.inl hdropped
      · exact Or.inr ⟨old, rest, hold, hfull, hdropped⟩
  | read count => exact Or.inl (exec_dropped h (by simp))
  | preempt => exact Or.inl (exec_dropped h (by simp))
  | block => exact Or.inl (exec_dropped h (by simp))
  | wake u => exact Or.inl (exec_dropped h (by simp))
  | dispatch u => exact Or.inl (exec_dropped h (by simp))

/-- In every run the delivered characters are queued ones, in the order in which they were
queued and none of them twice; the others were dropped or are still in the queue; a
character is dropped only as the oldest of `BUFFER_SIZE - 1` undelivered ones; the queue is
empty while a task is recorded as the waiter and while a reader sleeps; and a task that
waits for the lock while there are characters waits for a reader that is awake. -/
theorem keyboard_queue (h0 : Init s₀) (h : Run Step s₀ as s) :
    s.delivered.Sublist s.queued.zipIdx ∧
      (s.delivered ++ s.dropped ++ s.undelivered).Perm s.queued.zipIdx ∧
      (∀ a s', Step s a s' → Drops s s') ∧
      (∀ t, s.waiter = some t → s.undelivered = []) ∧
      (∀ t, Sleeping s t → s.undelivered = []) ∧
      ∀ t n, s.undelivered ≠ [] → s.pc t = .acquiring n → s.state t = .blocked → Awake s := by
  have hi := inv_run h0 h
  refine ⟨hi.ring.log.delivered_sublist, hi.ring.log.perm, fun a s' hs => drops_step hi hs,
    fun t ht => ?_, fun t ht => hi.sleeping ht, fun t n hne hp hb => hi.awake hne ⟨n, hp⟩ hb⟩
  exact hi.sleeping ((hi.asleep.who t).mp ht)

/-- Tasks that are all ready, with the keyboard just initialised. -/
def start (τ : Type*) : State τ where
  keys := keyboardInit
  fifo := Fifo.init (fun _ => (0, 0)) BUFFER_SIZE
  waiter := none
  lock := ⟨none, ⟨false, []⟩, 0⟩
  cpu := none
  state _ := .ready
  linked _ := false
  pc _ := .out
  queued := []
  delivered := []
  dropped := []

theorem init_start (τ : Type*) : Init (start τ) := by
  refine ⟨⟨_, rfl⟩, rfl, rfl, fun _ => rfl, fun t => ?_, fun t => ?_, rfl, rfl, rfl⟩ <;> simp [start]

/-- Two readers sleep, one for the lock, when the key `a` goes down; the one with the lock
is woken and reads it. -/
theorem keyboard_queue_two : ∃ s : State (Fin 2),
    Run Step (start (Fin 2)) [.dispatch 0, .read 1, .dispatch 1, .read 1, .interrupt 0x1E,
      .dispatch 0] s ∧
    s.delivered = [(0x61, 0)] ∧ s.delivered.Sublist s.queued.zipIdx ∧
      (s.delivered ++ s.dropped ++ s.undelivered).Perm s.queued.zipIdx ∧
      (∀ a s', Step s a s' → Drops s s') ∧
      (∀ t, s.waiter = some t → s.undelivered = []) ∧
      (∀ t, Sleeping s t → s.undelivered = []) ∧
      ∀ t n, s.undelivered ≠ [] → s.pc t = .acquiring n → s.state t = .blocked → Awake s := by
  obtain ⟨s, hs, hp⟩ := run_of_play (fun _ _ => True) exec (start (Fin 2))
    [.dispatch 0, .read 1, .dispatch 1, .read 1, .interrupt 0x1E, .dispatch 0]
    (fun s => s.delivered == [(0x61, 0)]) (by decide +kernel)
  exact ⟨s, hs.of_guarded, by simpa using hp, keyboard_queue (init_start _) hs.of_guarded⟩

end Delivery

end Onix.Keyboard
