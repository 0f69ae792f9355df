import Onix.Spec.Handoff

/-! `mutex_unlock` marks the mutex free before the task that it wakes has run: the mutex
goes to that task as long as nobody calls `mutex_lock` in between, and to the caller
where somebody does. -/

namespace Onix.Handoff

open Function Outcome
open Mutex (TaskState ONIX_MAGIC)

section Invariant

variable {τ : Type*} {s s' s₀ : State τ} {t u w : τ}

structure Inv (s : State τ) : Prop where
  cpu : ∀ t, s.state t = .running ↔ s.cpu = some t
  linked : ∀ t, s.linked t = true ↔ s.state t = .blocked
  magic : ∀ t, s.magic t = ONIX_MAGIC
  nodup : s.mutex.waiters.Nodup
  waiters : ∀ t, t ∈ s.mutex.waiters ↔ s.pc t = .retest ∧ s.state t = .blocked
  away : ∀ t, s.pc t ≠ .out → s.state t ≠ .running
  due : ∀ t, s.due = some t ↔ s.pc t = .retest ∧ s.state t = .ready
  free : ∀ t, s.due = some t → s.mutex.value = false
  sorted : s.mutex.waiters.Pairwise fun t u => s.arrival u < s.arrival t
  oldest : ∀ t, s.due = some t → ∀ u ∈ s.mutex.waiters, s.arrival t < s.arrival u
  past : ∀ t, s.pc t = .retest → s.arrival t < s.calls

/-- `mutex_lock` is not called while the task that `mutex_unlock` made ready is on its way. -/
def Clear (s : State τ) : Act τ → Prop
  | .lock => s.due = none
  | _ => True

theorem inv_init (h : Init s) : Inv s where
  cpu := h.cpu
  linked := h.linked
  magic := h.magic
  nodup := by simp [h.waiters]
  waiters t := by simp [h.waiters, h.pc]
  away t ht := absurd (h.pc t) ht
  due t := by simp [h.due, h.pc]
  free t ht := by simp [h.due] at ht
  sorted := by simp [h.waiters]
  oldest t ht := by simp [h.due] at ht
  past t ht := by simp [h.pc] at ht

theorem Inv.waiting (hi : Inv s) (h : s.pc t = .retest) : t ∈ s.mutex.waiters ∨ s.due = some t := by
  cases hs : s.state t with
  | ready => exact .inr ((hi.due t).mpr ⟨h, hs⟩)
  | running => exact absurd hs (hi.away t (by rw [h]; decide))
  | blocked => exact .inl ((hi.waiters t).mpr ⟨h, hs⟩)

/-- The task made ready by `mutex_unlock` has waited longest. -/
theorem Inv.longest (hi : Inv s) (h : s.due = some w) : Longest s w := by
  refine ⟨((hi.due w).mp h).1, fun u hu hne => ?_⟩
  rcases hi.waiting hu with hmem | hdue
  · exact hi.oldest w h u hmem
  · exact absurd (Option.some.inj (hdue.symm.trans h)) hne

theorem Inv.running (hi : Inv s) (h : s.cpu = some t) :
    s.state t = .running ∧ s.pc t = .out ∧ s.linked t = false ∧ ∀ u, s.state u = .running → u = t := by
  have hrun := (hi.cpu t).mpr h
  refine ⟨hrun, ?_, ?_, fun u hu => ?_⟩
  · by_contra hout
    exact hi.away t hout hrun
  · rw [← Bool.not_eq_true, hi.linked, hrun]
    decide
  · exact Option.some.inj (((hi.cpu u).mp hu).symm.trans h)

variable [DecidableEq τ]

/-- The number of a call matters only while the task waits. -/
theorem inv_called (hi : Inv s) (hp : s.pc t = .out) : Inv (s.called t) := by
  have harr : ∀ u, s.pc u = .retest → (s.called t).arrival u = s.arrival u := by
    intro u hu
    apply update_of_ne
    rintro rfl
    rw [hp] at hu
    cases hu
  have hmem : ∀ u ∈ s.mutex.waiters, s.pc u = .retest := fun u hu => ((hi.waiters u).mp hu).1
  refine { hi with sorted := ?_, oldest := ?_, past := ?_ }
  · apply hi.sorted.imp_of_mem
    intro a b ha hb hab
    rw [harr a (hmem a ha), harr b (hmem b hb)]
    exact hab
  · intro w hw u hu
    rw [harr w ((hi.due w).mp hw).1, harr u (hmem u hu)]
    exact hi.oldest w hw u hu
  · intro u hu
    rw [harr u hu]
    exact (hi.past u hu).trans (Nat.lt_succ_self _)

/-- The state in which `t` waits at the head of `waiters`. -/
def queued (s : State τ) (t : τ) : State τ :=
  { s.goto t .retest with mutex := { s.mutex with waiters := t :: s.mutex.waiters } }.parked t

theorem inv_queued (hi : Inv s) (h : s.cpu = some t) (hd : s.due = none)
    (hlast : ∀ u ∈ s.mutex.waiters, s.arrival u < s.arrival t) (hnow : s.arrival t < s.calls) :
    Inv (queued s t) := by
  obtain ⟨hrun, hout, -, hone⟩ := hi.running h
  have hnot : t ∉ s.mutex.waiters := by
    rw [hi.waiters, hrun]
    simp
  have hnobody : ∀ u, (queued s t).due ≠ some u := by
    intro u hu
    have hu : s.due = some u := hu
    rw [hd] at hu
    cases hu
  have hoff : ∀ u, (queued s t).state u ≠ .running := by
    intro u
    obtain rfl | hu := eq_or_ne u t
    · simp [queued, State.parked]
    · simpa [queued, State.parked, State.goto, hu] using fun hr => hu (hone u hr)
  refine ⟨fun u => ?_, fun u => ?_, hi.magic, List.nodup_cons.mpr ⟨hnot, hi.nodup⟩, fun u => ?_,
    fun u _ => hoff u, fun u => ?_, fun u hu => absurd hu (hnobody u),
    List.pairwise_cons.mpr ⟨hlast, hi.sorted⟩, fun u hu => absurd hu (hnobody u), fun u hu => ?_⟩
  · exact ⟨fun hr => absurd hr (hoff u), fun hc => by cases hc⟩
  · obtain rfl | hu := eq_or_ne u t
    · simp [queued, State.parked]
    · simpa [queued, State.parked, State.goto, hu] using hi.linked u
  · obtain rfl | hu := eq_or_ne u t
    · simp [queued, State.parked, State.goto]
    · simpa [queued, State.parked, State.goto, hu] using hi.waiters u
  · have hu := hi.due u
    rw [hd] at hu
    obtain rfl | hne := eq_or_ne u t
    · simp [queued, State.parked, State.goto, hd]
    · simpa [queued, State.parked, State.goto, hd, hne] using hu
  · obtain rfl | hne := eq_or_ne u t
    · exact hnow
    · apply hi.past
      simpa [queued, State.parked, State.goto, hne] using hu

/-- The state in which `t` has left the loop of `mutex_lock` with the mutex. -/
def taken (s : State τ) (t : τ) : State τ :=
  { s.goto t .out with
    mutex := { s.mutex with value := true }, owner := some t, due := none
    state := update s.state t .running, cpu := some t }

/-- A task takes the mutex while no other task is on its way to it. -/
theorem inv_taken (hi : Inv s) (hs : s.state t ≠ .blocked) (hone : ∀ u, s.state u = .running → u = t)
    (hdue : ∀ u, s.due = some u → u = t) : Inv (taken s t) := by
  have hnot : t ∉ s.mutex.waiters := by
    rw [hi.waiters]
    exact fun h => hs h.2
  have hpc : ∀ u, u ≠ t → (taken s t).pc u = s.pc u := fun u hu => update_of_ne hu ..
  have hst : ∀ u, u ≠ t → (taken s t).state u = s.state u := fun u hu => update_of_ne hu ..
  refine ⟨fun u => ?_, fun u => ?_, hi.magic, hi.nodup, fun u => ?_, fun u hu => ?_, fun u => ?_,
    fun u hu => (by cases hu), hi.sorted, fun u hu => (by cases hu), fun u hu => ?_⟩
  · obtain rfl | hu := eq_or_ne u t
    · simp [taken]
    · rw [hst u hu]
      exact ⟨fun hr => absurd (hone u hr) hu, fun hc => absurd (Option.some.inj hc).symm hu⟩
  · obtain rfl | hu := eq_or_ne u t
    · have := (hi.linked u).not.mpr hs
      simpa [taken, State.goto] using this
    · rw [hst u hu]
      exact hi.linked u
  · obtain rfl | hu := eq_or_ne u t
    · simpa [taken, State.goto] using hnot
    · rw [hpc u hu, hst u hu]
      exact hi.waiters u
  · obtain rfl | hne := eq_or_ne u t
    · exact absurd (update_self ..) hu
    · rw [hst u hne]
      exact fun hr => hne (hone u hr)
  · obtain rfl | hne := eq_or_ne u t
    · simp [taken, State.goto]
    · rw [hpc u hne, hst u hne, ← hi.due u]
      exact ⟨fun h => (by cases h), fun h => absurd (hdue u h) hne⟩
  · obtain rfl | hne := eq_or_ne u t
    · simp [taken, State.goto] at hu
    · rw [hpc u hne] at hu
      exact hi.past u hu

/-- A running task outside the list is put aside: it becomes ready, or waits elsewhere. -/
theorem inv_aside (hi : Inv s) (h : s.cpu = some t) (x : TaskState) (l : Bool) (p : Pc)
    (hx : x ≠ .running) (hl : l = true ↔ x = .blocked) (hp : p ≠ .retest) :
    Inv { s.goto t p with
      state := update s.state t x, linked := update s.linked t l, cpu := none } := by
  obtain ⟨hrun, hout, -, hone⟩ := hi.running h
  refine ⟨fun u => ?_, fun u => ?_, hi.magic, hi.nodup, fun u => ?_, fun u hu => ?_, fun u => ?_,
    hi.free, hi.sorted, hi.oldest, fun u hu => ?_⟩
  · obtain rfl | hu := eq_or_ne u t
    · simpa using hx
    · simpa [State.goto, hu] using fun hr => hu (hone u hr)
  · obtain rfl | hu := eq_or_ne u t
    · simpa using hl
    · simpa [State.goto, hu] using hi.linked u
  · obtain rfl | hu := eq_or_ne u t
    · have hno := (hi.waiters u).not.mpr (by rw [hrun]; simp)
      simpa [State.goto, hp] using hno
    · simpa [State.goto, hu] using hi.waiters u
  · obtain rfl | hne := eq_or_ne u t
    · simpa using hx
    · simpa [State.goto, hne] using fun hr => hne (hone u hr)
  · obtain rfl | hne := eq_or_ne u t
    · have hno := (hi.due u).not.mpr (by rw [hrun]; simp)
      simpa [State.goto, hp] using hno
    · simpa [State.goto, hne] using hi.due u
  · obtain rfl | hne := eq_or_ne u t
    · simp [State.goto, hp] at hu
    · apply hi.past
      simpa [State.goto, hne] using hu

/-- The state in which the running task has given the mutex back and made `w` ready. -/
def woken (s : State τ) (w : τ) : State τ :=
  { s with
    mutex := { value := false, waiters := s.mutex.waiters.dropLast }
    owner := none
    due := some w
    linked := update s.linked w false
    state := update s.state w .ready }

theorem inv_woken (hi : Inv s) (hd : s.due = none) (hw : s.mutex.waiters.getLast? = some w) :
    Inv (woken s w) := by
  obtain ⟨ys, hys⟩ := List.getLast?_eq_some_iff.mp hw
  have hdrop : s.mutex.waiters.dropLast = ys := by rw [hys, List.dropLast_concat]
  have hmem : ∀ u, u ∈ s.mutex.waiters ↔ u ∈ ys ∨ u = w := by simp [hys]
  have hnd := hi.nodup
  rw [hys, List.nodup_append] at hnd
  have hnot : w ∉ ys := fun h => hnd.2.2 w h w (List.mem_singleton_self w) rfl
  have hsort := hi.sorted
  rw [hys, List.pairwise_append] at hsort
  obtain ⟨hpc, hst⟩ := (hi.waiters w).mp ((hmem w).mpr (.inr rfl))
  have hstate : ∀ u, u ≠ w → (woken s w).state u = s.state u := fun u hu => update_of_ne hu ..
  refine ⟨fun u => ?_, fun u => ?_, hi.magic, ?_, fun u => ?_, fun u hu => ?_, fun u => ?_,
    fun _ _ => rfl, ?_, fun u hu v hv => ?_, hi.past⟩
  · obtain rfl | hu := eq_or_ne u w
    · have hno := hi.cpu u
      rw [hst] at hno
      simpa [woken] using hno
    · rw [hstate u hu]
      exact hi.cpu u
  · obtain rfl | hu := eq_or_ne u w
    · simp [woken]
    · simpa [woken, hu] using hi.linked u
  · rw [show (woken s w).mutex.waiters = ys from hdrop]
    exact hnd.1
  · rw [show (woken s w).mutex.waiters = ys from hdrop]
    obtain rfl | hu := eq_or_ne u w
    · simpa [woken] using hnot
    · rw [hstate u hu]
      have hsame := hi.waiters u
      rw [hmem u, or_iff_left hu] at hsame
      exact hsame
  · obtain rfl | hne := eq_or_ne u w
    · simp [woken]
    · rw [hstate u hne]
      exact hi.away u hu
  · obtain rfl | hne := eq_or_ne u w
    · simpa [woken] using hpc
    · rw [hstate u hne]
      have hno := hi.due u
      rw [hd] at hno
      exact ⟨fun h => absurd (Option.some.inj h).symm hne, fun h => absurd (hno.mpr h) (by simp)⟩
  · rw [show (woken s w).mutex.waiters = ys from hdrop]
    exact hsort.1
  · obtain rfl := Option.some.inj hu
    rw [show (woken s w).mutex.waiters = ys from hdrop] at hv
    exact hsort.2.2 v hv w (List.mem_singleton_self w)

/-- A ready task that is not in `mutex_lock` gets the processor. -/
theorem inv_dispatch (hi : Inv s) (hc : s.cpu = none) (hr : s.state t = .ready)
    (hp : s.pc t ≠ .retest) :
    Inv ({ s with state := update s.state t .running, cpu := some t }.goto t .out) := by
  have hnone : ∀ u, s.state u ≠ .running := by
    intro u hu
    rw [(hi.cpu u).mp hu] at hc
    cases hc
  refine ⟨fun u => ?_, fun u => ?_, hi.magic, hi.nodup, fun u => ?_, fun u hu => ?_, fun u => ?_,
    hi.free, hi.sorted, hi.oldest, fun u hu => ?_⟩
  · obtain rfl | hu := eq_or_ne u t
    · simp [State.goto]
    · simpa [State.goto, hu, hu.symm] using hnone u
  · obtain rfl | hu := eq_or_ne u t
    · have := hi.linked u
      simpa [State.goto, hr] using this
    · simpa [State.goto, hu] using hi.linked u
  · obtain rfl | hu := eq_or_ne u t
    · have hno := (hi.waiters u).not.mpr (by rw [hr]; simp)
      simpa [State.goto] using hno
    · simpa [State.goto, hu] using hi.waiters u
  · obtain rfl | hne := eq_or_ne u t
    · simp [State.goto] at hu
    · simpa [State.goto, hne] using hnone u
  · obtain rfl | hne := eq_or_ne u t
    · have hno := (hi.due u).not.mpr fun h => hp h.1
      simpa [State.goto] using hno
    · simpa [State.goto, hne] using hi.due u
  · obtain rfl | hne := eq_or_ne u t
    · simp [State.goto] at hu
    · apply hi.past
      simpa [State.goto, hne] using hu

theorem inv_wake (hi : Inv s) (hb : s.state t = .blocked) (hp : s.pc t = .out) :
    Inv { s with linked := update s.linked t false, state := update s.state t .ready } := by
  refine ⟨fun u => ?_, fun u => ?_, hi.magic, hi.nodup, fun u => ?_, fun u hu => ?_, fun u => ?_,
    hi.free, hi.sorted, hi.oldest, hi.past⟩
  · obtain rfl | hu := eq_or_ne u t
    · have hno := hi.cpu u
      rw [hb] at hno
      simpa using hno
    · simpa [hu] using hi.cpu u
  · obtain rfl | hu := eq_or_ne u t
    · simp
    · simpa [hu] using hi.linked u
  · obtain rfl | hu := eq_or_ne u t
    · have hno := (hi.waiters u).not.mpr (by rw [hp]; simp)
      simpa [hp] using hno
    · simpa [hu] using hi.waiters u
  · obtain rfl | hne := eq_or_ne u t
    · simp
    · simpa [hne] using hi.away u hu
  · obtain rfl | hne := eq_or_ne u t
    · have hno := (hi.due u).not.mpr (by rw [hp]; simp)
      simpa [hp] using hno
    · simpa [hne] using hi.due u

/-- The test in `mutex_lock` by a task that may take the mutex or, where the mutex is
held, has just called. -/
theorem all_mutexLock (hi : Inv s) (h : s.cpu = some t) (hd : s.due = none)
    (hlast : ∀ u ∈ s.mutex.waiters, s.arrival u < s.arrival t) (hnow : s.arrival t < s.calls) :
    All Inv (mutexLock s t) := by
  obtain ⟨hrun, hout, hlink, hone⟩ := hi.running h
  have hnot : t ∉ s.mutex.waiters := by
    rw [hi.waiters, hrun]
    simp
  unfold mutexLock
  split_ifs with hv
  · apply all_assert
    · simpa [State.goto] using hlink
    apply all_assert
    · simpa [State.goto] using hnot
    exact inv_queued hi h hd hlast hnow
  · apply all_assert
    · simpa using hv
    have hself : update s.state t .running = s.state := by rw [← hrun, update_eq_self]
    have htaken := inv_taken hi (by rw [hrun]; decide) hone fun u hu => by rw [hd] at hu; cases hu
    have heq : taken s t = { s with
        mutex := { s.mutex with value := true }, owner := some t, due := none }.goto t .out := by
      simp [taken, State.goto, hself, h]
    rw [heq] at htaken
    exact htaken

/-- The task that `mutex_unlock` made ready gets the processor back in the loop. -/
theorem all_retest (hi : Inv s) (hc : s.cpu = none) (hr : s.state t = .ready)
    (hp : s.pc t = .retest) :
    All Inv (mutexLock { s with state := update s.state t .running, cpu := some t } t) := by
  have hdue := (hi.due t).mpr ⟨hp, hr⟩
  have hv := hi.free t hdue
  unfold mutexLock
  rw [if_neg (by simp [hv])]
  apply all_assert
  · simp [hv]
  refine inv_taken hi (by rw [hr]; decide) (fun u hu => ?_) fun u hu => ?_
  · rw [(hi.cpu u).mp hu] at hc
    cases hc
  · exact Option.some.inj (hu.symm.trans hdue)

theorem all_mutexUnlock (hi : Inv s) (h : s.cpu = some t) (hv : s.mutex.value = true) :
    All Inv (mutexUnlock s t) := by
  have hd : s.due = none := by
    cases hd : s.due with
    | none => rfl
    | some w => simp [hi.free w hd] at hv
  unfold mutexUnlock
  apply all_assert
  · simp [hv]
  apply all_assert
  · simp [hv]
  dsimp only
  cases hw : s.mutex.waiters.getLast? with
  | none =>
    have hnil : s.mutex.waiters = [] := by simpa using hw
    refine { hi with due := fun u => ?_, free := fun u hu => ?_, oldest := fun u hu => ?_ }
    · rw [← hd]
      exact hi.due u
    · cases hu
    · cases hu
  | some w =>
    have hmem : w ∈ s.mutex.waiters := List.mem_of_getLast? hw
    have hlink : s.linked w = true := (hi.linked w).mpr ((hi.waiters w).mp hmem).2
    have hwt : t ≠ w := by
      rintro rfl
      obtain ⟨hrun, -⟩ := hi.running h
      rw [((hi.waiters t).mp hmem).2] at hrun
      cases hrun
    apply all_assert
    · simp [hi.magic w]
    unfold taskUnblock
    apply all_andThen
    apply all_assert
    · exact hlink
    have hw' := inv_woken hi hd hw
    have haside := inv_aside hw' h .ready false .yielded (by decide) (by decide) (by decide)
    have hfalse : update (woken s w).linked t false = (woken s w).linked := by
      rw [update_eq_self_iff]
      simpa [woken, hwt] using (hi.running h).2.2.1.symm
    rw [hfalse] at haside
    simpa [All, woken, yieldCpu, State.goto, hv] using haside

theorem all_dispatch (hi : Inv s) : All Inv (exec s (.dispatch t)) := by
  apply all_guard
  intro hg
  obtain ⟨hc, hr⟩ : s.cpu = none ∧ s.state t = .ready := by simpa using hg
  apply all_assert
  · simp [hi.magic t]
  dsimp only
  cases hpc : s.pc t with
  | retest => exact all_retest hi hc hr hpc
  | yielded => exact inv_dispatch hi hc hr (by rw [hpc]; decide)
  | out =>
    have hgo := inv_dispatch hi hc hr (by rw [hpc]; decide)
    have hself : update s.pc t .out = s.pc := by rw [← hpc, update_eq_self]
    unfold State.goto at hgo
    rw [hself] at hgo
    exact hgo

/-- One action, with its assertion that the mutex is held where it is given back. -/
theorem inv_step {a : Act τ} (hi : Inv s) (hc : Clear s a) (h : Step s a s') : Inv s' := by
  cases a with
  | dispatch t => exact (all_dispatch hi).of_next h
  | wake t =>
    obtain ⟨hg, h⟩ := guard_eq_next.mp h
    obtain ⟨hb, hp⟩ : s.state t = .blocked ∧ s.pc t = .out := by simpa using hg
    obtain rfl := Outcome.next.inj h
    exact inv_wake hi hb hp
  | lock =>
    unfold Step exec at h
    cases ht : s.cpu with
    | none => simp [ht] at h
    | some t =>
      rw [ht] at h
      obtain ⟨hg, h⟩ := guard_eq_next.mp h
      have hp : s.pc t = .out := by simpa using hg
      have hcalled := inv_called hi hp
      have harr : (s.called t).arrival t = s.calls := update_self ..
      refine (all_mutexLock hcalled ht hc (fun u hu => ?_) ?_).of_next h
      · obtain ⟨hu, -⟩ := (hcalled.waiters u).mp hu
        have hne : u ≠ t := by
          rintro rfl
          rw [show (s.called u).pc u = s.pc u from rfl, hp] at hu
          cases hu
        rw [harr, show (s.called t).arrival u = s.arrival u from update_of_ne hne ..]
        exact hi.past u hu
      · rw [harr]
        exact Nat.lt_succ_self _
  | unlock =>
    unfold Step exec at h
    cases ht : s.cpu with
    | none => simp [ht] at h
    | some t =>
      rw [ht] at h
      obtain ⟨-, h⟩ := guard_eq_next.mp h
      have hv : s.mutex.value = true := by
        obtain ⟨hv, -⟩ := assert_eq_next.mp h
        simpa using hv
      exact (all_mutexUnlock hi ht hv).of_next h
  | preempt =>
    unfold Step exec at h
    cases ht : s.cpu with
    | none => simp [ht] at h
    | some t =>
      rw [ht] at h
      obtain rfl := Outcome.next.inj h
      obtain ⟨-, hp, hl, -⟩ := hi.running ht
      have haside := inv_aside hi ht .ready false .out (by decide) (by decide) (by decide)
      have hpc : update s.pc t .out = s.pc := by rw [← hp, update_eq_self]
      have hlink : update s.linked t false = s.linked := by rw [← hl, update_eq_self]
      unfold State.goto at haside
      rw [hpc, hlink] at haside
      exact haside
  | block =>
    unfold Step exec at h
    cases ht : s.cpu with
    | none => simp [ht] at h
    | some t =>
      rw [ht] at h
      obtain ⟨-, h⟩ := guard_eq_next.mp h
      obtain rfl := Outcome.next.inj h
      obtain ⟨-, hp, -⟩ := hi.running ht
      have haside := inv_aside hi ht .blocked true .out (by decide) (by decide) (by decide)
      have hpc : update s.pc t .out = s.pc := by rw [← hp, update_eq_self]
      unfold State.goto at haside
      rw [hpc] at haside
      exact haside

theorem inv_run {as : List (Act τ)} (h₀ : Init s₀) (h : Run (Guarded Clear Step) s₀ as s) :
    Inv s :=
  h.invariant (fun _ _ _ hi hs => inv_step hi hs.1 hs.2) (inv_init h₀)

end Invariant

section Handover

variable {τ : Type*} [DecidableEq τ] {s s' s₀ : State τ} {t w : τ} {as : List (Act τ)}

theorem mutexLock_owner (h : mutexLock s t = .next s') (hv : s.mutex.value = false) :
    s'.owner = some t := by
  unfold mutexLock at h
  rw [if_neg (by simp [hv])] at h
  obtain ⟨-, h⟩ := assert_eq_next.mp h
  obtain rfl := Outcome.next.inj h
  rfl

/-- Whoever takes the mutex has just called `mutex_lock` or has just been chosen in its loop. -/
theorem takes_cases {a : Act τ} (h : Step s a s') (ht : Takes s s' t) :
    (a = .lock ∧ s.cpu = some t) ∨ (a = .dispatch t ∧ s.pc t = .retest ∧ s.state t = .ready) := by
  obtain ⟨hv, hv', hown⟩ := ht
  unfold Step exec at h
  cases a with
  | lock =>
    cases hc : s.cpu with
    | none => simp [hc] at h
    | some u =>
      rw [hc] at h
      obtain ⟨-, h⟩ := guard_eq_next.mp h
      exact .inl ⟨rfl, (mutexLock_owner h hv).symm.trans hown⟩
  | unlock =>
    cases hc : s.cpu with
    | none => simp [hc] at h
    | some u =>
      rw [hc] at h
      obtain ⟨-, h⟩ := guard_eq_next.mp h
      obtain ⟨hheld, -⟩ := assert_eq_next.mp h
      simp [hv] at hheld
  | preempt =>
    cases hc : s.cpu with
    | none => simp [hc] at h
    | some u =>
      rw [hc] at h
      obtain rfl := Outcome.next.inj h
      exact absurd (hv.symm.trans hv') (by decide)
  | block =>
    cases hc : s.cpu with
    | none => simp [hc] at h
    | some u =>
      rw [hc] at h
      obtain ⟨-, h⟩ := guard_eq_next.mp h
      obtain rfl := Outcome.next.inj h
      exact absurd (hv.symm.trans hv') (by decide)
  | wake u =>
    obtain ⟨-, h⟩ := guard_eq_next.mp h
    obtain rfl := Outcome.next.inj h
    exact absurd (hv.symm.trans hv') (by decide)
  | dispatch u =>
    obtain ⟨hg, h⟩ := guard_eq_next.mp h
    obtain ⟨-, h⟩ := assert_eq_next.mp h
    obtain ⟨-, hr⟩ : s.cpu = none ∧ s.state u = .ready := by simpa using hg
    dsimp only at h
    cases hp : s.pc u with
    | retest =>
      rw [hp] at h
      obtain rfl : u = t := Option.some.inj ((mutexLock_owner h hv).symm.trans hown)
      exact .inr ⟨rfl, hp, hr⟩
    | yielded =>
      rw [hp] at h
      obtain rfl := Outcome.next.inj h
      exact absurd (hv.symm.trans hv') (by decide)
    | out =>
      rw [hp] at h
      obtain rfl := Outcome.next.inj h
      exact absurd (hv.symm.trans hv') (by decide)

/-- A call of `mutex_lock` that finds the mutex free takes it. -/
theorem lock_takes (hc : s.cpu = some t) (hp : s.pc t = .out) (hv : s.mutex.value = false) :
    ∃ s', Step s .lock s' ∧ Takes s s' t := by
  have hv' : (s.called t).mutex.value = false := hv
  refine ⟨{ s.called t with
    mutex := { s.mutex with value := true }, owner := some t, due := none }.goto t .out, ?_, hv,
    rfl, rfl⟩
  unfold Step exec
  rw [hc]
  refine guard_eq_next.mpr ⟨by simp [hp], ?_⟩
  unfold mutexLock
  rw [if_neg (by simp [hv'])]
  exact assert_eq_next.mpr ⟨by simp [hv'], rfl⟩

/-- In every run in which nobody calls `mutex_lock` while the task that `mutex_unlock` made
ready is on its way, that task is the one that has waited longest and the only one that
can take the mutex next; a call in that time takes the mutex from it. -/
theorem unlock_hands_over (h₀ : Init s₀) (h : Run (Guarded Clear Step) s₀ as s)
    (hw : s.due = some w) :
    Longest s w ∧ (∀ a s' t, Clear s a → Step s a s' → Takes s s' t → t = w) ∧
    (∀ t, s.cpu = some t → t ≠ w ∧ ∃ s', Step s .lock s' ∧ Takes s s' t) := by
  have hi := inv_run h₀ h
  refine ⟨hi.longest hw, ?_, ?_⟩
  · intro a s' t hc hs ht
    rcases takes_cases hs ht with ⟨rfl, -⟩ | ⟨-, hp, hr⟩
    · rw [show s.due = none from hc] at hw
      cases hw
    · exact Option.some.inj (((hi.due t).mpr ⟨hp, hr⟩).symm.trans hw)
  · intro t ht
    obtain ⟨hrun, hp, -⟩ := hi.running ht
    refine ⟨?_, lock_takes ht hp (hi.free w hw)⟩
    rintro rfl
    rw [((hi.due t).mp hw).2] at hrun
    cases hrun

/-- Tasks that are all ready, with the mutex just initialised. -/
def start (τ : Type*) : State τ where
  mutex := { value := false, waiters := [] }
  cpu := none
  state _ := .ready
  linked _ := false
  magic _ := ONIX_MAGIC
  pc _ := .out
  owner := none
  due := none
  arrival _ := 0
  calls := 0

theorem init_start (τ : Type*) : Init (start τ) := by
  constructor <;> simp [start]

instance (s : State τ) (a : Act τ) : Decidable (Clear s a) := by
  cases a <;> unfold Clear <;> infer_instance

/-- Task `t` holds the mutex, tasks `u` and `w` wait for it, task `t` gives it back. -/
def waited (t u w : τ) : List (Act τ) :=
  [.dispatch t, .lock, .preempt, .dispatch u, .lock, .dispatch w, .lock, .dispatch t, .unlock]

theorem unlock_hands_over_waited : ∃ s, Run (Guarded Clear Step) (start (Fin 3)) (waited 0 1 2) s ∧
    s.due = some 1 ∧ Longest s 1 ∧ ∀ a s' t, Clear s a → Step s a s' → Takes s s' t → t = 1 := by
  obtain ⟨s, hs, hp⟩ := run_of_play Clear exec (start (Fin 3)) (waited 0 1 2) (fun s => s.due == some 1)
    (by decide)
  have hw : s.due = some 1 := by simpa using hp
  obtain ⟨hl, ht, -⟩ := unlock_hands_over (init_start _) hs hw
  exact ⟨s, hs, hw, hl, ht⟩

/-- Task 0 gives the mutex back to task 1, and task 2 calls `mutex_lock` before task 1 runs. -/
theorem unlock_overtaken : ¬ ∀ (as : List (Act (Fin 3))) (s : State (Fin 3)),
    Run Step (start (Fin 3)) as s → ∀ w, s.due = some w → Longest s w ∧
      ∀ a s' t, Step s a s' → Takes s s' t → t = w := by
  intro h
  obtain ⟨s, hs, hp⟩ := run_of_play (fun _ _ => True) exec (start (Fin 3))
    [.dispatch 0, .lock, .preempt, .dispatch 1, .lock, .dispatch 0, .unlock, .dispatch 2]
    (fun s => s.due == some 1 && s.cpu == some 2 && s.pc 2 == .out && !s.mutex.value) (by decide)
  simp only [Bool.and_eq_true, beq_iff_eq, Bool.not_eq_true'] at hp
  obtain ⟨⟨⟨hw, hc⟩, hpc⟩, hv⟩ := hp
  obtain ⟨s', hs', ht⟩ := lock_takes hc hpc hv
  have := (h _ s hs.of_guarded 1 hw).2 .lock s' 2 hs' ht
  exact absurd this (by decide)

end Handover

end Onix.Handoff
