import Onix.Sanity.TaskHistory
import Onix.Spec.Exit

/-! What every step keeps while no task is inside `task_exit`: the task table is as
it is without any disks, and whoever has exited is through with all of it. -/

namespace Onix.Exit

open Function Outcome

variable {s s' : State} {k k' : Task.Kernel} {i j u disk left : ℕ} {t t' : Task.TaskT} {p : Pc}
  {req : Device.RequestT ℕ} {blist : Task.ListId}

/-- A place inside `task_exit` before its last `schedule`. -/
def Pc.InExit : Pc → Prop
  | .exiting _ _ => True
  | .queued _ _ caller => caller ≠ .other
  | .locking _ _ caller => caller ≠ .other
  | .sectors _ _ caller _ => caller ≠ .other
  | .yielded _ _ caller => caller ≠ .other
  | _ => False

/-- No task is inside `task_exit`. -/
structure Settled (s : State) : Prop where
  kernel : Task.KInv s.k
  node : ∀ i t, s.k.table i = some t →
    (t.node = true ↔ t.state = .blocked ∨ t.state = .sleeping ∨ t.state = .waiting)
  pc : ∀ i, ¬ (s.pc i).InExit
  died : ∀ i t, s.k.table i = some t → t.state = .died → s.pc i = .exited ∧ s.did i = parts
  lock : ∀ c, (s.ctrl c).value = false → (s.ctrl c).holder = none ∧ (s.ctrl c).repeats = 0

/-- Whoever has died stays dead and in the table. -/
def Buried (k k' : Task.Kernel) : Prop :=
  ∀ j t, k.table j = some t → t.state = .died →
    ∃ t', k'.table j = some t' ∧ t'.state = .died ∧ t'.pid = t.pid ∧ t'.status = t.status

theorem Buried.refl (k : Task.Kernel) : Buried k k := fun _ t ht hd => ⟨t, ht, hd, rfl, rfl⟩

theorem Buried.trans {k₁ k₂ k₃ : Task.Kernel} (h : Buried k₁ k₂) (h' : Buried k₂ k₃) :
    Buried k₁ k₃ := by
  intro j t ht hd
  obtain ⟨t₂, ht₂, hd₂, hp₂, hs₂⟩ := h j t ht hd
  obtain ⟨t₃, ht₃, hd₃, hp₃, hs₃⟩ := h' j t₂ ht₂ hd₂
  exact ⟨t₃, ht₃, hd₃, hp₃.trans hp₂, hs₃.trans hs₂⟩

theorem Buried.update {o : Option Task.TaskT} (htable : k'.table = update k.table i o)
    (hold : ∀ t, k.table i = some t → t.state ≠ .died) : Buried k k' := by
  intro j t ht hd
  have hj : j ≠ i := by
    rintro rfl
    exact hold t ht hd
  refine ⟨t, ?_, hd, rfl, rfl⟩
  rw [htable, update_of_ne hj]
  exact ht

/-- The task in slot `i` is the running process. -/
structure Runs (s : State) (i : ℕ) : Prop where
  cpu : s.k.cpu = some i
  ne : i ≠ 0
  task : ∃ t, s.k.table i = some t

theorem Settled.running (hs : Settled s) (hr : Runs s i) (ht : s.k.table i = some t) :
    t.state = .running :=
  (hs.kernel.cpu i t ht).mpr hr.cpu

theorem Settled.alive (hs : Settled s) (hr : Runs s i) :
    ∀ t, s.k.table i = some t → t.state ≠ .died := by
  intro t ht hd
  rw [hs.running hr ht] at hd
  cases hd

theorem byProcess_eq_next {f : ℕ → Task.TaskT → Outcome State} :
    s.byProcess f = .next s' ↔ ∃ i t, Runs s i ∧ s.k.table i = some t ∧ f i t = .next s' := by
  unfold State.byProcess State.process
  constructor
  · intro h
    cases hc : s.k.cpu with
    | none => simp [hc] at h
    | some i =>
      by_cases h0 : i = 0
      · simp [hc, h0] at h
      · cases ht : s.k.table i with
        | none => simp [hc, h0, ht] at h
        | some t =>
          simp only [hc, h0, ht, if_false, Option.map_some] at h
          exact ⟨i, t, ⟨hc, h0, t, ht⟩, ht, h⟩
  · rintro ⟨i, t, hr, ht, h⟩
    simp only [hr.cpu, hr.ne, ht, if_false, Option.map_some]
    exact h

theorem initial (h : Init s) : Settled s where
  kernel := Task.kinv_start h.created h.idle h.first h.cpu
  node i t ht := by
    have hc := (h.created i t ht).2
    simp [hc.node, hc.state]
  pc i := by
    rw [h.pc]
    exact id
  died i t ht hd := by
    rw [(h.created i t ht).2.state] at hd
    cases hd
  lock c _ := by
    rw [h.ctrl]
    exact ⟨rfl, rfl⟩

section Change

variable (t') in
/-- One task changes, staying alive, and is nowhere in `task_exit`. -/
theorem Settled.change (hs : Settled s) (hk : Task.KInv s'.k)
    (htable : s'.k.table = update s.k.table i (some t'))
    (hnode : t'.node = true ↔ t'.state = .blocked ∨ t'.state = .sleeping ∨ t'.state = .waiting)
    (halive : t'.state ≠ .died) (hself : ¬ (s'.pc i).InExit)
    (hpc : ∀ j, j ≠ i → s'.pc j = s.pc j) (hdid : s'.did = s.did) (hctrl : s'.ctrl = s.ctrl) :
    Settled s' := by
  have get : ∀ j u, s'.k.table j = some u → (j = i ∧ u = t') ∨ (j ≠ i ∧ s.k.table j = some u) := by
    intro j u hu
    rw [htable] at hu
    by_cases hj : j = i
    · subst hj
      rw [update_self] at hu
      exact Or.inl ⟨rfl, (Option.some.inj hu).symm⟩
    · rw [update_of_ne hj] at hu
      exact Or.inr ⟨hj, hu⟩
  refine ⟨hk, fun j u hu => ?_, fun j => ?_, fun j u hu hd => ?_, fun c => ?_⟩
  · rcases get j u hu with ⟨rfl, rfl⟩ | ⟨-, hu⟩
    · exact hnode
    · exact hs.node j u hu
  · by_cases hj : j = i
    · subst hj
      exact hself
    · rw [hpc j hj]
      exact hs.pc j
  · rcases get j u hu with ⟨rfl, rfl⟩ | ⟨hj, hu⟩
    · exact absurd hd halive
    · rw [hpc j hj, hdid]
      exact hs.died j u hu hd
  · rw [hctrl]
    exact hs.lock c

/-- A task that is alive goes to another place. -/
theorem Settled.goto (hs : Settled s) (ht : s.k.table i = some t) (halive : t.state ≠ .died)
    (hp : ¬ p.InExit) : Settled (s.goto i p) := by
  refine hs.change t hs.kernel ?_ (hs.node i t ht) halive ?_ (fun j hj => update_of_ne hj _ _) rfl
    rfl
  · rw [← ht, update_eq_self]
    rfl
  · unfold State.goto
    dsimp only
    rwa [update_self]

/-- A lock that is free has no holder. -/
theorem Settled.setCtrl (hs : Settled s) {c : ℕ} (ctrl : CtrlT)
    (hfree : ctrl.value = false → ctrl.holder = none ∧ ctrl.repeats = 0) :
    Settled (s.setCtrl c ctrl) := by
  refine ⟨hs.kernel, hs.node, hs.pc, hs.died, fun d => ?_⟩
  unfold State.setCtrl
  dsimp only
  by_cases hd : d = c
  · subst hd
    rw [update_self]
    exact hfree
  · rw [update_of_ne hd]
    exact hs.lock d

theorem Settled.setList (hs : Settled s) (l : List (Device.RequestT ℕ)) (direct : Device.Direct) :
    Settled (s.setList disk l direct) :=
  ⟨hs.kernel, hs.node, hs.pc, hs.died, hs.lock⟩

end Change

section Sched

theorem block_eq (h : block s i blist p = .next s') : ∃ t k, s.k.table i = some t ∧
    Task.taskBlock s.k i t blist .blocked = .next k ∧ s' = { s with k := k }.goto i p := by
  unfold block at h
  cases ht : s.k.table i with
  | none => simp [ht] at h
  | some t =>
    rw [ht] at h
    obtain ⟨k, hk, h⟩ := andThen_eq_next.mp h
    exact ⟨t, k, rfl, hk, (next.inj h).symm⟩

/-- The running task blocks in one of these states. -/
theorem Settled.taskBlock (hs : Settled s) (hr : Runs s i) (ht : s.k.table i = some t)
    {state : Task.TaskState} (hst : state = .blocked ∨ state = .sleeping)
    (h : Task.taskBlock s.k i t blist state = .next k) :
    Settled { s with k := k } ∧ Buried s.k k := by
  obtain ⟨htable, hcpu⟩ := Task.taskBlock_spec h
  have hne : state ≠ .died ∧ state ≠ .running := by
    rcases hst with rfl | rfl <;> exact ⟨nofun, nofun⟩
  have hk := (hs.kernel.leave { t with node := true, state := state } ht hr.cpu ⟨rfl, rfl⟩ hne
    (fun h0 => absurd h0 hr.ne) (fun hw => by rcases hst with rfl | rfl <;> cases hw) htable
    (by rw [hcpu, if_pos hr.cpu])).1
  refine ⟨hs.change _ hk htable ⟨fun _ => ?_, fun _ => rfl⟩ hne.1 (hs.pc i) (fun _ _ => rfl) rfl rfl,
    .update htable (hs.alive hr)⟩
  rcases hst with rfl | rfl
  · exact Or.inl rfl
  · exact Or.inr (Or.inl rfl)

theorem Settled.block (hs : Settled s) (hr : Runs s i) (hp : ¬ p.InExit)
    (h : Exit.block s i blist p = .next s') : Settled s' ∧ Buried s.k s'.k := by
  obtain ⟨t, k, ht, hk, rfl⟩ := block_eq h
  obtain ⟨hset, hbur⟩ := hs.taskBlock hr ht (Or.inl rfl) hk
  have htable := (Task.taskBlock_spec hk).1
  refine ⟨hset.goto (t := { t with node := true, state := .blocked }) ?_ nofun hp, hbur⟩
  dsimp only
  rw [htable, update_self]

/-- A task is made ready; the running process goes on running. -/
theorem Settled.unblock (hs : Settled s) (h : Exit.unblock s u = .next s') :
    Settled s' ∧ Buried s.k s'.k ∧ ∀ i, Runs s i → Runs s' i := by
  unfold Exit.unblock at h
  cases ht : s.k.table u with
  | none => simp [ht] at h
  | some t =>
    rw [ht] at h
    obtain ⟨k, hk, h⟩ := andThen_eq_next.mp h
    obtain rfl := next.inj h
    have hnode : t.node = true := by
      unfold Task.taskUnblock at hk
      exact (assert_eq_next.mp hk).1
    obtain ⟨htable, hcpu⟩ := Task.taskUnblock_spec hk
    have hstate := (hs.node u t ht).mp hnode
    have hrun : s.k.cpu ≠ some u := fun hc => by
      have := (hs.kernel.cpu u t ht).mpr hc
      rcases hstate with hst | hst | hst <;> rw [hst] at this <;> cases this
    have hkinv : Task.KInv k := by
      refine hs.kernel.change { t with node := false, state := .ready } ht ⟨rfl, rfl⟩ nofun
        (fun _ => Or.inl rfl) nofun htable ?_
      refine hs.kernel.tree.cpu_change htable (fun j _ => by rw [hcpu]) ?_
      rw [hcpu]
      exact ⟨nofun, fun hc => absurd hc hrun⟩
    have hold : ∀ v, s.k.table u = some v → v.state ≠ .died := by
      intro v hv hd
      rw [ht] at hv
      cases hv
      rcases hstate with hst | hst | hst <;> rw [hst] at hd <;> cases hd
    refine ⟨hs.change _ hkinv htable (by simp) nofun (hs.pc u) (fun _ _ => rfl) rfl rfl,
      .update htable hold, fun i hr => ⟨hcpu.trans hr.cpu, hr.ne, ?_⟩⟩
    have hi : i ≠ u := by
      rintro rfl
      exact hrun hr.cpu
    obtain ⟨v, hv⟩ := hr.task
    refine ⟨v, ?_⟩
    dsimp only
    rw [htable, update_of_ne hi]
    exact hv

/-- The running task gives up the processor and stays ready. -/
theorem Settled.schedule (hs : Settled s) (hc : s.k.cpu = some i) (hp : ¬ p.InExit)
    (ht : s.k.table i = some t) :
    Settled ({ s with k := Exit.schedule s.k i }.goto i p) ∧ Buried s.k (Exit.schedule s.k i) := by
  have hrun : t.state = .running := (hs.kernel.cpu i t ht).mpr hc
  have hsch : Exit.schedule s.k i = { s.k.setTask i { t with state := .ready } with cpu := none } := by
    unfold Exit.schedule
    rw [ht]
    dsimp only
    rw [if_pos hrun]
  have htable : (Exit.schedule s.k i).table = update s.k.table i (some { t with state := .ready }) := by
    rw [hsch]
    rfl
  have hk : Task.KInv (Exit.schedule s.k i) :=
    (hs.kernel.leave { t with state := .ready } ht hc ⟨rfl, rfl⟩ ⟨nofun, nofun⟩ (fun _ => rfl) nofun
      htable (by rw [hsch])).1
  have hnode : t.node = false := by
    have := hs.node i t ht
    rw [hrun] at this
    simpa using this
  refine ⟨hs.change { t with state := .ready } hk htable (by simp [hnode]) nofun ?_
    (fun j hj => update_of_ne hj _ _) rfl rfl, .update htable fun v hv hd => ?_⟩
  · unfold State.goto
    dsimp only
    rwa [update_self]
  · rw [(hs.kernel.cpu i v hv).mpr hc] at hd
    cases hd

end Sched

section Disk

theorem Runs.setCtrl (hr : Runs s i) (c : ℕ) (ctrl : CtrlT) : Runs (s.setCtrl c ctrl) i :=
  ⟨hr.cpu, hr.ne, hr.task⟩

theorem Settled.endRequest (hs : Settled s) (hr : Runs s i)
    (h : Exit.endRequest s i disk req .other = .next s') :
    Settled s' ∧ Buried s.k s'.k := by
  obtain ⟨t, ht⟩ := hr.task
  unfold Exit.endRequest at h
  dsimp only at h
  cases hn : Device.requestNextreq (s.devices disk) req with
  | mk nextreq direct =>
    rw [hn] at h
    dsimp only at h
    have hgo : Settled (returnTo (s.setList disk (Chain.remove Device.RequestT.nr
        (s.devices disk).requestList req.nr) direct) i .other) :=
      (hs.setList _ _).goto ht (by rw [hs.running hr ht]; nofun) id
    cases nextreq with
    | none =>
      obtain rfl := next.inj h
      exact ⟨hgo, .refl _⟩
    | some nextreq =>
      dsimp only at h
      cases hu : nextreq.task with
      | none => simp [hu] at h
      | some u =>
        rw [hu] at h
        obtain ⟨hset, hbur, -⟩ := hgo.unblock (assert_eq_next.mp h).2
        exact ⟨hset, hbur⟩

theorem Settled.lockRelease (hs : Settled s) (hr : Runs s i)
    (h : Exit.lockRelease s i disk req .other = .next s') :
    Settled s' ∧ Buried s.k s'.k := by
  unfold Exit.lockRelease at h
  dsimp only at h
  obtain ⟨-, h⟩ := assert_eq_next.mp h
  split_ifs at h with hrep
  · refine (hs.setCtrl _ fun hv => ?_).endRequest (hr.setCtrl _ _) h
    rw [(hs.lock _ hv).2] at hrep
    omega
  · obtain ⟨-, h⟩ := assert_eq_next.mp h
    obtain ⟨-, h⟩ := assert_eq_next.mp h
    have hset := hs.setCtrl (c := s.ctrlOf disk) { s.ctrl (s.ctrlOf disk) with
      holder := none, repeats := 0, value := false } fun _ => ⟨rfl, rfl⟩
    split at h
    · exact hset.endRequest (hr.setCtrl _ _) h
    · obtain ⟨-, h⟩ := assert_eq_next.mp h
      obtain ⟨s₁, h₁, h⟩ := andThen_eq_next.mp h
      obtain rfl := next.inj h
      obtain ⟨hs₁, hbur, hruns⟩ := hset.unblock h₁
      have hr₁ := hruns i (hr.setCtrl _ _)
      obtain ⟨t, ht⟩ := hr₁.task
      have hp : ¬ (Pc.yielded disk req .other).InExit := fun hp => hp rfl
      obtain ⟨hset', hbur'⟩ := hs₁.schedule hr₁.cpu hp ht
      exact ⟨hset', hbur.trans hbur'⟩

theorem Settled.transfer (hs : Settled s) (hr : Runs s i)
    (h : Exit.transfer s i disk req .other left = .next s') :
    Settled s' ∧ Buried s.k s'.k := by
  induction left with
  | zero => exact hs.lockRelease hr h
  | succ left ih =>
    unfold Exit.transfer at h
    split at h
    · split_ifs at h
      · refine (hs.setCtrl _ ?_).block (hr.setCtrl _ _) ?_ h
        · exact hs.lock _
        · exact fun hp => hp rfl
      · exact ih h
    · cases h

theorem Settled.mutexLock (hs : Settled s) (hr : Runs s i)
    (h : Exit.mutexLock s i disk req .other = .next s') :
    Settled s' ∧ Buried s.k s'.k := by
  unfold Exit.mutexLock at h
  dsimp only at h
  split_ifs at h
  · refine hs.block hr ?_ h
    exact fun hp => hp rfl
  · obtain ⟨-, h⟩ := assert_eq_next.mp h
    exact (hs.setCtrl _ fun hv => absurd hv (by simp)).transfer (hr.setCtrl _ _) h

theorem Settled.doRequest (hs : Settled s) (hr : Runs s i)
    (h : Exit.doRequest s i disk req .other = .next s') :
    Settled s' ∧ Buried s.k s'.k := by
  unfold Exit.doRequest at h
  obtain ⟨-, h⟩ := assert_eq_next.mp h
  split_ifs at h with hh
  · refine (hs.setCtrl _ fun hv => ?_).transfer (hr.setCtrl _ _) h
    rw [(hs.lock _ hv).1] at hh
    cases hh
  · exact hs.mutexLock hr h

variable {dev buf count idx : ℕ} {flags : ℤ} {type : Device.ReqType}

theorem Settled.deviceRequest (hs : Settled s) (hr : Runs s i)
    (h : Exit.deviceRequest s i dev buf count idx flags type .other = .next s') :
    Settled s' ∧ Buried s.k s'.k := by
  unfold Exit.deviceRequest deviceGet at h
  dsimp only at h
  obtain ⟨-, h⟩ := assert_eq_next.mp h
  obtain ⟨-, h⟩ := assert_eq_next.mp h
  obtain ⟨-, h⟩ := assert_eq_next.mp h
  obtain ⟨-, h⟩ := assert_eq_next.mp h
  obtain ⟨-, h⟩ := assert_eq_next.mp h
  obtain ⟨disk, hdisk⟩ : ∃ disk, (if (s.devices dev).parent ≠ 0 then (s.devices dev).parent
    else dev) = disk := ⟨_, rfl⟩
  rw [hdisk] at h
  have hmade : Settled { s with made := s.made + 1 } :=
    ⟨hs.kernel, hs.node, hs.pc, hs.died, hs.lock⟩
  split_ifs at h
  · exact (hmade.setList _ _).doRequest ⟨hr.cpu, hr.ne, hr.task⟩ h
  · refine (hmade.setList _ _).block ⟨hr.cpu, hr.ne, hr.task⟩ ?_ h
    exact fun hp => hp rfl

end Disk

end Onix.Exit
