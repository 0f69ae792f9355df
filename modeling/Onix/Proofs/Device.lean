import Onix.Sanity.DeviceInv

/-! `device_request` under any interleaving: one request of a disk at a time,
each exactly once, and none left behind. -/

namespace Onix.Device

open Function Outcome

variable {τ : Type*} [DecidableEq τ] {s s' s₀ : State τ} {t u : τ} {d e : ℕ} {r q : RequestT τ}
  {a : Act τ} {as bs : List (Act τ)}

/-- A request names a block device whose disk is there too. -/
def Installed (s : State τ) : Act τ → Prop
  | .request dev _ _ _ _ _ => dev < DEVICE_NR ∧ (s.devices dev).type = .block ∧
      ((s.devices dev).parent ≠ 0 → (s.devices dev).parent < DEVICE_NR ∧
        (s.devices (s.devices dev).parent).type ≠ .null)
  | _ => True

section Step

theorem Inv.deviceRequest (hi : Inv s) (hc : s.cpu = some t) (hout : s.pc t = .out)
    {dev buf count idx : ℕ} {flags : ℤ} {type : ReqType}
    (hv : Installed s (.request dev buf count idx flags type)) :
    All Inv (deviceRequest s t dev buf count idx flags type) := by
  obtain ⟨hlt, hblock, hparent⟩ := hv
  have hst : s.state t = .running := (hi.cpu t).mpr hc
  have hlink : s.linked t = false := by
    have := (hi.linked t).not.mpr (by rw [hst]; decide)
    simpa using this
  have hdisk : (if (s.devices dev).parent ≠ 0 then (s.devices dev).parent else dev) < DEVICE_NR ∧
      (s.devices (if (s.devices dev).parent ≠ 0 then (s.devices dev).parent else dev)).type ≠
        .null := by
    split_ifs with hp
    · exact hparent hp
    · exact ⟨hlt, by rw [hblock]; decide⟩
  unfold Device.deviceRequest deviceGet
  refine all_assert (by simpa using hlt) (all_assert (by simp [hblock]) (all_assert
    (by simpa using hblock) (all_assert (by simpa using hdisk.1) (all_assert
    (by simpa using hdisk.2) ?_))))
  obtain ⟨disk, hd⟩ : ∃ disk, (if (s.devices dev).parent ≠ 0 then (s.devices dev).parent else dev) =
    disk := ⟨_, rfl⟩
  rw [hd]
  dsimp only
  split_ifs with hempty
  · refine hi.enter (t := t) (d := disk) (r := ⟨s.made.length, disk, type,
      (idx + (s.devices dev).sectorStart) % 2 ^ 32, count, flags, buf, none⟩) hout rfl
      ⟨fun u => pc_goto _ t u _, fun e => list_setList s disk e _ _, rfl, rfl⟩
      (Or.inl ⟨rfl, hempty, rfl⟩) hi.cpu hi.linked fun _ _ => rfl
  · refine all_assert (by simpa [State.goto, State.setList] using hlink) ?_
    refine hi.enter (t := t) (d := disk) (r := ⟨s.made.length, disk, type,
      (idx + (s.devices dev).sectorStart) % 2 ^ 32, count, flags, buf, some t⟩) hout rfl
      ⟨fun u => pc_goto _ t u _, fun e => list_setList s disk e _ _, rfl, rfl⟩
      (Or.inr ⟨rfl, hempty, rfl, rfl, update_self _ _ _⟩) (fun u => ?_) (fun u => ?_)
      fun u hu => update_of_ne hu _ _
    · by_cases hu : u = t
      · subst hu
        simp
      · dsimp only
        rw [update_of_ne hu]
        show s.state u = .running ↔ _
        rw [hi.cpu, hc]
        simp [Ne.symm hu]
    · by_cases hu : u = t
      · subst hu
        simp
      · dsimp only
        rw [update_of_ne hu, update_of_ne hu]
        exact hi.linked u

/-- A task that blocks, and one that is made ready. -/
theorem Inv.taskBlock (hi : Inv s) (hc : s.cpu = some t) (hq : ∀ d r, s.pc t ≠ .queued d r) :
    All Inv (taskBlock s t) := by
  have hst : s.state t = .running := (hi.cpu t).mpr hc
  have hlink := (hi.linked t).not.mpr (by rw [hst]; decide)
  refine all_assert (by simpa using hlink) ?_
  refine hi.sched rfl rfl rfl rfl (fun u => ?_) (fun u => ?_) rfl fun u d r hu => ?_
  · by_cases hu : u = t
    · subst hu
      simp
    · dsimp only
      rw [update_of_ne hu, hi.cpu, hc]
      simp [Ne.symm hu]
  · by_cases hu : u = t
    · subst hu
      simp
    · dsimp only
      rw [update_of_ne hu, update_of_ne hu]
      exact hi.linked u
  · refine update_of_ne ?_ _ _
    rintro rfl
    exact hq d r hu

theorem Inv.taskUnblock (hi : Inv s) (hb : s.state u = .blocked) (hq : ∀ d r, s.pc u ≠ .queued d r) :
    All Inv (taskUnblock s u) := by
  refine all_assert ((hi.linked u).mpr hb) ?_
  refine hi.sched rfl rfl rfl rfl (fun v => ?_) (fun v => ?_) rfl fun v d r hv => ?_
  · by_cases hv : v = u
    · subst hv
      dsimp only
      rw [update_self, ← hi.cpu, hb]
      simp
    · dsimp only
      rw [update_of_ne hv]
      exact hi.cpu v
  · by_cases hv : v = u
    · subst hv
      simp
    · dsimp only
      rw [update_of_ne hv, update_of_ne hv]
      exact hi.linked v
  · refine update_of_ne ?_ _ _
    rintro rfl
    exact hq d r hv

theorem Inv.dispatch (hi : Inv s) (hc : s.cpu = none) (hr : s.state u = .ready)
    (hq : ∀ d r, s.pc u ≠ .queued d r) :
    Inv { s with state := update s.state u .running, cpu := some u } := by
  refine hi.sched rfl rfl rfl rfl (fun v => ?_) (fun v => ?_) rfl fun v d r hv => ?_
  · by_cases hv : v = u
    · subst hv
      simp
    · dsimp only
      rw [update_of_ne hv, hi.cpu, hc]
      simp [Ne.symm hv]
  · by_cases hv : v = u
    · subst hv
      dsimp only
      rw [update_self, hi.linked, hr]
      simp
    · dsimp only
      rw [update_of_ne hv]
      exact hi.linked v
  · refine update_of_ne ?_ _ _
    rintro rfl
    exact hq d r hv

theorem Inv.preempt (hi : Inv s) (hc : s.cpu = some t) (hq : ∀ d r, s.pc t ≠ .queued d r) :
    Inv { s with state := update s.state t .ready, cpu := none } := by
  have hst : s.state t = .running := (hi.cpu t).mpr hc
  refine hi.sched rfl rfl rfl rfl (fun v => ?_) (fun v => ?_) rfl fun v d r hv => ?_
  · by_cases hv : v = t
    · subst hv
      simp
    · dsimp only
      rw [update_of_ne hv, hi.cpu, hc]
      simp [Ne.symm hv]
  · by_cases hv : v = t
    · subst hv
      dsimp only
      rw [update_self, hi.linked, hst]
      simp
    · dsimp only
      rw [update_of_ne hv]
      exact hi.linked v
  · refine update_of_ne ?_ _ _
    rintro rfl
    exact hq d r hv

/-- Every action keeps the invariant, and none of its assertions fails. -/
theorem exec_inv (hi : Inv s) (hv : Installed s a) : All Inv (exec s a) := by
  have hout : ∀ {t}, s.pc t = .out → ∀ d r, s.pc t ≠ .queued d r := fun h d r hq => by
    rw [h] at hq
    cases hq
  cases a with
  | request dev buf count idx flags type =>
    unfold exec
    cases hc : s.cpu with
    | none => trivial
    | some t => exact all_guard fun hg => hi.deviceRequest hc (of_decide_eq_true hg) hv
  | pause =>
    unfold exec
    cases hc : s.cpu with
    | none => trivial
    | some t =>
      dsimp only
      cases hp : s.pc t with
      | serving d r => exact hi.taskBlock hc fun e q h => by rw [hp] at h; cases h
      | _ => trivial
  | finish =>
    unfold exec
    cases hc : s.cpu with
    | none => trivial
    | some t =>
      dsimp only
      cases hp : s.pc t with
      | serving d r => exact hi.endRequest hp
      | _ => trivial
  | block =>
    unfold exec
    cases hc : s.cpu with
    | none => trivial
    | some t => exact all_guard fun hg => hi.taskBlock hc (hout (of_decide_eq_true hg))
  | preempt =>
    unfold exec
    cases hc : s.cpu with
    | none => trivial
    | some t => exact all_guard fun hg => hi.preempt hc (hout (of_decide_eq_true hg))
  | wake u =>
    unfold exec
    dsimp only
    cases hp : s.pc u with
    | queued d r => trivial
    | _ =>
      exact all_guard fun hg => hi.taskUnblock (of_decide_eq_true hg) fun e q h => by
        rw [hp] at h
        cases h
  | dispatch u =>
    unfold exec
    refine all_guard fun hg => all_assert (by rw [hi.magic]; rfl) ?_
    obtain ⟨hc, hr⟩ := of_decide_eq_true hg
    dsimp only
    cases hp : s.pc u with
    | queued d r => exact hi.serve hp hr hc
    | _ =>
      exact hi.dispatch hc hr fun e q h => by
        rw [hp] at h
        cases h

theorem installed_of_step (h : Step s a s') : Installed s a := by
  cases a with
  | request dev buf count idx flags type =>
    unfold Step exec at h
    cases hc : s.cpu with
    | none => simp [hc] at h
    | some t =>
      rw [hc] at h
      obtain ⟨-, h⟩ := guard_eq_next.mp h
      obtain ⟨hlt, h⟩ := assert_eq_next.mp h
      obtain ⟨-, h⟩ := assert_eq_next.mp h
      obtain ⟨hblock, h⟩ := assert_eq_next.mp h
      obtain ⟨hdlt, h⟩ := assert_eq_next.mp h
      obtain ⟨hdt, -⟩ := assert_eq_next.mp h
      refine ⟨of_decide_eq_true hlt, of_decide_eq_true hblock, fun hp => ?_⟩
      rw [if_pos hp] at hdlt hdt
      exact ⟨of_decide_eq_true hdlt, of_decide_eq_true hdt⟩
  | _ => trivial

theorem run_inv (h₀ : Init s₀) (h : Run Step s₀ as s) : Inv s :=
  h.invariant (fun _ _ _ hi hs => (exec_inv hi (installed_of_step hs)).of_next hs) (inv_init h₀)

end Step

section Drain

/-- No new request is made. -/
def Quiet (as : List (Act τ)) : Prop := ∀ dev buf count idx flags type,
  .request dev buf count idx flags type ∉ as

theorem run_snoc_inv (hi : Inv s) (h : Run Step s as s') : Inv s' :=
  h.invariant (fun _ _ _ hi hs => (exec_inv hi (installed_of_step hs)).of_next hs) hi

/-- The running task can always give the processor up. -/
theorem give_up (hi : Inv s) : ∃ bs s', Run Step s bs s' ∧ Quiet bs ∧ s'.cpu = none ∧
    ∀ d, s'.list d = s.list d := by
  cases hc : s.cpu with
  | none => exact ⟨[], s, Run.nil, fun _ _ _ _ _ _ => List.not_mem_nil, hc, fun _ => rfl⟩
  | some t =>
    have hst : s.state t = .running := (hi.cpu t).mpr hc
    cases hp : s.pc t with
    | out =>
      exact ⟨[.preempt], { s with state := update s.state t .ready, cpu := none },
        Run.single (by simp [Step, exec, hc, hp, Outcome.guard]),
        fun _ _ _ _ _ _ => by simp, rfl, fun _ => rfl⟩
    | queued d r => exact absurd hst (hi.waiting t d r hp).2
    | serving d r =>
      have hlink := (hi.linked t).not.mpr (by rw [hst]; decide)
      refine ⟨[.pause], { s with
          linked := update s.linked t true, state := update s.state t .blocked, cpu := none },
        Run.single ?_, fun _ _ _ _ _ _ => by simp, rfl, fun _ => rfl⟩
      simp [Step, exec, hc, hp, taskBlock, Outcome.assert, hlink]

theorem endRequest_next (hi : Inv s) (hs : s.pc t = .serving d r) :
    ∃ s', endRequest s t d r = .next s' ∧
      s'.list d = Chain.remove RequestT.nr (s.list d) r.nr := by
  have hall := hi.endRequest hs
  have hlist : ∀ direct, ((s.setList d (Chain.remove RequestT.nr (s.devices d).requestList r.nr)
      direct).goto t .out).list d = Chain.remove RequestT.nr (s.list d) r.nr := fun direct =>
    (list_setList s d d _ direct).trans (if_pos rfl)
  unfold Device.endRequest at hall ⊢
  dsimp only at hall ⊢
  cases hn : (requestNextreq (s.devices d) r).1 with
  | none =>
    rw [hn] at hall
    exact ⟨_, rfl, hlist _⟩
  | some q =>
    rw [hn] at hall
    dsimp only at hall ⊢
    cases hq : q.task with
    | none =>
      rw [hq] at hall
      exact hall.elim
    | some u =>
      rw [hq] at hall
      dsimp only at hall ⊢
      cases hm : Outcome.assert (s.magic u == ONIX_MAGIC) (taskUnblock ((s.setList d
        (Chain.remove RequestT.nr (s.devices d).requestList r.nr)
        (requestNextreq (s.devices d) r).2).goto t .out) u) with
      | next s' =>
        refine ⟨s', hm, ?_⟩
        obtain ⟨-, hm⟩ := assert_eq_next.mp hm
        obtain ⟨-, hm⟩ := assert_eq_next.mp hm
        obtain rfl := next.inj hm
        exact hlist _
      | refused =>
        unfold taskUnblock Outcome.assert at hm
        split_ifs at hm
      | failed => exact (hall.ne_failed hm).elim

omit [DecidableEq τ] in
theorem Quiet.append (h : Quiet as) (h' : Quiet bs) : Quiet (as ++ bs) := by
  intro dev buf count idx flags type hmem
  rcases List.mem_append.mp hmem with hmem | hmem
  · exact h dev buf count idx flags type hmem
  · exact h' dev buf count idx flags type hmem

/-- The active request of a disk gets the processor. -/
theorem serve_start (hi : Inv s) (hc : s.cpu = none) (ha : Active s t d r) :
    ∃ bs s', Run Step s bs s' ∧ Quiet bs ∧ s'.cpu = some t ∧ s'.pc t = .serving d r ∧
      s'.list d = s.list d := by
  have hrun : s.state t ≠ .running := fun h => by
    have := (hi.cpu t).mp h
    rw [hc] at this
    cases this
  have hmagic := hi.magic t
  rcases ha with hp | ⟨hp, hr⟩
  · cases hst : s.state t with
    | running => exact absurd hst hrun
    | ready =>
      refine ⟨[.dispatch t], { s with state := update s.state t .running, cpu := some t },
        Run.single ?_, fun _ _ _ _ _ _ => by simp, rfl, hp, rfl⟩
      simp [Step, exec, hc, hst, hp, hmagic, Outcome.guard, Outcome.assert]
    | blocked =>
      have hlink := (hi.linked t).mpr hst
      refine ⟨[.wake t] ++ [.dispatch t], { s with
          linked := update s.linked t false
          state := update (update s.state t .ready) t .running
          cpu := some t }, Run.trans (Run.single (t := { s with
            linked := update s.linked t false, state := update s.state t .ready }) ?_)
          (Run.single ?_), fun _ _ _ _ _ _ => by simp, rfl, hp, rfl⟩
      · simp [Step, exec, hst, hp, hlink, taskUnblock, Outcome.guard, Outcome.assert]
      · simp [Step, exec, hc, hp, hmagic, Outcome.guard, Outcome.assert]
  · refine ⟨[.dispatch t], enterRequest
        { s with state := update s.state t .running, cpu := some t } t d r,
      Run.single ?_, fun _ _ _ _ _ _ => by simp, rfl, update_self _ _ _, rfl⟩
    simp [Step, exec, hc, hr, hp, hmagic, Outcome.guard, Outcome.assert]

/-- One more request of the disk can be served to its end. -/
theorem serve_one (hi : Inv s) (hc : s.cpu = none) (hne : s.list d ≠ []) :
    ∃ bs s', Run Step s bs s' ∧ Quiet bs ∧ s'.cpu = none ∧
      (s'.list d).length < (s.list d).length := by
  obtain ⟨t, r, ha⟩ := hi.token d hne
  obtain ⟨bs, s₁, hrun₁, hquiet₁, hc₁, hp₁, hl₁⟩ := serve_start hi hc ha
  have hi₁ := run_snoc_inv hi hrun₁
  obtain ⟨s₂, hend, hl₂⟩ := endRequest_next hi₁ hp₁
  have hfinish : Step s₁ .finish s₂ := by
    unfold Step exec
    rw [hc₁]
    dsimp only
    rw [hp₁]
    exact hend
  obtain ⟨cs, s₃, hrun₃, hquiet₃, hc₃, hl₃⟩ :=
    give_up ((exec_inv hi₁ (installed_of_step hfinish)).of_next hfinish)
  refine ⟨bs ++ [.finish] ++ cs, s₃, (hrun₁.snoc hfinish).trans hrun₃,
    (hquiet₁.append fun _ _ _ _ _ _ => by simp).append hquiet₃, hc₃, ?_⟩
  have hr : r ∈ s₁.list d := (hi₁.member d r).mpr ⟨t, Or.inr hp₁⟩
  rw [hl₃, hl₂, ← hl₁]
  refine List.length_filter_lt_length_iff_exists.mpr ⟨r, hr, by simp⟩

theorem drain (hi : Inv s) (hc : s.cpu = none) (d : ℕ) :
    ∃ bs s', Run Step s bs s' ∧ Quiet bs ∧ s'.list d = [] := by
  obtain ⟨n, hn⟩ : ∃ n, (s.list d).length = n := ⟨_, rfl⟩
  induction n using Nat.strong_induction_on generalizing s with
  | _ n ih =>
    by_cases hne : s.list d = []
    · exact ⟨[], s, Run.nil, fun _ _ _ _ _ _ => List.not_mem_nil, hne⟩
    · obtain ⟨bs, s₁, hrun, hquiet, hc₁, hlt⟩ := serve_one hi hc hne
      obtain ⟨cs, s₂, hrun', hquiet', hempty⟩ :=
        ih _ (hn ▸ hlt) (run_snoc_inv hi hrun) hc₁ rfl
      exact ⟨bs ++ cs, s₂, hrun.trans hrun', hquiet.append hquiet', hempty⟩

end Drain

/-- In every state reached: at most one request of a disk is in `do_request`; a
request made either waits, not yet performed, or has been performed once; of a list
that is not empty one request is active, and the others belong to blocked tasks;
`request_nextreq` finds such a request unless there is none; no assertion fails;
and each list can be served to its end. -/
theorem request_handoff (h₀ : Init s₀) (h : Run Step s₀ as s) :
    (∀ t u d r q, s.pc t = .serving d r → s.pc u = .serving d q → t = u) ∧
    (∀ r ∈ s.made, (s.performed.count r = 1 ∧ ∀ t d, s.pc t ≠ .queued d r) ∨
      (s.performed.count r = 0 ∧ ∃ t d, s.pc t = .queued d r)) ∧
    (∀ r ∈ s.performed, r ∈ s.made) ∧
    (∀ d, s.list d ≠ [] → ∃ t r, r ∈ s.list d ∧ Active s t d r ∧ ∀ q ∈ s.list d, q ≠ r →
      ∃ u, q.task = some u ∧ s.pc u = .queued d q ∧ s.state u = .blocked) ∧
    (∀ t d r, s.pc t = .serving d r →
      ((requestNextreq (s.devices d) r).1 = none ↔ s.list d = [r]) ∧
      ∀ q, (requestNextreq (s.devices d) r).1 = some q →
        ∃ u, q.task = some u ∧ s.pc u = .queued d q ∧ s.state u = .blocked) ∧
    (∀ a, Installed s a → exec s a ≠ .failed) ∧
    ∀ d, ∃ bs s', Run Step s bs s' ∧ Quiet bs ∧ s'.list d = [] := by
  have hi := run_inv h₀ h
  have hothers : ∀ {t d r q}, Active s t d r → q ∈ s.list d → q.nr ≠ r.nr →
      ∃ u, q.task = some u ∧ s.pc u = .queued d q ∧ s.state u = .blocked := by
    intro t d r q ha hq hne
    obtain ⟨u, -, hpc, htask, hst⟩ := hi.others_blocked ha hq hne
    exact ⟨u, htask, hpc, hst⟩
  refine ⟨fun t u d r q ht hu => hi.unique t u d r q (Or.inl ht) (Or.inl hu), fun r hr => ?_,
    fun r hr => ((hi.performed r).mp hr).1, fun d hd => ?_, fun t d r hs => ?_,
    fun a hv => (exec_inv hi hv).ne_failed, fun d => ?_⟩
  · by_cases hq : ∃ t d, s.pc t = .queued d r
    · refine Or.inr ⟨List.count_eq_zero.mpr fun hp => ?_, hq⟩
      obtain ⟨t, d, htd⟩ := hq
      exact ((hi.performed r).mp hp).2 t d htd
    · have hn : ∀ t d, s.pc t ≠ .queued d r := fun t d htd => hq ⟨t, d, htd⟩
      exact Or.inl ⟨List.count_eq_one_of_mem hi.once ((hi.performed r).mpr ⟨hr, hn⟩), hn⟩
  · obtain ⟨t, r, ha⟩ := hi.token d hd
    have hr := (hi.member d r).mpr ⟨t, ha.holds⟩
    refine ⟨t, r, hr, ha, fun q hq hne => hothers ha hq fun hn => hne ?_⟩
    obtain ⟨u, hu⟩ := (hi.member d q).mp hq
    exact (hi.eq_of_nr hu ha.holds hn).1
  · obtain ⟨hnone, hsome⟩ :=
      requestNextreq_spec (hi.nodup d) ((hi.member d r).mpr ⟨t, Or.inr hs⟩)
    exact ⟨hnone, fun q hq => hothers (Or.inl hs) (hsome q hq).1 (hsome q hq).2⟩
  · obtain ⟨bs, s₁, hrun, hquiet, hc, -⟩ := give_up hi
    obtain ⟨cs, s₂, hrun', hquiet', hempty⟩ := drain (run_snoc_inv hi hrun) hc d
    exact ⟨bs ++ cs, s₂, hrun.trans hrun', hquiet.append hquiet', hempty⟩

/-- One disk with a partition; task 0 runs, the others are ready. -/
def start : State (Fin 3) where
  devices d :=
    if d = 1 then ⟨.block, 0, 0, [], .up⟩
    else if d = 2 then ⟨.block, 1, 63, [], .up⟩
    else ⟨.null, 0, 0, [], .up⟩
  cpu := some 0
  state t := if t = 0 then .running else .ready
  linked _ := false
  magic _ := ONIX_MAGIC
  pc _ := .out
  made := []
  performed := []

theorem init_start : Init start where
  empty d := by
    unfold start
    dsimp only
    split_ifs <;> rfl
  pc _ := rfl
  cpu := by decide
  linked := by decide
  magic _ := rfl
  made := rfl
  performed := rfl

/-- Two tasks ask for blocks of the partition while task 0 is served. -/
def busy : List (Act (Fin 3)) :=
  [.request 2 0 2 10 0 .read, .pause, .dispatch 1, .request 2 0 2 4 0 .write, .dispatch 2,
    .request 1 0 2 90 0 .read]

theorem request_handoff_busy : ∃ s, Run Step start busy s ∧ s.made.length = 3 ∧
    s.performed.length = 1 ∧ ∃ bs s', Run Step s bs s' ∧ Quiet bs ∧ s'.list 1 = [] := by
  obtain ⟨s, hs, hp⟩ := run_of_play (fun _ _ => True) exec start busy
    (fun s => s.made.length == 3 && s.performed.length == 1) (by decide)
  simp only [Bool.and_eq_true, beq_iff_eq] at hp
  have hrun : Run Step start busy s := hs.of_guarded
  exact ⟨s, hrun, hp.1, hp.2, (request_handoff init_start hrun).2.2.2.2.2.2 1⟩

end Onix.Device
