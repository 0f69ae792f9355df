import Onix.Sanity.SchedInv

/-! The scheduler over every run: one task runs, whoever is blocked, asleep or waiting is
on one list and nobody else is on any, and no assertion fails. -/

namespace Onix.Sched

open Function Outcome Onix.Task
open Mutex (ONIX_MAGIC)

variable {s s' s₀ : State} {k k' : Kernel} {i j n : ℕ} {t t' u : TaskT} {as : List Act}

/-- What also holds inside a call, where the running task may have left the processor. -/
structure Sound (s : State) : Prop where
  tree : Tree s.k
  lists : Lists s.k
  magic : ∀ i t, s.k.table i = some t → s.magic i = ONIX_MAGIC
  call : s.call 0 = none

structure Inv (s : State) : Prop extends Sound s where
  running : ∃ i t, s.k.cpu = some i ∧ s.k.table i = some t

theorem not_linked (h : t.state = .ready ∨ t.state = .running) : ¬ Linked t.state := by
  rcases h with h | h <;> simp [Linked, h]

/-- The task that `schedule` switches to, and what becomes of the others. -/
theorem schedule_next (hs : Sound s) (hc : s.k.cpu = some i ∨ s.k.cpu = none) :
    ∃ n v k', s.k.table n = some v ∧ (v.state = .ready ∨ v.state = .running) ∧
      (n ≠ i ∨ ∀ j u, s.k.table j = some u → u.state = .ready → j = i) ∧
      schedule s i = .next { s with k := k', held := 0 } ∧ k'.cpu = some n ∧
      k'.lists = s.k.lists ∧ ∀ j, k'.table j = (s.k.table j).map (switched i n j) := by
  obtain ⟨n, hn, ⟨hne, u, hu, hr⟩ | ⟨rfl, rfl, hno⟩⟩ := taskSearch_ready hs.tree hc
  · obtain ⟨k', hk⟩ := schedule_eq hn (hs.magic n u hu)
    exact ⟨n, u, k', hu, .inl hr, .inl hne, hk⟩
  · obtain ⟨u, hu, hr, -⟩ := hs.tree.idle
    obtain ⟨k', hk⟩ := schedule_eq hn (hs.magic 0 u hu)
    exact ⟨0, u, k', hu, hr, .inr hno, hk⟩

/-- `schedule` makes the task it has chosen the only running one. -/
theorem schedule_inv (hs : Sound s) (hc : s.k.cpu = some i ∨ s.k.cpu = none) :
    All Inv (schedule s i) := by
  obtain ⟨n, v, k', hv, hvs, -, hk', hcpu, hlists, htable⟩ := schedule_next hs hc
  rw [hk']
  have new : ∀ j u', k'.table j = some u' →
      ∃ u, s.k.table j = some u ∧ u' = switched i n j u := by
    intro j u' hu'
    rw [htable] at hu'
    obtain ⟨u, hu, rfl⟩ := Option.map_eq_some_iff.mp hu'
    exact ⟨u, hu, rfl⟩
  have old : ∀ j u, s.k.table j = some u → k'.table j = some (switched i n j u) := by
    intro j u hu
    rw [htable, hu, Option.map_some]
  have state : ∀ j u, s.k.table j = some u → (switched i n j u).state = u.state ∨
      ((switched i n j u).state = .ready ∨ (switched i n j u).state = .running) ∧
        (u.state = .ready ∨ u.state = .running) := by
    intro j u hu
    rw [switched_state]
    split_ifs with hj hi
    · obtain rfl : v = u := by simpa [hj ▸ hu] using hv.symm
      exact .inr ⟨.inr rfl, hvs⟩
    · exact .inr ⟨.inl rfl, .inr hi.2⟩
    · exact .inl rfl
  have linked : ∀ j u, s.k.table j = some u →
      (Linked (switched i n j u).state ↔ Linked u.state) := by
    intro j u hu
    rcases state j u hu with h | ⟨h, h'⟩
    · rw [h]
    · exact iff_of_false (not_linked h) (not_linked h')
  have htree : Tree k' := by
    refine hs.tree.congr (fun j u' hu' => ?_) (fun j u hu => ?_) (fun u' hu' => ?_)
      fun j u' hu' => ?_
    · obtain ⟨u, hu, rfl⟩ := new j u' hu'
      have := switched_fields i n j u
      exact ⟨u, hu, this.1, this.2.1⟩
    · refine ⟨_, old j u hu, (switched_fields i n j u).2.1, fun hd => ?_⟩
      rcases state j u hu with h | ⟨h | h, -⟩ <;> rw [h]
      · exact hd
      · nofun
      · nofun
    · obtain ⟨u, hu, rfl⟩ := new 0 u' hu'
      obtain ⟨w, hw, hws, -⟩ := hs.tree.idle
      obtain rfl : w = u := by simpa [hu] using hw.symm
      rcases state 0 w hu with h | ⟨h, -⟩
      · rwa [h]
      · exact h
    · obtain ⟨u, hu, rfl⟩ := new j u' hu'
      rw [switched_state, hcpu]
      obtain rfl | hjn := eq_or_ne j n
      · simp
      · rw [if_neg hjn]
        refine iff_of_false (fun h => ?_) (by simpa using hjn.symm)
        split_ifs at h with hi
        -- the only running task is the one that calls
        have hrun := (hs.tree.cpu j u hu).mp h
        rcases hc with hc | hc
        · exact hi ⟨Option.some.inj (hrun.symm.trans hc), h⟩
        · simp [hc] at hrun
  have hl : Lists k' := by
    refine hs.lists.congr hlists (fun j u' hu' => ?_) (fun j u hu hlink => ?_)
      fun j u' hu' hlink => ?_
    · obtain ⟨u, hu, rfl⟩ := new j u' hu'
      rw [(switched_fields i n j u).2.2.1, linked j u hu]
      exact hs.lists.node j u hu
    · refine ⟨_, old j u hu, (linked j u hu).mpr hlink, ?_⟩
      rcases state j u hu with h | ⟨-, h⟩
      · rw [h]
      · exact absurd hlink (not_linked h)
    · obtain ⟨u, hu, rfl⟩ := new j u' hu'
      exact ⟨u, hu, (linked j u hu).mp hlink⟩
  refine ⟨⟨htree, hl, fun j u' hu' => ?_, hs.call⟩, n, _, hcpu, old n v hv⟩
  obtain ⟨u, hu, -⟩ := new j u' hu'
  exact hs.magic j u hu

section Calls

/-- A call goes on from a result that is known to be good. -/
theorem all_of_next {σ : Type*} {P Q : σ → Prop} {o : Outcome σ} (h : All P o)
    (hPQ : ∀ x, o = .next x → P x → Q x) : All Q o := by
  cases o with
  | next x => exact hPQ x rfl h
  | refused => trivial
  | failed => exact h

variable (t') in
/-- The running task is put on a list other than the sleep list. -/
theorem taskBlock_all (ht : Tree k) (hl : Lists k) (hi : k.table i = some t) (h0 : i ≠ 0)
    (hc : k.cpu = some i) (hsame : t'.pid = t.pid ∧ t'.ppid = t.ppid ∧ t'.node = t.node)
    (blist : ListId) {state : TaskState} (hb : blist ≠ .sleepList)
    (hstate : state = .blocked ∨ state = .waiting) :
    All (fun k' => Tree k' ∧ Lists k' ∧ k'.cpu = none ∧
      k'.table = update k.table i (some { t' with node := true, state := state }))
      (taskBlock (k.setTask i t') i t' blist state) := by
  have hrun : t.state = .running := (ht.cpu i t hi).mpr hc
  have hfree : ¬ Linked t.state := not_linked (.inr hrun)
  have hnode : t.node = false := by
    have := (hl.node i t hi).mp.mt hfree
    simpa using this
  have hoff : i ∉ k.lists blist := by
    intro hmem
    obtain ⟨u, hu, hlink, -⟩ := hl.mem blist i hmem
    obtain rfl : t = u := Option.some.inj (hi.symm.trans hu)
    exact hfree hlink
  have hlinked : Linked state := by rcases hstate with rfl | rfl <;> simp [Linked]
  unfold taskBlock
  refine all_assert (by simp [hsame.2.2, hnode]) (all_assert ?_ (all_assert ?_ ?_))
  · simpa [Kernel.setTask] using hoff
  · rcases hstate with rfl | rfl <;> decide
  · simp only [Kernel.setTask, hc, if_true]
    refine ⟨?_, ?_, rfl, update_idem _ _ _⟩
    · refine ht.change { t' with node := true, state := state } hi ⟨hsame.1, hsame.2.1⟩ ?_ (fun h => absurd h h0) (update_idem _ _ _)
        (ht.cpu_change (update_idem _ _ _) (fun j hj => ?_) ?_)
      · rcases hstate with rfl | rfl <;> exact fun h => by cases h
      · simp [hc, hj.symm]
      · rcases hstate with rfl | rfl <;> simp
    · refine hl.link hi hfree (List.Perm.refl _) rfl hlinked ?_ (update_idem _ _ _) rfl
      rcases hstate with rfl | rfl <;> simp [hb]

variable (t') in
/-- A task is taken off its list and made ready. -/
theorem taskUnblock_all (ht : Tree k) (hl : Lists k) (hi : k.table i = some t)
    (hlink : Linked t.state) (hsame : t'.pid = t.pid ∧ t'.ppid = t.ppid ∧ t'.node = t.node) :
    All (fun k' => Tree k' ∧ Lists k' ∧ k'.cpu = k.cpu ∧
      k'.table = update k.table i (some { t' with node := false, state := .ready }))
      (taskUnblock k i t') := by
  have hrun : k.cpu ≠ some i := by
    intro hc
    exact not_linked (.inr ((ht.cpu i t hi).mpr hc)) hlink
  unfold taskUnblock
  refine all_assert ?_ ⟨?_, ?_, rfl, rfl⟩
  · rw [hsame.2.2]
    exact (hl.node i t hi).mpr hlink
  · refine ht.change { t' with node := false, state := .ready } hi ⟨hsame.1, hsame.2.1⟩ nofun (fun _ => .inl rfl) rfl
      (ht.cpu_change rfl (fun j hj => Iff.rfl) ?_)
    exact iff_of_false nofun hrun
  · exact hl.unlink rfl (not_linked (.inl rfl)) rfl rfl

/-- The tasks at the front of the sleep list are made ready one after the other. -/
theorem wakeLoop_all (jiffies : ℕ) (is : List ℕ) (ht : Tree k) (hl : Lists k) (hnd : is.Nodup)
    (his : ∀ i ∈ is, ∃ t, k.table i = some t ∧ t.state = .sleeping) :
    All (fun k' => Tree k' ∧ Lists k' ∧ k'.cpu = k.cpu ∧
      ∀ j, (k'.table j).isSome = (k.table j).isSome) (wakeLoop jiffies is k) := by
  induction is generalizing k with
  | nil => exact ⟨ht, hl, rfl, fun j => rfl⟩
  | cons i is ih =>
    obtain ⟨hi, hnd⟩ := List.nodup_cons.mp hnd
    obtain ⟨t, hti, hts⟩ := his i List.mem_cons_self
    unfold wakeLoop
    rw [hti]
    dsimp only
    split_ifs
    · exact ⟨ht, hl, rfl, fun j => rfl⟩
    refine all_andThen ((taskUnblock_all { t with ticks := 0 } ht hl hti (.inr (.inl hts))
      ⟨rfl, rfl, rfl⟩).mono ?_)
    intro k₁ ⟨ht₁, hl₁, hc₁, htable⟩
    refine (ih ht₁ hl₁ hnd fun j hj => ?_).mono ?_
    · obtain ⟨u, hu, hus⟩ := his j (List.mem_cons_of_mem i hj)
      refine ⟨u, ?_, hus⟩
      rw [htable, update_of_ne, hu]
      rintro rfl
      exact hi hj
    · intro k₂ ⟨ht₂, hl₂, hc₂, hsome⟩
      refine ⟨ht₂, hl₂, hc₂.trans hc₁, fun j => ?_⟩
      rw [hsome, htable]
      obtain rfl | hj := eq_or_ne j i
      · simp [hti]
      · rw [update_of_ne hj]

/-- The exiting task is on no list; a parent that waits for it comes off its own. -/
theorem taskExit_all (ht : Tree k) (hl : Lists k) (hi : k.table i = some t) (h0 : i ≠ 0)
    (hc : k.cpu = some i) (status : ℤ) : All Lists (taskExit k i t status) := by
  have hrun : t.state = .running := (ht.cpu i t hi).mpr hc
  have hfree : ¬ Linked t.state := not_linked (.inr hrun)
  have hnode : t.node = false := by
    have := (hl.node i t hi).mp.mt hfree
    simpa using this
  have table₁ := table_buried status ht hi
  have lists₁ : (reparent (k.setTask i { t with state := .died, status := status })
    t.pid t.ppid).lists = k.lists := rfl
  have buried_eq : ∀ j u, k.table j = some u → (buried i t status j u).node = u.node ∧
      (Linked (buried i t status j u).state ↔ Linked u.state) ∧
      ((buried i t status j u).state = .sleeping ↔ u.state = .sleeping) := by
    intro j u hu
    unfold buried
    obtain rfl | hj := eq_or_ne j i
    · obtain rfl : t = u := Option.some.inj (hi.symm.trans hu)
      dsimp only
      split_ifs <;> simp [Linked, hrun]
    · simp only [hj, if_false]
      split_ifs <;> simp
  unfold taskExit
  refine all_assert (by simp [hnode, hrun]) ?_
  dsimp only
  generalize reparent (k.setTask i { t with state := .died, status := status }) t.pid t.ppid = k₁
    at table₁ lists₁
  have new : ∀ j u', k₁.table j = some u' →
      ∃ u, k.table j = some u ∧ u' = buried i t status j u := by
    intro j u' hu'
    rw [table₁] at hu'
    obtain ⟨u, hu, rfl⟩ := Option.map_eq_some_iff.mp hu'
    exact ⟨u, hu, rfl⟩
  have hl₁ : Lists { k₁ with cpu := none } := by
    refine hl.congr lists₁ (fun j u' hu' => ?_) (fun j u hu hlink => ?_) fun j u' hu' hlink => ?_
    · obtain ⟨u, hu, rfl⟩ := new j u' hu'
      have := buried_eq j u hu
      rw [this.1, this.2.1]
      exact hl.node j u hu
    · have := buried_eq j u hu
      exact ⟨_, by rw [table₁, hu, Option.map_some], this.2.1.mpr hlink, this.2.2⟩
    · obtain ⟨u, hu, rfl⟩ := new j u' hu'
      exact ⟨u, hu, (buried_eq j u hu).2.1.mp hlink⟩
  obtain ⟨p, hp, -⟩ := ht.parent i t hi h0
  have hp₁ : k₁.table t.ppid = some (buried i t status t.ppid p) := by
    rw [table₁, hp, Option.map_some]
  rw [hp₁]
  dsimp only
  split_ifs with hw
  · refine all_assert ?_ ?_
    · exact (hl₁.node _ _ hp₁).mpr (.inr (.inr hw.1))
    · exact hl₁.unlink rfl (not_linked (.inl rfl)) rfl rfl
  · exact hl₁

/-- How a pass of `task_waitpid` leaves the tasks and the lists. -/
structure Passed (k : Kernel) (i : ℕ) (r : Kernel × WaitResult) : Prop where
  tree : Tree r.1
  lists : Lists r.1
  cpu : r.1.cpu = if r.2 = .waits then none else k.cpu
  self : (r.1.table i).isSome
  old : ∀ j, (r.1.table j).isSome → (k.table j).isSome

theorem taskWaitpid_all (ht : Tree k) (hl : Lists k) (hi : k.table i = some t) (h0 : i ≠ 0)
    (hc : k.cpu = some i) (pid : ℤ) : All (Passed k i) (taskWaitpid k i t pid) := by
  have hrun : t.state = .running := (ht.cpu i t hi).mpr hc
  obtain ⟨hsome, -⟩ := waitScan_spec (k := k) t.pid pid (List.range' 2 (NR_TASKS - 2)) false
  unfold taskWaitpid
  generalize waitScan k t.pid pid (List.range' 2 (NR_TASKS - 2)) false = w at hsome
  obtain ⟨found, b⟩ := w
  cases found with
  | some jc =>
    obtain ⟨j, c⟩ := jc
    obtain ⟨hj, hcj, -, hd⟩ := hsome j c rfl
    have hij : i ≠ j := by
      rintro rfl
      obtain rfl : t = c := Option.some.inj (hi.symm.trans hcj)
      simp [hrun] at hd
    have new : ∀ m u, update k.table j none m = some u → m ≠ j ∧ k.table m = some u := by
      intro m u hu
      have hm : m ≠ j := by
        rintro rfl
        simp at hu
      exact ⟨hm, by simpa [hm] using hu⟩
    refine ⟨ht.reap hcj hd (by simp at hj; omega), ?_, rfl, by simp [hij, hi], fun m hm => ?_⟩
    · refine hl.congr rfl (fun m u hu => hl.node m u (new m u hu).2) (fun m u hu hlink => ?_)
        fun m u hu hlink => ⟨u, (new m u hu).2, hlink⟩
      have hm : m ≠ j := by
        rintro rfl
        obtain rfl : c = u := Option.some.inj (hcj.symm.trans hu)
        simp [Linked, hd] at hlink
      exact ⟨u, by simpa [hm] using hu, hlink, Iff.rfl⟩
    · obtain ⟨u, hu⟩ := Option.isSome_iff_exists.mp hm
      rw [(new m u hu).2]
      rfl
  | none =>
    cases b with
    | false => exact ⟨ht, hl, rfl, by simp [hi], fun j hj => hj⟩
    | true =>
      have hb := taskBlock_all { t with waitpid := pid } ht hl hi h0 hc ⟨rfl, rfl, rfl⟩ .blockList
        nofun (.inr rfl)
      dsimp only
      cases hk : taskBlock (k.setTask i { t with waitpid := pid }) i { t with waitpid := pid }
          .blockList .waiting with
      | refused => trivial
      | failed =>
        rw [hk] at hb
        exact hb
      | next k' =>
        rw [hk] at hb
        obtain ⟨ht', hl', hc', htable⟩ := hb
        refine ⟨ht', hl', hc', by simp [htable], fun j hj => ?_⟩
        dsimp only at hj
        rw [htable] at hj
        obtain rfl | hne := eq_or_ne j i
        · simp [hi]
        · rwa [update_of_ne hne] at hj

end Calls

section Actions

theorem process_eq (h : process s = some (i, t)) :
    s.k.cpu = some i ∧ i ≠ 0 ∧ s.k.table i = some t := by
  unfold process at h
  cases hc : s.k.cpu with
  | none => simp [hc] at h
  | some m =>
    rw [hc] at h
    dsimp only at h
    split_ifs at h with hg
    obtain ⟨u, hu, he⟩ := Option.map_eq_some_iff.mp h
    obtain ⟨rfl, rfl⟩ := Prod.mk.inj he
    simp only [Bool.or_eq_true, decide_eq_true_eq, not_or] at hg
    exact ⟨rfl, hg.1, hu⟩

/-- The tasks are those of `s`, some of them gone. -/
theorem Sound.of_kernel (hs : Sound s) {k : Kernel} (ht : Tree k) (hl : Lists k)
    (hold : ∀ j, (k.table j).isSome → (s.k.table j).isSome) : Sound { s with k := k } := by
  refine ⟨ht, hl, fun j u hu => ?_, hs.call⟩
  obtain ⟨v, hv⟩ := Option.isSome_iff_exists.mp (hold j (by rw [hu]; rfl))
  exact hs.magic j v hv

theorem isSome_update (hi : k.table i = some t) (htable : k'.table = update k.table i (some t')) :
    ∀ j, (k'.table j).isSome = (k.table j).isSome := by
  intro j
  rw [htable]
  obtain rfl | hj := eq_or_ne j i
  · simp [hi]
  · rw [update_of_ne hj]

/-- `task_sleep` puts the running task on the sleep list and calls `schedule`. -/
theorem taskSleep_eq (hs : Inv s) (hp : process s = some (i, t)) (ms : ℕ) :
    ∃ k' ticks, taskSleep s i t ms = schedule { s with k := k' } i ∧ Sound { s with k := k' } ∧
      k'.cpu = none ∧ k'.table = update s.k.table i
        (some { t with ticks := ticks, node := true, state := .sleeping }) ∧
      ticks = int32 (s.jiffies + (if ms / JIFFY > 0 then ms / JIFFY else 1 : ℕ)) ∧
      k'.lists .sleepList = insertSort (ticksOf k') i (s.k.lists .sleepList) := by
  obtain ⟨hc, h0, hi⟩ := process_eq hp
  have hrun : t.state = .running := (hs.tree.cpu i t hi).mpr hc
  have hfree : ¬ Linked t.state := not_linked (.inr hrun)
  have hnode : t.node = false := by
    have := (hs.lists.node i t hi).mp.mt hfree
    simpa using this
  unfold taskSleep
  dsimp only
  generalize int32 _ = ticks
  refine ⟨_, ticks, if_pos (by simp [hnode]), hs.of_kernel ?_ ?_ fun j hj => ?_, rfl,
    update_idem _ _ _, rfl, ?_⟩
  · refine hs.tree.change { t with ticks := ticks, node := true, state := .sleeping } hi ⟨rfl, rfl⟩
      nofun (fun h => absurd h h0) (update_idem _ _ _)
      (hs.tree.cpu_change (update_idem _ _ _) (fun j hj => ?_) (by simp))
    simp [hc, hj.symm]
  · exact hs.lists.link hi hfree (insertSort_perm _ i _) rfl (.inr (.inl rfl)) (by simp)
      (update_idem _ _ _) rfl
  · exact (isSome_update hi (update_idem _ _ _) j).symm.trans hj
  · change update s.k.lists .sleepList _ .sleepList = _
    rw [update_self]
    -- the sort reads the `ticks` that the sleeping task keeps
    refine congrArg (fun key : ℕ → ℤ => insertSort key i (s.k.lists .sleepList))
      (funext fun j => ?_)
    unfold ticksOf Kernel.setTask
    dsimp only
    obtain rfl | hj := eq_or_ne j i
    · rw [update_self, update_self]
    · rw [update_of_ne hj, update_of_ne hj, update_of_ne hj]

/-- The running task is blocked, up to its `schedule`. -/
theorem block_all (hs : Inv s) (hp : process s = some (i, t)) (blist : Option ℕ) {state : TaskState}
    (hstate : state = .blocked ∨ state = .waiting) :
    All (fun k' => Sound { s with k := k' } ∧ k'.cpu = none ∧
      k'.table = update s.k.table i (some { t with node := true, state := state }))
      (taskBlock s.k i t (blistOf blist) state) := by
  obtain ⟨hc, h0, hi⟩ := process_eq hp
  have hb : blistOf blist ≠ .sleepList := by cases blist <;> nofun
  have hset : s.k.setTask i t = s.k := by
    unfold Kernel.setTask
    rw [← hi, update_eq_self]
  have hall := taskBlock_all t hs.tree hs.lists hi h0 hc ⟨rfl, rfl, rfl⟩ _ hb hstate
  rw [hset] at hall
  refine hall.mono fun k' ⟨ht', hl', hc', htable⟩ => ⟨hs.of_kernel ht' hl' fun j hj => ?_, hc', htable⟩
  rwa [isSome_update hi htable] at hj

/-- The running task has exited, up to its `schedule`. -/
theorem exit_all (hs : Inv s) (hp : process s = some (i, t)) (status : ℤ) :
    All (fun k' => Sound { s with k := k' } ∧ k'.cpu = none) (taskExit s.k i t status) := by
  obtain ⟨hc, h0, hi⟩ := process_eq hp
  refine all_of_next (taskExit_all hs.tree hs.lists hi h0 hc status) fun k' hk' hl => ?_
  obtain ⟨-, hcpu, htable⟩ := taskExit_spec hs.tree hi hk'
  refine ⟨hs.of_kernel (hs.tree.exit hi h0 hk') hl fun j hj => ?_, hcpu⟩
  simpa [htable] using hj

theorem taskWakeup_inv (hs : Inv s) :
    All (fun s' => Inv s' ∧ s'.k.cpu = s.k.cpu ∧ s'.magic = s.magic) (taskWakeup s) := by
  have his : ∀ i ∈ s.k.lists .sleepList, ∃ t, s.k.table i = some t ∧ t.state = .sleeping := by
    intro i hi
    obtain ⟨t, ht, -, hsleep⟩ := hs.lists.mem .sleepList i hi
    exact ⟨t, ht, hsleep.mp rfl⟩
  unfold taskWakeup
  refine all_andThen ((wakeLoop_all s.jiffies _ hs.tree hs.lists (hs.lists.nodup _) his).mono ?_)
  intro k ⟨ht, hl, hc, hsome⟩
  obtain ⟨i, t, hi, hti⟩ := hs.running
  obtain ⟨u, hu⟩ := Option.isSome_iff_exists.mp ((hsome i).trans (by rw [hti]; rfl))
  exact ⟨⟨hs.of_kernel ht hl fun j hj => hsome j ▸ hj, i, u, hc.trans hi, hu⟩, hc, rfl⟩

/-- A task gets other values in the fields that only the clock reads. -/
theorem modTask_inv (hs : Inv s) (f : TaskT → TaskT) (hf : ∀ u, (f u).pid = u.pid ∧
    (f u).ppid = u.ppid ∧ (f u).node = u.node ∧ (f u).state = u.state) (jiffies held : ℕ) :
    Inv { s with k := modTask s.k i f, jiffies := jiffies, held := held } := by
  have new : ∀ j u', (modTask s.k i f).table j = some u' →
      ∃ u, s.k.table j = some u ∧ u'.pid = u.pid ∧ u'.ppid = u.ppid ∧ u'.node = u.node ∧
        u'.state = u.state := by
    intro j u' hu'
    rw [modTask_table] at hu'
    split_ifs at hu'
    · obtain ⟨u, hu, rfl⟩ := Option.map_eq_some_iff.mp hu'
      exact ⟨u, hu, hf u⟩
    · exact ⟨u', hu', rfl, rfl, rfl, rfl⟩
  have old : ∀ j u, s.k.table j = some u → ∃ u', (modTask s.k i f).table j = some u' ∧
      u'.ppid = u.ppid ∧ u'.state = u.state := by
    intro j u hu
    rw [modTask_table, hu]
    split_ifs
    · exact ⟨f u, rfl, (hf u).2.1, (hf u).2.2.2⟩
    · exact ⟨u, rfl, rfl, rfl⟩
  have htree : Tree (modTask s.k i f) := by
    refine hs.tree.congr (fun j u' hu' => ?_) (fun j u hu => ?_) (fun u' hu' => ?_)
      fun j u' hu' => ?_
    · obtain ⟨u, hu, h₁, h₂, -⟩ := new j u' hu'
      exact ⟨u, hu, h₁, h₂⟩
    · obtain ⟨u', hu', h₁, h₂⟩ := old j u hu
      exact ⟨u', hu', h₁, fun hd => by rwa [h₂]⟩
    · obtain ⟨u, hu, -, -, -, h₁⟩ := new 0 u' hu'
      obtain ⟨v, hv, hvs, -⟩ := hs.tree.idle
      obtain rfl : v = u := Option.some.inj (hv.symm.trans hu)
      rwa [h₁]
    · obtain ⟨u, hu, -, -, -, h₁⟩ := new j u' hu'
      rw [h₁, modTask_cpu]
      exact hs.tree.cpu j u hu
  have hl : Lists (modTask s.k i f) := by
    refine hs.lists.congr (modTask_lists ..) (fun j u' hu' => ?_) (fun j u hu hlink => ?_)
      fun j u' hu' hlink => ?_
    · obtain ⟨u, hu, -, -, h₁, h₂⟩ := new j u' hu'
      rw [h₁, h₂]
      exact hs.lists.node j u hu
    · obtain ⟨u', hu', -, h₂⟩ := old j u hu
      exact ⟨u', hu', by rwa [h₂], by rw [h₂]⟩
    · obtain ⟨u, hu, -, -, -, h₂⟩ := new j u' hu'
      exact ⟨u, hu, by rwa [← h₂]⟩
  obtain ⟨m, t, hm, ht⟩ := hs.running
  obtain ⟨t', ht', -⟩ := old m t ht
  refine ⟨⟨htree, hl, fun j u' hu' => ?_, hs.call⟩, m, t', ?_, ht'⟩
  · obtain ⟨u, hu, -⟩ := new j u' hu'
    exact hs.magic j u hu
  · rw [← hm]
    exact modTask_cpu ..

theorem clockEntry_inv (hs : Inv s) (hc : s.k.cpu = some i) :
    All (fun s' => Inv s' ∧ s'.k.cpu = some i) (clockEntry s i) := by
  obtain ⟨m, t, hm, ht⟩ := hs.running
  obtain rfl : m = i := Option.some.inj (hm.symm.trans hc)
  unfold clockEntry
  refine all_andThen ((taskWakeup_inv hs).mono fun s₁ ⟨hs₁, hc₁, hm₁⟩ => ?_)
  refine all_assert ?_ ⟨?_, (modTask_cpu ..).trans (hc₁.trans hc)⟩
  · simp [hm₁, hs.magic m t ht]
  · refine modTask_inv hs₁ (fun u => { u with jiffies := (s₁.jiffies + 1) % 2 ^ 32 }) ?_ _ _
    exact fun u => ⟨rfl, rfl, rfl, rfl⟩

theorem clockTick_inv (hs : Inv s) (hc : s.k.cpu = some i) : All Inv (clockTick s i) := by
  have hs' : Inv { s with
      k := modTask s.k i fun t => { t with ticks := int32 (t.ticks - 1) }, held := s.held + 1 } :=
    modTask_inv hs (fun u => { u with ticks := int32 (u.ticks - 1) })
      (fun u => ⟨rfl, rfl, rfl, rfl⟩) _ _
  unfold clockTick
  dsimp only
  split_ifs
  · exact schedule_inv hs'.toSound (.inl ((modTask_cpu ..).trans hc))
  · exact hs'

theorem fork_inv (hs : Inv s) (hp : process s = some (i, t)) (hfree : (getFreeTask s.k).isSome) :
    All (fun r => Inv { s with k := r.1, call := update s.call r.2 none, magic := update s.magic r.2 (s.magic i) })
      (taskFork s.k t) := by
  obtain ⟨hc, h0, hi⟩ := process_eq hp
  have hrun : t.state = .running := (hs.tree.cpu i t hi).mpr hc
  have hnode : t.node = false := by
    have := (hs.lists.node i t hi).mp.mt (not_linked (.inr hrun))
    simpa using this
  cases hf : taskFork s.k t with
  | refused => trivial
  | failed =>
    obtain ⟨j, hj⟩ := Option.isSome_iff_exists.mp hfree
    simp [taskFork, hnode, hrun, hj, Outcome.assert] at hf
  | next r =>
    obtain ⟨k', j⟩ := r
    have htree := hs.tree.fork hi hf
    obtain ⟨-, hj, hnone, rfl⟩ := taskFork_spec hf
    have hij : i ≠ j := by
      rintro rfl
      simp [hnone] at hi
    have hchild : ¬ Linked (forkChild t j).state := not_linked (.inl rfl)
    refine ⟨⟨htree, ?_, fun m u hu => ?_, ?_⟩, i, t, hc, (fork_table hnone i t).mpr (.inr hi)⟩
    · refine hs.lists.congr rfl (fun m u hu => ?_) (fun m u hu hlink => ?_) fun m u hu hlink => ?_
      · rcases (fork_table hnone m u).mp hu with ⟨rfl, rfl⟩ | hu
        · exact iff_of_false (by simp [forkChild, hnode]) hchild
        · exact hs.lists.node m u hu
      · exact ⟨u, (fork_table hnone m u).mpr (.inr hu), hlink, Iff.rfl⟩
      · rcases (fork_table hnone m u).mp hu with ⟨rfl, rfl⟩ | hu
        · exact absurd hlink hchild
        · exact ⟨u, hu, hlink⟩
    · dsimp only
      obtain rfl | hm := eq_or_ne m j
      · rw [update_self]
        exact hs.magic i t hi
      · rcases (fork_table hnone m u).mp hu with ⟨h, -⟩ | hu
        · exact absurd h hm
        · rw [update_of_ne hm]
          exact hs.magic m u hu
    · dsimp only
      obtain rfl | h := eq_or_ne 0 j
      · exact update_self ..
      · rw [update_of_ne h]
        exact hs.call

theorem waitPass_inv (hs : Inv s) (hc : s.k.cpu = some i) (h0 : i ≠ 0) (hi : s.k.table i = some t)
    (pid : ℤ) : All Inv (waitPass s i t pid) := by
  unfold waitPass
  refine all_andThen ((taskWaitpid_all hs.tree hs.lists hi h0 hc pid).mono fun ⟨k', r⟩ hr => ?_)
  have hsound : ∀ x, Sound { s with k := k', call := update s.call i x } := by
    intro x
    have := hs.of_kernel hr.tree hr.lists hr.old
    exact ⟨this.tree, this.lists, this.magic, by simpa [h0.symm] using hs.call⟩
  obtain ⟨u, hu⟩ := Option.isSome_iff_exists.mp hr.self
  have hcpu := hr.cpu
  cases r with
  | waits => exact schedule_inv (hsound _) (.inr hcpu)
  | noChild => exact ⟨hsound _, i, u, hcpu.trans hc, hu⟩
  | reaped j pid status => exact ⟨hsound _, i, u, hcpu.trans hc, hu⟩

/-- No action fails an assertion, and each leaves the tasks and the lists in order. -/
theorem exec_inv (hs : Inv s) (a : Act) : All Inv (exec s a) := by
  obtain ⟨i, t, hc, hi⟩ := hs.running
  cases a with
  | yield =>
    unfold exec
    rw [hc]
    exact all_guard fun _ => schedule_inv hs.toSound (.inl hc)
  | clock =>
    unfold exec
    rw [hc]
    refine all_guard fun _ => all_andThen ((clockEntry_inv hs hc).mono ?_)
    exact fun s₁ ⟨hs₁, hc₁⟩ => clockTick_inv hs₁ hc₁
  | block blist state =>
    unfold exec
    cases hp : process s with
    | none => trivial
    | some it =>
      refine all_guard fun hg => all_andThen ((block_all hs hp blist (by simpa using hg)).mono ?_)
      exact fun k' ⟨hs', hc', _⟩ => schedule_inv hs' (.inr hc')
  | unblock j =>
    unfold exec
    dsimp only
    cases hj : s.k.table j with
    | none => trivial
    | some u =>
      refine all_guard fun hg => ?_
      have hlink : Linked u.state := by
        have : u.state = .blocked ∨ u.state = .waiting := by simpa using hg
        rcases this with h | h <;> simp [Linked, h]
      refine all_andThen ((taskUnblock_all u hs.tree hs.lists hj hlink ⟨rfl, rfl, rfl⟩).mono ?_)
      intro k' ⟨ht', hl', hc', htable⟩
      have hsome := isSome_update hj htable
      obtain ⟨v, hv⟩ := Option.isSome_iff_exists.mp ((hsome i).trans (by rw [hi]; rfl))
      exact ⟨hs.of_kernel ht' hl' fun m hm => hsome m ▸ hm, i, v, hc'.trans hc, hv⟩
  | sleep ms =>
    unfold exec
    cases hp : process s with
    | none => trivial
    | some it =>
      obtain ⟨k', ticks, heq, hs', hc', -⟩ := taskSleep_eq hs hp ms
      dsimp only
      rw [heq]
      exact schedule_inv hs' (.inr hc')
  | wakeup => exact (taskWakeup_inv hs).mono fun _ h => h.1
  | fork =>
    unfold exec
    cases hp : process s with
    | none => trivial
    | some it => exact all_guard fun hfree => all_andThen (fork_inv hs hp hfree)
  | exit status =>
    unfold exec
    cases hp : process s with
    | none => trivial
    | some it =>
      refine all_andThen ((exit_all hs hp status).mono ?_)
      exact fun k' ⟨hs', hc'⟩ => schedule_inv hs' (.inr hc')
  | waitpid pid =>
    unfold exec
    cases hp : process s with
    | none => trivial
    | some it =>
      obtain ⟨hc, h0, hi⟩ := process_eq hp
      exact waitPass_inv hs hc h0 hi pid
  | resume =>
    unfold exec
    rw [hc]
    dsimp only
    cases hcall : s.call i with
    | none => trivial
    | some pid =>
      rw [hi]
      refine waitPass_inv hs hc ?_ hi pid
      rintro rfl
      simp [hs.call] at hcall

end Actions

section Runs

theorem inv_init (h : Init s) : Inv s := by
  obtain ⟨t₀, ht₀⟩ := h.idle
  obtain ⟨t₁, ht₁⟩ := h.first
  have state : ∀ i t, s.k.table i = some t → t.state = .ready ∨ t.state = .running := by
    intro i t ht
    rw [(h.created i t ht).2.state]
    split_ifs
    · exact .inr rfl
    · exact .inl rfl
  refine ⟨⟨⟨fun i t ht => (h.created i t ht).2.pid, fun i t ht => (h.created i t ht).1,
    ⟨t₀, ht₀, state 0 t₀ ht₀, (h.created 0 t₀ ht₀).2.ppid⟩,
    ⟨t₁, ht₁, (h.created 1 t₁ ht₁).2.ppid⟩, fun i t ht _ => ⟨t₀, ?_, ?_⟩,
    fun i t ht => .child ht ?_, fun i t ht => ?_⟩,
    ⟨fun i t ht => ?_, fun l i hi => ?_, fun i t ht hlink => ?_, fun i l l' hi => ?_, fun l => ?_⟩,
    fun i t ht => (h.created i t ht).2.magic, h.call 0⟩, h.running⟩
  · rw [(h.created i t ht).2.ppid, ht₀]
  · rcases state 0 t₀ ht₀ with hs | hs <;> simp [hs]
  · rw [(h.created i t ht).2.ppid]
    exact .idle
  · rw [(h.created i t ht).2.state]
    split_ifs with hc <;> simp [hc]
  · exact iff_of_false (by simp [(h.created i t ht).2.node]) (not_linked (state i t ht))
  · simp [h.lists] at hi
  · exact absurd hlink (not_linked (state i t ht))
  · simp [h.lists] at hi
  · simp [h.lists]

theorem inv_run (h₀ : Init s₀) (h : Run Step s₀ as s) : Inv s :=
  h.invariant (fun _ a _ hi hs => (exec_inv hi a).of_next hs) (inv_init h₀)

/-- In every state of every run exactly one task is running and it is the one switched to, a
task's node is linked, and into one list, exactly where the task is blocked, asleep or
waiting, the sleep list holds exactly the sleeping tasks, and no assertion fails. -/
theorem scheduler (h₀ : Init s₀) (h : Run Step s₀ as s) :
    (∃ i t, s.k.cpu = some i ∧ s.k.table i = some t ∧ t.state = .running ∧
      ∀ j u, s.k.table j = some u → u.state = .running → j = i) ∧
    (∀ i t, s.k.table i = some t → (t.node = true ↔ Linked t.state) ∧
      (Linked t.state → ∃! l, i ∈ s.k.lists l) ∧ (¬ Linked t.state → ∀ l, i ∉ s.k.lists l)) ∧
    (∀ l, (s.k.lists l).Nodup) ∧
    (∀ i, i ∈ s.k.lists .sleepList ↔ ∃ t, s.k.table i = some t ∧ t.state = .sleeping) ∧
    ∀ a, exec s a ≠ .failed := by
  have hi := inv_run h₀ h
  refine ⟨?_, fun i t ht => ⟨hi.lists.node i t ht, fun hlink => ?_, fun hfree l hmem => ?_⟩,
    hi.lists.nodup, fun i => ⟨fun hmem => ?_, fun ⟨t, ht, hsleep⟩ => ?_⟩,
    fun a => (exec_inv hi a).ne_failed⟩
  · obtain ⟨i, t, hc, ht⟩ := hi.running
    refine ⟨i, t, hc, ht, (hi.tree.cpu i t ht).mpr hc, fun j u hu hrun => ?_⟩
    exact Option.some.inj (((hi.tree.cpu j u hu).mp hrun).symm.trans hc)
  · obtain ⟨l, hl⟩ := hi.lists.found i t ht hlink
    exact ⟨l, hl, fun l' hl' => hi.lists.one i l' l hl' hl⟩
  · obtain ⟨u, hu, hlink, -⟩ := hi.lists.mem l i hmem
    obtain rfl : t = u := Option.some.inj (ht.symm.trans hu)
    exact hfree hlink
  · obtain ⟨t, ht, -, hsleep⟩ := hi.lists.mem _ i hmem
    exact ⟨t, ht, hsleep.mp rfl⟩
  · obtain ⟨l, hl⟩ := hi.lists.found i t ht (.inr (.inl hsleep))
    obtain ⟨u, hu, -, hl'⟩ := hi.lists.mem l i hl
    obtain rfl : t = u := Option.some.inj (ht.symm.trans hu)
    rwa [hl'.mpr hsleep] at hl

/-- The idle task and the first process, which runs. -/
def boot : State where
  k := {
    table i := if i < 2 then some {
      node := false, state := if i = 1 then .running else .ready, priority := 5, ticks := 5,
      jiffies := 0, pid := i, ppid := 0, status := 0, waitpid := 0 } else none
    lists _ := []
    cpu := some 1 }
  call _ := none
  magic _ := ONIX_MAGIC
  jiffies := 0
  held := 0

theorem init_boot : Init boot := by
  refine ⟨fun i t ht => ?_, ⟨_, rfl⟩, ⟨_, rfl⟩, fun l => rfl, ⟨1, _, rfl, rfl⟩, fun i => rfl⟩
  simp only [boot, Option.ite_none_right_eq_some, Option.some.injEq] at ht
  obtain ⟨hi, rfl⟩ := ht
  refine ⟨Nat.lt_trans hi (by decide), rfl, ?_, rfl, rfl, rfl⟩
  simp [boot, eq_comm]

/-- The first process forks and sleeps, the child blocks, and the idle task yields to itself. -/
def sleepAndBlock : List Act := [.fork, .sleep 10, .yield, .block none .blocked, .yield]

theorem scheduler_sleepAndBlock :
    ∃ s, Run Step boot sleepAndBlock s ∧ s.k.cpu = some 0 ∧ s.k.lists .blockList = [2] ∧
      (∃ t, s.k.table 1 = some t ∧ t.state = .sleeping) ∧ exec s .clock ≠ .failed := by
  obtain ⟨s, hs, hp⟩ := run_of_play (fun _ _ => True) exec boot sleepAndBlock
    (fun s => s.k.cpu == some 0 && s.k.lists .blockList == [2] && s.k.lists .sleepList == [1])
    (by decide +kernel)
  simp only [Bool.and_eq_true, beq_iff_eq] at hp
  obtain ⟨⟨hc, hb⟩, hl⟩ := hp
  have h := scheduler init_boot hs.of_guarded
  exact ⟨s, hs.of_guarded, hc, hb, (h.2.2.2.1 1).mp (by simp [hl]), h.2.2.2.2 _⟩

end Runs

end Onix.Sched
