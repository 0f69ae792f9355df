import Onix.Sanity.MemoryUser

/-! Copy on write between any number of processes, and what `free_pde` does to
their memory. -/

namespace Onix.Memory

open Function Code Bytes Outcome

variable {s s' : State} {as : List Act} {a : Act} {size t f v vaddr : ℕ} {garbage : ℕ → Page}
  {task : TaskT} {map : BitmapT} {word : PageEntryT}

/-- The task that runs meets `p`. -/
def State.RunningTask (s : State) (p : TaskT → Bool) : Prop :=
  ∃ task ∈ s.tasks s.running, p task = true

instance (p : TaskT → Bool) : Decidable (s.RunningTask p) :=
  inferInstanceAs (Decidable (∃ task ∈ s.tasks s.running, p task = true))

/-- `UserAddr`, or any address. -/
def Within (all : Bool) (vaddr : ℕ) : Prop := all = true ∨ UserAddr vaddr

instance (vaddr : ℕ) : Decidable (UserAddr vaddr) := inferInstanceAs (Decidable (_ ∧ _))

instance (all : Bool) (vaddr : ℕ) : Decidable (Within all vaddr) :=
  inferInstanceAs (Decidable (_ ∨ _))

/-- What the callers of these functions see to. With `all`, user code may access
any address, otherwise only those of user memory. -/
def Called (all : Bool) (s : State) : Act → Prop
  | .create _ => True
  | .dispatch _ => True
  | .toUser => s.RunningTask fun task => task.vmap.isNone
  | .fork => s.RunningTask fun task => task.vmap.isSome
  | .link vaddr => s.RunningTask (fun task => task.vmap.isSome) ∧ vaddr % PAGE_SIZE = 0 ∧
      UserAddr vaddr
  | .unlink vaddr => s.RunningTask (fun task => task.vmap.isSome) ∧ vaddr % PAGE_SIZE = 0 ∧
      UserAddr vaddr
  | .load vaddr => s.RunningTask (fun task => task.vmap.isSome) ∧ Within all vaddr
  | .store vaddr _ => s.RunningTask (fun task => task.vmap.isSome) ∧ Within all vaddr
  | .brk addr _ => s.RunningTask (fun task => task.vmap.isSome && task.uid != KERNEL_USER) ∧
      addr % PAGE_SIZE = 0 ∧ KERNEL_MEMORY_SIZE ≤ addr ∧ addr < USER_STACK_BOTTOM
  | .kalloc count => 0 < count
  | .kfree vaddr count => vaddr % PAGE_SIZE = 0 ∧ 0 < count ∧
      (resetPages s.kernelMap (idx vaddr) count 0).isSome = true ∧
      ∀ t < NR_TASKS, ∀ r ∈ s.spaces t, ¬ (idx vaddr ≤ r.1 ∧ r.1 < idx vaddr + count)

instance (all : Bool) (s : State) (a : Act) : Decidable (Called all s a) := by
  cases a <;> unfold Called <;> infer_instance

section Step

theorem runs_of_user (h : s.RunningTask fun task => task.vmap.isSome) :
    ∃ task map, Runs s task map := by
  obtain ⟨task, ht, hv⟩ := h
  obtain ⟨map, hm⟩ := Option.isSome_iff_exists.mp hv
  exact ⟨task, map, ht, hm⟩

theorem all_run {α : Type} {m : Code State α} {P : State → Prop} (h : All (fun r => P r.2) (m s)) :
    All P (run m s) := all_andThen h

/-- Every call keeps the invariant, and none of its assertions fails. -/
theorem exec_inv (h : Inv s) (hc : Called false s a) : All Inv (exec s a) := by
  cases a with
  | create uid => exact all_run ((taskCreate_spec h uid).mono fun r hr => hr.inv)
  | toUser =>
    obtain ⟨task, ht, hv⟩ := hc
    exact all_run ((taskToUserMode_spec h ht (Option.isNone_iff_eq_none.mp hv)).mono
      fun r hr => hr.1)
  | dispatch t => exact all_run (dispatch_spec h t)
  | fork =>
    obtain ⟨task, map, hr⟩ := runs_of_user hc
    exact all_run ((taskFork_spec h hr).mono fun r hr => hr.inv)
  | link vaddr =>
    obtain ⟨hu, ha, hrange⟩ := hc
    obtain ⟨task, map, hr⟩ := runs_of_user hu
    have hpage := hrange.page
    have hspec := linkPage_spec h hr hpage.1 hpage.2
    rw [pageAddr_of_aligned ha hrange.lt] at hspec
    exact all_run (hspec.mono fun r hr => hr.inv)
  | unlink vaddr =>
    obtain ⟨hu, ha, hrange⟩ := hc
    obtain ⟨task, map, hr⟩ := runs_of_user hu
    have hpage := hrange.page
    have hspec := unlinkPage_spec h hr hpage.1 hpage.2
    rw [pageAddr_of_aligned ha hrange.lt] at hspec
    exact all_run (hspec.mono fun r hr => hr.inv)
  | load vaddr =>
    obtain ⟨hu, hrange⟩ := hc
    obtain ⟨task, map, hr⟩ := runs_of_user hu
    exact all_run ((load_spec h hr (hrange.resolve_left (by decide))).mono fun r hr => hr.inv)
  | store vaddr word =>
    obtain ⟨hu, hrange⟩ := hc
    obtain ⟨task, map, hr⟩ := runs_of_user hu
    exact all_run ((store_spec h hr (hrange.resolve_left (by decide)) word).mono
      fun r hr => hr.inv)
  | brk addr fuel =>
    obtain ⟨hu, ha, hge, hlt⟩ := hc
    obtain ⟨task, ht, hv⟩ := hu
    obtain ⟨hv, huid⟩ := Bool.and_eq_true_iff.mp hv
    obtain ⟨map, hm⟩ := Option.isSome_iff_exists.mp hv
    exact all_run ((sysBrk_spec h ⟨ht, hm⟩ (by simpa using huid) ha hge hlt fuel).mono
      fun r hr => hr.inv)
  | kalloc count => exact all_run ((h.allocKpage hc).mono fun r hr => hr.1.inv)
  | kfree vaddr count =>
    obtain ⟨ha, hcount, hset, hdir⟩ := hc
    refine all_run ((freeKpage_spec h ha hcount hset fun t d hi hsp => ?_).mono fun r hr => hr.inv)
    obtain ⟨task, map, ht, -⟩ := spaces_inv hsp
    exact hdir t (h.slots t task ht) (d, hi) hsp

theorem run_inv (h : Inv s) (hrun : Run (Guarded (Called false) Step) s as s') : Inv s' :=
  hrun.invariant (fun _ _ _ hs hstep => (exec_inv hs hstep.1).of_next hstep.2) h

end Step

section Boot

theorem zeros_boot {start total : ℕ} (hs : start < 4096) (ht : 4096 < total) :
    zeros (fun i => if i < start ∨ i < 4096 then 1 else 0) total + 4096 = total := by
  have hset : (Finset.range total).filter (fun i => (if i < start ∨ i < 4096 then 1 else 0) = 0) =
      Finset.Ico 4096 total := by
    ext i
    simp only [Finset.mem_filter, Finset.mem_range, Finset.mem_Ico]
    by_cases hi : i < start ∨ i < 4096
    · rw [if_pos hi]
      omega
    · rw [if_neg hi]
      omega
  unfold zeros
  rw [hset, Nat.card_Ico]
  omega

theorem kernelMapInit_shape {n : ℕ} (hn : 0 < n) : (kernelMapInit n).Fits ∧
    (kernelMapInit n).offset = 256 ∧ (kernelMapInit n).length = 480 := by
  have hfit : (bitmapMake (fun _ => 0) 480 480 256).Fits :=
    ⟨by unfold bitmapMake; decide, by unfold bitmapMake; decide⟩
  have hlen : (idx KERNEL_MEMORY_SIZE - idx MEMORY_BASE) / 8 = 480 ∧ idx MEMORY_BASE = 256 := by
    decide
  unfold kernelMapInit
  rw [hlen.1, hlen.2]
  dsimp only
  rcases bitmapScan_spec hfit hn with ⟨b, bits, -, he, -⟩ | ⟨-, he⟩
  · rw [he]
    exact ⟨⟨hfit.size, hfit.index⟩, rfl, rfl⟩
  · rw [he]
    exact ⟨hfit, rfl, rfl⟩

variable (garbage) in
/-- What the boot code leaves meets the invariant. -/
theorem inv_boot (hmin : KERNEL_MEMORY_SIZE ≤ size) (hmax : size + MEMORY_BASE ≤ 2 ^ 32) :
    Inv (boot size garbage) := by
  have hsp : (boot size garbage).spaces = fun _ => none := rfl
  have hunused : ∀ f, ¬ Used (boot size garbage) (fun _ => none) f := by
    rintro f ⟨x, b, hb⟩
    rw [cow_map_none rfl] at hb
    exact absurd hb (by simp)
  obtain ⟨total, htotal⟩ : ∃ total, idx size + idx MEMORY_BASE = total := ⟨_, rfl⟩
  have hbound : 4096 < total ∧ total ≤ 2 ^ 20 := by
    unfold KERNEL_MEMORY_SIZE at hmin
    unfold MEMORY_BASE at hmax htotal
    unfold idx PAGE_SIZE at htotal
    omega
  have hfree : idx size + 256 = total := by
    rw [← htotal]
    rfl
  have hpages : 0 < (total + PAGE_SIZE - 1) / PAGE_SIZE ∧
      (total + PAGE_SIZE - 1) / PAGE_SIZE ≤ 256 := by
    unfold PAGE_SIZE
    omega
  refine ⟨?_, fun t k hk => absurd hk (by simp [boot]), fun t k hk => absurd hk (by simp [boot]),
    fun k hk => absurd hk (by simp [boot]), fun _ => rfl,
    fun t k m hk => absurd hk (by simp [boot])⟩
  rw [hsp]
  refine ⟨⟨?_, ?_, fun i hi => ?_, ?_⟩, ?_, ⟨⟨by decide, by decide, fun i hi => ?_, ?_⟩,
    fun i h4 hi => ?_⟩, fun t d hi h => absurd h (by simp), fun t u d hi hi' h => absurd h (by simp),
    ?_, ?_, fun t i d hi h => absurd h (by simp), fun f hf => absurd hf (hunused f), ?_⟩
  · unfold boot
    dsimp only
    rw [htotal]
    show 4 < 256 + _ ∧ 256 + _ < 4096
    omega
  · unfold boot
    dsimp only
    rw [htotal]
    exact hbound
  · unfold boot
    dsimp only
    rw [if_pos (Or.inr hi)]
  · unfold boot
    dsimp only
    rw [htotal, show idx MEMORY_BASE = 256 from rfl, zeros_boot (by omega) hbound.1]
    omega
  · unfold boot
    dsimp only
    rw [htotal]
    exact kernelMapInit_shape hpages.1
  · interval_cases i <;> rfl
  · rfl
  · unfold boot
    dsimp only
    rw [if_pos (show 1 = idx KERNEL_PAGE_DIR from rfl),
      if_neg (show ¬ i < KERNEL_PAGE_TABLE.length from Nat.not_lt.mpr h4), if_neg (by omega)]
    rfl
  · rintro t i f ⟨d, hi, h, -⟩
    exact absurd h (by simp)
  · rintro t u i j f ⟨d, hi, h, -⟩
    exact absurd h (by simp)
  · refine ⟨fun f => ?_, fun f hf => absurd hf (hunused f), fun f x hx => absurd ⟨x, hx⟩ (hunused f),
      fun p v f h => absurd h (by rw [cow_map_none rfl]; simp)⟩
    rw [Set.not_nonempty_iff_eq_empty.mp (hunused f)]
    exact Set.finite_empty

end Boot

section CopyOnWrite

/-- In every state reached: a frame of user data counts its entries, a writable
entry is its frame's only one, a page has an entry exactly if its bit in `vmap` is
set, no call fails an assertion, and no store is seen by another process. -/
theorem copy_on_write (hmin : KERNEL_MEMORY_SIZE ≤ size) (hmax : size + MEMORY_BASE ≤ 2 ^ 32)
    (hrun : Run (Guarded (Called false) Step) (boot size garbage) as s) :
    (∀ f, Used s s.spaces f → (s.sharing.uses f).Finite ∧
      s.memoryMap f = (s.sharing.uses f).ncard) ∧
    (∀ t v f, s.sharing.map t v = some (f, true) → s.memoryMap f = 1) ∧
    (∀ t task map, s.tasks t = some task → task.vmap = some map →
      (∀ v, (s.sharing.map t v).isSome = true → 4096 ≤ v ∧ v < 32768) ∧
      ∀ v, 4096 ≤ v → v < 36864 → bitmapTest map v = some (s.sharing.map t v).isSome) ∧
    (∀ a, Called false s a → exec s a ≠ .failed) ∧
    ∀ vaddr word s', Called false s (.store vaddr word) → Step s (.store vaddr word) s' →
      ∀ t, t ≠ s.running → ∀ a, UserAddr a → s'.read t a = s.read t a := by
  have h := run_inv (inv_boot garbage hmin hmax) hrun
  refine ⟨fun f hf => ⟨h.layout.cow.finite f, h.layout.cow.count f hf⟩,
    fun t v f hm => h.layout.cow.one_of_write hm, fun t task map ht hv => ?_,
    fun a hc => (exec_inv h hc).ne_failed, fun vaddr word s' hc hstep t ht a ha => ?_⟩
  · have hok := h.vmap t task map ht hv
    exact ⟨hok.range, fun v hge hlt => hok.test hge hlt⟩
  · obtain ⟨hu, hrange⟩ := hc
    obtain ⟨task, map, hr⟩ := runs_of_user hu
    have hp : Private s s' :=
      (all_run (store_spec h hr (hrange.resolve_left (by decide)) word)).of_next hstep
    rw [read_eq hp.inv t ha, read_eq h t ha, hp.view t ht]

/-- Process 0 writes a word on its stack and forks; process 1 runs. -/
def forked : List Act :=
  [.create 1, .dispatch 0, .toUser, .store 0x7fff000 (entryInit 7), .store 0x7fff000 (entryInit 7),
    .fork, .dispatch 1]

theorem copy_on_write_forked : ∃ s s', Run (Guarded (Called false) Step)
      (boot KERNEL_MEMORY_SIZE fun _ _ => zeroEntry) (forked ++ [.store 0x7fff000 zeroEntry]) s ∧
    Step s (.store 0x7fff000 zeroEntry) s' ∧ s.running = 1 ∧
      s'.read 0 0x7fff000 = s.read 0 0x7fff000 ∧ s.read 0 0x7fff000 = some (entryInit 7) := by
  obtain ⟨s, hs, hp⟩ := run_of_play (Called false) exec
    (boot KERNEL_MEMORY_SIZE fun _ _ => zeroEntry) (forked ++ [.store 0x7fff000 zeroEntry])
    (fun s => decide (Called false s (.store 0x7fff000 zeroEntry)) && s.running == 1 &&
      s.read 0 0x7fff000 == some (entryInit 7) &&
      (exec s (.store 0x7fff000 zeroEntry)).Ends fun _ => true) (by decide +kernel)
  simp only [Bool.and_eq_true, decide_eq_true_eq, beq_iff_eq] at hp
  obtain ⟨⟨⟨hc, hrun⟩, hread⟩, hend⟩ := hp
  obtain ⟨s', hstep, -⟩ := ends_eq_true.mp hend
  have hstore := (copy_on_write (Nat.le_refl _) (by decide) hs).2.2.2.2 0x7fff000 zeroEntry s' hc
    hstep 0 (by rw [hrun]; decide) 0x7fff000 (by decide)
  exact ⟨s, s', hs, hstep, hrun, hstore, hread⟩

/-- The pages of the kernel are everybody's: a store there is seen by all. -/
theorem kernel_store_seen : ¬ ∀ as s, Run (Guarded (Called true) Step)
      (boot KERNEL_MEMORY_SIZE fun _ _ => zeroEntry) as s →
    ∀ vaddr word s', Called true s (.store vaddr word) → Step s (.store vaddr word) s' →
      ∀ t, t ≠ s.running → ∀ a, s'.read t a = s.read t a := by
  intro h
  obtain ⟨s, hs, hp⟩ := run_of_play (Called true) exec
    (boot KERNEL_MEMORY_SIZE fun _ _ => zeroEntry)
    [.create 1, .create 1, .dispatch 0, .toUser, .dispatch 1, .toUser]
    (fun s => decide (Called true s (.store 0x10000 (entryInit 7))) && s.running == 1 &&
      (exec s (.store 0x10000 (entryInit 7))).Ends fun s' => s'.read 0 0x10000 != s.read 0 0x10000)
    (by decide +kernel)
  simp only [Bool.and_eq_true, decide_eq_true_eq, beq_iff_eq] at hp
  obtain ⟨⟨hc, hrun⟩, hend⟩ := hp
  obtain ⟨s', hstep, hne⟩ := ends_eq_true.mp hend
  rw [h _ s hs _ _ s' hc hstep 0 (by rw [hrun]; decide) 0x10000, bne_self_eq_false] at hne
  exact absurd hne (by decide)

end CopyOnWrite

section FreePde

/-- What `free_pde` has to leave: each frame's count has dropped by the entries
and tables of the running process, and the kernel's frames are as they were. -/
def Returned (s s' : State) : Prop :=
  (∀ f, s'.memoryMap f + ({v | ∃ b, s.sharing.map s.running v = some (f, b)}.ncard +
    {i | Table s s.spaces s.running i f}.ncard) = s.memoryMap f) ∧
    ∀ f < 4096, s'.memoryMap f = s.memoryMap f

/-- The parts of the state that `free_pde` works with. -/
structure Walks (s s' : State) : Prop where
  page : s'.page = s.page
  start : s'.startPage = s.startPage
  cr3 : s'.cr3 = s.cr3

theorem keeps_putPage (s : State) (addr : ℕ) : Keeps (Walks s) (putPage addr) := by
  refine (keeps_assert _).bind fun _ => (keeps_peek _).bind fun s₁ => (keeps_assert _).bind fun _ =>
    (keeps_assert _).bind fun _ => (keeps_poke fun s' h => ?_).bind fun _ =>
    (keeps_poke fun s' h => ?_).bind fun _ => (keeps_peek _).bind fun _ => keeps_assert _
  · exact ⟨h.page, h.start, h.cr3⟩
  · split_ifs
    · exact ⟨h.page, h.start, h.cr3⟩
    · exact h

theorem steady_putPage (addr : ℕ) : Steady (putPage addr) :=
  (steady_assert _).bind fun _ => (steady_peek _).bind fun _ => (steady_assert _).bind fun _ =>
    (steady_assert _).bind fun _ => (steady_poke _).bind fun _ => (steady_poke _).bind fun _ =>
    (steady_peek _).bind fun _ => steady_assert _

theorem keeps_frame (s : State) (addr : ℕ) : Keeps (Walks s) (frame addr) :=
  fun s' r h hr => keeps_lift (s'.walk addr) s' r h hr

theorem steady_frame (addr : ℕ) : Steady (frame addr) :=
  fun s h => steady_lift (s.walk addr) s h

theorem keeps_freeEntry (s : State) (table i : ℕ) : Keeps (Walks s) (freeEntry table i) := by
  refine (keeps_peek _).bind fun entry => ?_
  split_ifs
  · exact (keeps_peek _).bind fun _ => (keeps_assert _).bind fun _ => keeps_putPage s _
  · exact keeps_pure ()

theorem steady_freeEntry (table i : ℕ) : Steady (freeEntry table i) := by
  refine (steady_peek _).bind fun entry => ?_
  split_ifs
  · exact (steady_peek _).bind fun _ => (steady_assert _).bind fun _ => steady_putPage _
  · exact steady_pure ()

theorem keeps_freeTable (s : State) (pde i : ℕ) : Keeps (Walks s) (freeTable pde i) := by
  refine (keeps_peek _).bind fun dentry => ?_
  split_ifs
  · exact (keeps_frame s _).bind fun table =>
      (keeps_loop (keeps_freeEntry s table) _ _).bind fun _ => keeps_putPage s _
  · exact keeps_pure ()

theorem steady_freeTable (pde i : ℕ) : Steady (freeTable pde i) := by
  refine (steady_peek _).bind fun dentry => ?_
  split_ifs
  · exact (steady_frame _).bind fun table =>
      (steady_loop (steady_freeEntry table) _ _).bind fun _ => steady_putPage _
  · exact steady_pure ()

/-- A frame that was never given out cannot be put back. -/
theorem putPage_low {i : ℕ} (hi : i < s.startPage) (hlt : i < 2 ^ 20) (r : Unit × State) :
    putPage (pageAddr i) s ≠ .next r := by
  unfold putPage
  rw [assert_bind (decide_eq_true (pageAddr_mod i)), peek_bind]
  dsimp only [id]
  rw [idx_pageAddr hlt, assert_bind_failed (by simp; omega)]
  exact fun h => by cases h

/-- Directory entry 2 is the kernel's: its table is no page that was given out. -/
theorem freeTable_two {d : ℕ} (hd : Dir s d) (hs : 4 < s.startPage) (hw : Walks s s')
    (r : Unit × State) : freeTable d 2 s' ≠ .next r := by
  have hentry : s'.page d 2 = entryInit 4 := by
    rw [hw.page]
    exact hd.kernel 2 (by decide)
  intro h
  unfold freeTable at h
  rw [peek_bind, hentry, if_pos (entryInit_present 4)] at h
  obtain ⟨r₁, h₁, h⟩ := andThen_eq_next.mp h
  obtain ⟨r₂, h₂, h⟩ := andThen_eq_next.mp h
  have hw₁ := keeps_frame s _ s' r₁ hw h₁
  have hw₂ := keeps_loop (keeps_freeEntry s _) _ _ _ r₂ hw₁ h₂
  rw [entryInit_index (by decide)] at h
  exact putPage_low (by rw [hw₂.start]; exact hs) (by decide) r h

theorem taskExit_failed (h : Inv s) (hr : Runs s task map) : taskExit s = .failed := by
  obtain ⟨-, hdir, hc⟩ := h.of_runs hr
  have hsteady : Steady (do
      assert (task.uid ≠ KERNEL_USER)
      let pde ← frame 0xfffff000
      loop (freeTable pde) (KERNEL_PAGE_TABLE.length - 2) 2
      freeKpage task.pde 1) :=
    (steady_assert _).bind fun _ => (steady_frame _).bind fun pde =>
      (steady_loop (steady_freeTable pde) _ _).bind fun _ =>
      (steady_assert _).bind fun _ => (steady_assert _).bind fun _ => (steady_peek _).bind fun _ =>
      (steady_lift _).bind fun _ => steady_poke _
  unfold taskExit freePde
  rw [bind_of_next hr.runningTask_eq]
  refine hsteady.failed fun r hnext => ?_
  obtain ⟨r₀, h₀, hnext⟩ := andThen_eq_next.mp hnext
  obtain ⟨-, h₀⟩ := assert_eq_next.mp h₀
  obtain rfl := next.inj h₀
  have hloop := (bind_of_next (hdir.frame_pde hc)).symm.trans hnext
  obtain ⟨r₁, h₁, -⟩ := andThen_eq_next.mp hloop
  exact loop_not_next (Walks s) 2 _ 2 (Nat.le_refl 2) (by decide) (fun i => keeps_freeTable s _ i)
    (fun s' r hw => freeTable_two hdir h.layout.counts.start.1 hw r) ⟨rfl, rfl, rfl⟩ r₁ h₁

/-- In every state reached, `free_pde` of the running process fails an assertion:
it walks the tables of the kernel. -/
theorem free_pde_fails (hmin : KERNEL_MEMORY_SIZE ≤ size) (hmax : size + MEMORY_BASE ≤ 2 ^ 32)
    (hrun : Run (Guarded (Called false) Step) (boot size garbage) as s)
    (huser : s.RunningTask fun task => task.vmap.isSome) :
    taskExit s = .failed ∧ ¬ ∃ s', taskExit s = .next ((), s') ∧ Returned s s' := by
  obtain ⟨task, map, hr⟩ := runs_of_user huser
  have hfail := taskExit_failed (run_inv (inv_boot garbage hmin hmax) hrun) hr
  refine ⟨hfail, ?_⟩
  rintro ⟨s', hs', -⟩
  rw [hfail] at hs'
  cases hs'

theorem free_pde_fails_forked : ∃ s, Run (Guarded (Called false) Step)
      (boot KERNEL_MEMORY_SIZE fun _ _ => zeroEntry) forked s ∧ taskExit s = .failed := by
  obtain ⟨s, hs, hp⟩ := run_of_play (Called false) exec
    (boot KERNEL_MEMORY_SIZE fun _ _ => zeroEntry) forked
    (fun s => decide (s.RunningTask fun task => task.vmap.isSome)) (by decide +kernel)
  exact ⟨s, hs, (free_pde_fails (Nat.le_refl _) (by decide) hs (of_decide_eq_true hp)).1⟩

/-- A process that has only just become one cannot exit. -/
theorem exit_stops : ¬ ∀ as s, Run (Guarded (Called false) Step)
      (boot KERNEL_MEMORY_SIZE fun _ _ => zeroEntry) as s →
    s.RunningTask (fun task => task.vmap.isSome) →
      ∃ s', taskExit s = .next ((), s') ∧ Returned s s' := by
  intro h
  obtain ⟨s, hs, hp⟩ := run_of_play (Called false) exec
    (boot KERNEL_MEMORY_SIZE fun _ _ => zeroEntry) [.create 1, .dispatch 0, .toUser]
    (fun s => decide (s.RunningTask fun task => task.vmap.isSome)) (by decide +kernel)
  have huser := of_decide_eq_true hp
  obtain ⟨task, map, hr⟩ := runs_of_user huser
  obtain ⟨s', hs', -⟩ := h _ s hs huser
  rw [taskExit_failed (run_inv (inv_boot _ (Nat.le_refl _) (by decide)) hs) hr] at hs'
  cases hs'

end FreePde

end Onix.Memory
