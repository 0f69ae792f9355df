import Onix.Sanity.MemoryTask

/-! New processes: `task_create`, `task_to_user_mode` and `task_fork`. -/

namespace Onix.Memory

open Function Code Bytes Outcome

variable {s s' s₀ : State} {sp : Spaces} {t u d D i f v q count : ℕ} {task : TaskT}
  {map : BitmapT}

/-- The layout does not depend on the tasks. -/
theorem Layout.tasks (h : Layout s sp) (tasks : ℕ → Option TaskT) (running cr3 : ℕ) :
    Layout { s with tasks := tasks, running := running, cr3 := cr3 } sp :=
  ⟨⟨h.counts.start, h.counts.total, h.counts.kernel, h.counts.free⟩, h.map,
    ⟨h.kernelDir.1.congr rfl, h.kernelDir.2⟩,
    fun t d hi hsp => ⟨(h.dir t d hi hsp).1.congr rfl, (h.dir t d hi hsp).2⟩, h.dir_inj, h.table,
    h.table_inj, h.user, h.used, h.cow⟩

section KernelPages

/-- Pages are taken for the kernel; no directory is among them. -/
theorem Inv.allocKpage (h : Inv s) (hc : 0 < count) :
    All (fun r => Kept s r.2 ∧ ∃ D bits, r = (pageAddr D, s.setKernelBits bits) ∧ 256 ≤ D ∧
        D + count ≤ 4096 ∧ (∀ t hi, s.spaces t ≠ some (D, hi)) ∧
        bits.bit (D - 256) = true ∧ Layout (s.setKernelBits bits) s.spaces) (allocKpage count s) := by
  refine (allocKpage_spec h.layout.map hc).mono fun r hr => ?_
  obtain ⟨D, bits, hge, hle, rfl, hclear, hbits⟩ := hr
  have hold : ∀ t d hi, s.spaces t = some (d, hi) → bits.bit (d - 256) = true := by
    intro t d hi hsp
    rw [hbits, (h.layout.dir t d hi hsp).2.2.2]
    split_ifs <;> rfl
  obtain ⟨h1, h2⟩ := h.layout.setKernelBits bits hold
  refine ⟨h.kept rfl rfl rfl ⟨h1, by rw [h2]⟩ fun _ _ => rfl, D, bits, rfl, hge, hle,
    fun t hi hsp => ?_, ?_, h1⟩
  · have hset := (h.layout.dir t D hi hsp).2.2.2
    rw [hclear (D - 256) (Nat.le_refl _) (by omega)] at hset
    exact absurd hset (by decide)
  · rw [hbits, if_pos ⟨Nat.le_refl _, by omega⟩]

theorem Kept.trans (h : Kept s s₀) (h' : Kept s₀ s') : Kept s s' := by
  refine ⟨h'.inv, h'.tasks.trans h.tasks, h'.running.trans h.running, h'.map.trans h.map,
    fun f hf => ?_⟩
  have hf' : Used s₀ s₀.spaces f := by
    have hm : (s₀.cow s₀.spaces).map = (s.cow s.spaces).map := h.map
    unfold Used Cow.uses at hf ⊢
    rwa [hm]
  exact (h'.data f hf').trans (h.data f hf)

theorem scanTasks_some {tasks : ℕ → Option TaskT} {n : ℕ} (h : scanTasks tasks n i = some q) :
    q < i + n ∧ tasks q = none := by
  induction n generalizing i with
  | zero => simp [scanTasks] at h
  | succ n ih =>
    rw [scanTasks] at h
    split_ifs at h with hn
    · obtain rfl := Option.some.inj h
      exact ⟨by omega, Option.isNone_iff_eq_none.mp hn⟩
    · obtain ⟨h1, h2⟩ := ih h
      exact ⟨by omega, h2⟩

theorem getFreeTask_spec (h : Inv s) :
    All (fun r => Kept s r.2 ∧ r.1 < NR_TASKS ∧ s.tasks r.1 = none) (getFreeTask s) := by
  unfold getFreeTask
  rw [peek_bind]
  dsimp only [id]
  cases hq : scanTasks s.tasks NR_TASKS 0 with
  | none => trivial
  | some q =>
    obtain ⟨hlt, hn⟩ := scanTasks_some hq
    refine all_bind ((h.allocKpage Nat.one_pos).mono fun r hr => ?_)
    exact ⟨hr.1, by omega, hn⟩

variable (task) in
/-- A kernel task in a free slot. -/
theorem Inv.newTask (h : Inv s) (hq : q < NR_TASKS) (hn : s.tasks q = none)
    (hpde : task.pde = KERNEL_PAGE_DIR) (hv : task.vmap = none) : Private s (s.setTask q task) := by
  have htask : ∀ t k, (s.setTask q task).tasks t = some k →
      (t = q ∧ k = task) ∨ s.tasks t = some k := by
    intro t k hk
    unfold State.setTask at hk
    dsimp only at hk
    by_cases ht : t = q
    · subst ht
      rw [update_self] at hk
      exact Or.inl ⟨rfl, (Option.some.inj hk).symm⟩
    · rw [update_of_ne ht] at hk
      exact Or.inr hk
  have hsp : (s.setTask q task).spaces = s.spaces := by
    funext t
    unfold State.spaces State.setTask
    dsimp only
    by_cases ht : t = q
    · subst ht
      rw [update_self, hn]
      simp only [hv, Option.isSome_none, Bool.false_eq_true, if_false]
    · rw [update_of_ne ht]
  have hsh : (s.setTask q task).sharing = s.sharing := by
    unfold State.sharing
    rw [hsp]
    rfl
  refine ⟨⟨by rw [hsp]; exact h.layout.tasks _ _ _, fun t k hk => ?_, fun t k hk hkn => ?_,
    fun k hk => ?_, fun hnone => ?_, fun t k map hk hkv => ?_⟩, rfl, hsp, fun t _ v => by rw [hsh]⟩
  · rcases htask t k hk with ⟨rfl, -⟩ | hk
    · exact hq
    · exact h.slots t k hk
  · rcases htask t k hk with ⟨-, rfl⟩ | hk
    · rw [hpde]
      rfl
    · exact h.kernelTask t k hk hkn
  · rcases htask _ k hk with ⟨hrun, rfl⟩ | hk
    · rw [hpde]
      refine h.idle ?_
      rw [show s.running = q from hrun, hn]
    · exact h.cr3 k hk
  · refine h.idle ?_
    unfold State.setTask at hnone
    dsimp only at hnone
    by_cases ht : s.running = q
    · rw [ht, update_self] at hnone
      exact absurd hnone (by simp)
    · rwa [update_of_ne ht] at hnone
  · rw [hsh]
    rcases htask t k hk with ⟨-, rfl⟩ | hk
    · rw [hv] at hkv
      exact absurd hkv (by simp)
    · exact h.vmap t k map hk hkv

theorem taskCreate_spec (h : Inv s) (uid : ℕ) :
    All (fun r => Private s r.2) (taskCreate uid s) := by
  unfold taskCreate
  refine all_bind ((getFreeTask_spec h).mono fun r hr => ?_)
  obtain ⟨hk, hq, hn⟩ := hr
  rw [poke_bind]
  have hnew := hk.inv.newTask ⟨uid, KERNEL_PAGE_DIR, KERNEL_MEMORY_SIZE, none⟩ hq
    (by rw [hk.tasks]; exact hn) rfl rfl
  refine all_bind ((hnew.inv.allocKpage Nat.one_pos).mono fun r' hr' => ?_)
  exact hk.trans_private (hnew.trans hr'.1.private)

end KernelPages

section CopyPde

/-- The page of a new directory, with its last entry. -/
def State.newDir (s : State) (D d : ℕ) : State :=
  (s.setPage D (s.page d)).setEntry D 1023 (entryInit D)

/-- A new directory is a copy of another one; nobody refers to it yet. -/
theorem Layout.newDir (h : Layout s sp) (hd : Dir s d) (hge : 256 ≤ D) (hlt : D < 4096)
    (hnew : ∀ t hi, sp t ≠ some (D, hi)) :
    Layout (s.newDir D d) sp ∧ ((s.newDir D d).cow sp).map = (s.cow sp).map ∧
      Dir (s.newDir D d) D ∧ (∀ i, i < 1023 → (s.newDir D d).page D i = s.page d i) ∧
      ∀ g, g ≠ D → (s.newDir D d).page g = s.page g := by
  have hself : (s.newDir D d).page D = update (s.page d) 1023 (entryInit D) := by
    unfold State.newDir
    rw [page_setEntry, update_self, page_setPage, update_self]
  have hne : ∀ g, g ≠ D → (s.newDir D d).page g = s.page g := by
    intro g hg
    unfold State.newDir
    rw [page_setEntry, update_of_ne hg, page_setPage, update_of_ne hg]
  have htab : ∀ t i, ¬ Table s sp t i D := fun t i ht => by
    have := (h.table t i D ht).1
    omega
  have hset : s.newDir D d = s.setPage D (update (s.page d) 1023 (entryInit D)) := by
    unfold State.newDir State.setEntry State.setPage
    dsimp only
    rw [update_self, update_idem]
  obtain ⟨h1, h2⟩ := h.setPage (update (s.page d) 1023 (entryInit D)) (f := D) (by omega)
    (fun _ => hnew) htab
  rw [← hset] at h1 h2
  refine ⟨h1, h2, ⟨hlt, Or.inr (by omega), fun i hi => ?_, ?_⟩, fun i hi => ?_, hne⟩
  · rw [hself, update_of_ne (by omega)]
    exact hd.kernel i hi
  · rw [hself, update_self]
  · rw [hself, update_of_ne (by omega)]

/-- `copy_pde` by a user process for slot `q`: the new space shows what the old
one shows, and nobody may write these frames any more. -/
theorem copyPde_spec (h : Inv s) (hr : Runs s task map) (hq : q < NR_TASKS)
    (hn : s.tasks q = none) :
    All (fun r => ∃ D, r.1 = pageAddr D ∧ D < 4096 ∧
        Layout r.2 (update s.spaces q (some (D, 1023))) ∧
        (r.2.cow (update s.spaces q (some (D, 1023)))).map =
          (s.sharing.share s.running q {v | v / 1024 < 1023}).map ∧
        (∀ f, Used s s.spaces f → r.2.page f = s.page f) ∧ r.2.tasks = s.tasks ∧
        r.2.running = s.running ∧ r.2.cr3 = task.pde) (copyPde s) := by
  have hqn : s.spaces q = none := by
    simp only [State.spaces, hn]
  unfold copyPde
  rw [bind_of_next hr.runningTask_eq]
  refine all_bind ((h.allocKpage Nat.one_pos).mono fun r hr' => ?_)
  obtain ⟨hk, D, bits, rfl, hge, hle, hnew, hbit, hl⟩ := hr'
  obtain ⟨hsp, hdir, hc⟩ := h.of_runs hr
  have hidx : idx (pageAddr D) = D := idx_pageAddr (by omega)
  have hdir' : Dir (s.setKernelBits bits) (idx task.pde) := hdir.congr rfl
  obtain ⟨hl1, hm1, hD, hDi, hne⟩ := hl.newDir hdir' hge (by omega) hnew
  obtain ⟨hl2, hm2⟩ := hl1.addSpace (k := 4) hqn hD hge hnew hbit (by decide)
    fun i h4 hi => by omega
  have hdD : idx task.pde ≠ D := by
    rintro hd
    exact hnew s.running 1023 (by rw [hsp, hd])
  have hpq : s.running ≠ q := by
    rintro rfl
    rw [hr.run] at hn
    exact absurd hn (by simp)
  have hsame : ∀ f, Used s s.spaces f →
      ((s.setKernelBits bits).newDir D (idx task.pde)).page f = s.page f := by
    intro f hf
    have := (h.layout.used f hf).1
    exact hne f (by omega)
  have hstart : Copying s ((s.setKernelBits bits).newDir D (idx task.pde)) s.spaces s.running q
      (idx task.pde) D 4 := by
    refine ⟨hl2, ?_, hsame, fun i _ hi => ?_, rfl, rfl, rfl⟩
    · rw [hm2, hm1]
      funext u w
      have hlow : w / 1024 < 4 → ∀ t, (s.cow s.spaces).map t w = none := by
        intro hw t
        cases ht : s.spaces t with
        | none => exact cow_map_none ht
        | some r => rw [cow_map ht, if_neg (by omega)]
      by_cases hu : (u = s.running ∨ u = q) ∧ w ∈ {v : ℕ | v / 1024 < 4}
      · rw [Cow.map_share_of_mem hu.1 hu.2, hlow hu.2 s.running]
        exact hlow hu.2 u
      · rw [Cow.map_share_of_not hu]
        rfl
    · rw [hDi i hi, hne _ hdD]
  have hdom : ∀ k t, update s.spaces q (some (D, k)) t ≠ none → t < NR_TASKS := by
    intro k t ht
    by_cases htq : t = q
    · rw [htq]
      exact hq
    · rw [update_of_ne htq] at ht
      cases hst : s.spaces t with
      | none => exact absurd hst ht
      | some r =>
        obtain ⟨k, m, hk, -⟩ := spaces_inv (n := r.2) (d := r.1) hst
        exact h.slots t k hk
  rw [poke_bind, poke_bind, hidx]
  refine all_bind ((all_loop (fun k s' => Copying s s' s.spaces s.running q (idx task.pde) D k)
    (1023 - KERNEL_PAGE_TABLE.length) KERNEL_PAGE_TABLE.length (fun k s' hk4 hk hcop => ?_)
    hstart).mono fun r hfin => ?_)
  · exact copyTable_spec hidx hcop (hdom k) hpq hsp hqn hc hk4 hk
  · rw [poke_bind, pure_apply]
    exact ⟨D, rfl, by omega, hfin.layout.tasks _ _ _, hfin.map, hfin.data, hfin.tasks,
      hfin.running, rfl⟩

end CopyPde

section Process

theorem spaces_newProcess {task : TaskT} (ht : s'.tasks = update s.tasks q (some task))
    (hv : task.vmap = some map) (hD : idx task.pde = D) :
    s'.spaces = update s.spaces q (some (D, 1023)) := by
  funext t
  unfold State.spaces
  rw [ht]
  by_cases htq : t = q
  · subst htq
    rw [update_self, update_self]
    simp only [hv, Option.isSome_some, if_true, hD]
  · rw [update_of_ne htq, update_of_ne htq]

/-- A user process with its directory in slot `q`, where there was none. -/
theorem Inv.newProcess {task : TaskT} (h : Inv s) (hq : q < NR_TASKS)
    (ht : s'.tasks = update s.tasks q (some task)) (hv : task.vmap = some map)
    (hD : idx task.pde = D) (hl : Layout s' (update s.spaces q (some (D, 1023))))
    (hrun : s'.running = s.running) (hcr3 : ∀ k, s'.tasks s.running = some k → s'.cr3 = k.pde)
    (hlive : s'.tasks s.running ≠ none)
    (hsome : ∀ t, t ≠ q → ∀ v, (s'.sharing.map t v).isSome = (s.sharing.map t v).isSome)
    (hok : VmapOk (s'.sharing.map q) map) : Inv s' := by
  have htask : ∀ t k, s'.tasks t = some k → (t = q ∧ k = task) ∨ (t ≠ q ∧ s.tasks t = some k) := by
    intro t k hk
    rw [ht] at hk
    by_cases htq : t = q
    · subst htq
      rw [update_self] at hk
      exact Or.inl ⟨rfl, (Option.some.inj hk).symm⟩
    · rw [update_of_ne htq] at hk
      exact Or.inr ⟨htq, hk⟩
  refine ⟨by rw [spaces_newProcess ht hv hD]; exact hl, fun t k hk => ?_, fun t k hk hn => ?_,
    fun k hk => hcr3 k (hrun ▸ hk), fun hn => absurd (hrun ▸ hn) hlive, fun t k m hk hm => ?_⟩
  · rcases htask t k hk with ⟨rfl, -⟩ | ⟨-, hk⟩
    · exact hq
    · exact h.slots t k hk
  · rcases htask t k hk with ⟨-, rfl⟩ | ⟨-, hk⟩
    · rw [hv] at hn
      exact absurd hn (by simp)
    · exact h.kernelTask t k hk hn
  · rcases htask t k hk with ⟨rfl, rfl⟩ | ⟨hne, hk⟩
    · obtain rfl : map = m := by simpa [hv] using hm
      exact hok
    · exact (h.vmap t k m hk hm).congr (hsome t hne)

/-- The forked process sees what its parent sees, and nobody else anything new. -/
structure Forked (s s' : State) : Prop where
  inv : Inv s'
  child : ∃ q, s.tasks q = none ∧ (∀ t, t ≠ q → ∀ v, s'.sharing.view t v = s.sharing.view t v) ∧
    ∀ v, s'.sharing.view q v = s.sharing.view s.running v

theorem taskFork_spec (h : Inv s) (hr : Runs s task map) :
    All (fun r => Forked s r.2) (taskFork s) := by
  unfold taskFork
  rw [bind_of_next hr.runningTask_eq]
  refine all_bind ((getFreeTask_spec h).mono fun r hr1 => ?_)
  obtain ⟨hk1, hq, hn⟩ := hr1
  obtain ⟨q, s₁⟩ := r
  dsimp only at hk1 hq hn ⊢
  refine all_bind ((hk1.inv.allocKpage Nat.one_pos).mono fun r hr2 => ?_)
  have hk := hk1.trans hr2.1
  obtain ⟨a, s₂⟩ := r
  dsimp only at hk ⊢
  have hr₂ := hk.runs hr
  refine all_bind ((copyPde_spec hk.inv hr₂ hq (by rw [hk.tasks]; exact hn)).mono fun r hr3 => ?_)
  obtain ⟨D, hpde, hD, hl, hm, hdata, htasks, hrun, hcr3⟩ := hr3
  obtain ⟨pde, s₃⟩ := r
  dsimp only at hpde hl hm hdata htasks hrun hcr3 ⊢
  refine all_bind ((allocKpage_spec hl.map Nat.one_pos).mono fun r hr4 => ?_)
  obtain ⟨E, bits, -, -, rfl, -, hbits⟩ := hr4
  rw [poke_bind, pure_apply]
  have hD' : idx pde = D := by
    rw [hpde]
    exact idx_pageAddr (by omega)
  have hpq : s₂.running ≠ q := by
    rintro rfl
    rw [hk.running, hr.run] at hn
    exact absurd hn (by simp)
  have hqn : s₂.spaces q = none := by
    simp only [State.spaces, hk.tasks, hn]
  obtain ⟨hl4, hcow4⟩ := hl.setKernelBits bits fun t d hi hsp => by
    rw [hbits, (hl.dir t d hi hsp).2.2.2]
    split_ifs <;> rfl
  have hvm : (s₃.setKernelBits bits).vmap task = map := by
    unfold State.vmap
    rw [hr.user]
    rfl
  have ht5 : ((s₃.setKernelBits bits).setTask q
      { task with vmap := some ((s₃.setKernelBits bits).vmap task), pde := pde }).tasks =
      update s₂.tasks q (some { task with vmap := some map, pde := pde }) := by
    unfold State.setTask
    dsimp only
    rw [hvm]
    exact congrArg (fun f => update f q _) htasks
  obtain ⟨s₅, hs5⟩ : ∃ s₅, (s₃.setKernelBits bits).setTask q
      { task with vmap := some ((s₃.setKernelBits bits).vmap task), pde := pde } = s₅ := ⟨_, rfl⟩
  have hl5 : Layout s₅ (update s₂.spaces q (some (D, 1023))) := hs5 ▸ hl4.tasks _ _ _
  have hpage5 : s₅.page = s₃.page := by rw [← hs5]; rfl
  have hrun5 : s₅.running = s₃.running := by rw [← hs5]; rfl
  have hcr5 : s₅.cr3 = s₃.cr3 := by rw [← hs5]; rfl
  rw [hs5] at ht5
  dsimp only [All]
  rw [hs5]
  have hsp5 : s₅.spaces = update s₂.spaces q (some (D, 1023)) :=
    spaces_newProcess ht5 rfl hD'
  have hm5 : s₅.sharing.map = (s₂.sharing.share s₂.running q {v | v / 1024 < 1023}).map := by
    unfold State.sharing
    rw [hsp5]
    have : (s₅.cow (update s₂.spaces q (some (D, 1023)))).map =
        (s₃.cow (update s₂.spaces q (some (D, 1023)))).map := by
      unfold State.cow State.entryAt
      rw [hpage5]
    rw [this]
    exact hm
  have hrange : ∀ t v, ¬ v / 1024 < 1023 → s₂.sharing.map t v = none := by
    intro t v hv
    unfold State.sharing
    cases hst : s₂.spaces t with
    | none => exact cow_map_none hst
    | some r =>
      obtain ⟨-, -, -, -, -, hr⟩ := spaces_inv (n := r.2) (d := r.1) hst
      rw [cow_map (d := r.1) (n := r.2) hst, if_neg (by omega)]
  have hother : ∀ t, t ≠ q → ∀ v, (s₅.sharing.map t v).isSome = (s₂.sharing.map t v).isSome := by
    intro t ht v
    rw [hm5]
    by_cases hu : (t = s₂.running ∨ t = q) ∧ v ∈ {v : ℕ | v / 1024 < 1023}
    · obtain rfl := hu.1.resolve_right ht
      rw [Cow.map_share_of_mem hu.1 hu.2, Option.isSome_map]
    · rw [Cow.map_share_of_not hu]
  have hchild : ∀ v, (s₅.sharing.map q v).isSome = (s₂.sharing.map s₂.running v).isSome := by
    intro v
    rw [hm5]
    by_cases hv : v / 1024 < 1023
    · have hmem : v ∈ {v : ℕ | v / 1024 < 1023} := hv
      rw [Cow.map_share_of_mem (Or.inr rfl) hmem, Option.isSome_map]
    · have hnot : v ∉ {v : ℕ | v / 1024 < 1023} := hv
      rw [Cow.map_share_of_not fun h => hnot h.2, hrange _ v hv, hrange _ v hv]
  have hinv5 : Inv s₅ := by
    refine hk.inv.newProcess hq ht5 rfl hD' hl5 (hrun5.trans hrun) (fun k hk' => ?_) ?_ hother
      ((hk.inv.vmap _ task map hr₂.run hr₂.user).congr hchild)
    · rw [ht5, update_of_ne hpq, hr₂.run] at hk'
      rw [hcr5, hcr3, Option.some.inj hk']
    · rw [ht5, update_of_ne hpq, hr₂.run]
      simp
  have hview : ∀ t v, s₅.sharing.view t v =
      (s₂.sharing.share s₂.running q {v | v / 1024 < 1023}).view t v := by
    intro t v
    unfold Cow.view
    rw [hm5]
    cases he : (s₂.sharing.share s₂.running q {v | v / 1024 < 1023}).map t v with
    | none => rfl
    | some e =>
      have hused : Used s₂ s₂.spaces e.1 := by
        have hmem := (Cow.mem_uses_share (c := s₂.sharing) hpq
          (fun v _ => cow_map_none hqn)).mp (show (t, v) ∈ (s₂.sharing.share s₂.running q
            {v | v / 1024 < 1023}).uses e.1 from ⟨e.2, he⟩)
        rcases hmem with hx | ⟨-, -, hx⟩
        · exact ⟨_, hx⟩
        · exact ⟨_, hx⟩
      rw [Option.map_some, Option.map_some]
      refine congrArg some ?_
      show s₅.page e.1 = s₂.page e.1
      rw [hpage5, hdata e.1 hused]
  refine ⟨hinv5, q, hn, fun t ht v => ?_, fun v => ?_⟩
  · rw [hview, Cow.view_share, if_neg fun h => ht h.1, hk.view]
  · rw [hview, Cow.view_share]
    by_cases hv : v / 1024 < 1023
    · rw [if_pos ⟨rfl, hv⟩, hk.view, hk.running]
    · rw [if_neg fun h => hv h.2, ← hk.view s.running v]
      unfold Cow.view
      rw [hrange _ v hv, hrange _ v hv]

/-- A directory without user tables needs no copying. -/
theorem copyTable_absent (hp : (s.page D i).present = false) {pde : ℕ} (hD : idx pde = D) :
    copyTable pde i s = .next ((), s) := by
  unfold copyTable
  rw [peek_bind, hD, if_neg (by simp [hp]), pure_apply]

theorem taskToUserMode_spec (h : Inv s) (ht : s.tasks s.running = some task)
    (hv : task.vmap = none) :
    All (fun r => Inv r.2 ∧ ∀ t v, r.2.sharing.view t v = s.sharing.view t v)
      (taskToUserMode s) := by
  have hrt : ∀ {s : State} {task : TaskT}, s.tasks s.running = some task →
      runningTask s = .next (task, s) := by
    intro s task ht
    unfold runningTask
    rw [ht]
  have hq := h.slots _ task ht
  have hpde := h.kernelTask _ task ht hv
  unfold taskToUserMode
  rw [bind_of_next (hrt ht)]
  refine all_bind ((h.allocKpage Nat.one_pos).mono fun r hr1 => ?_)
  obtain ⟨hk, -⟩ := hr1
  obtain ⟨a, s₁⟩ := r
  dsimp only at hk ⊢
  obtain ⟨map, hmap⟩ : ∃ map, bitmapMake (fun _ => 0) PAGE_SIZE PAGE_SIZE
    (KERNEL_MEMORY_SIZE / PAGE_SIZE) = map := ⟨_, rfl⟩
  rw [poke_bind, hmap]
  have hl1 := hk.inv.layout
  have hsp1 : s₁.spaces s₁.running = none := by
    simp only [State.spaces, hk.tasks, hk.running, ht, hv, Option.isSome_none, Bool.false_eq_true,
      if_false]
  have ht2 : (s₁.setTask s₁.running { task with vmap := some map }).tasks
      (s₁.setTask s₁.running { task with vmap := some map }).running =
      some { task with vmap := some map } := update_self _ _ _
  have hl2 : Layout (s₁.setTask s₁.running { task with vmap := some map }) s₁.spaces :=
    hl1.tasks _ _ _
  refine all_bind ?_
  unfold copyPde
  rw [bind_of_next (hrt ht2)]
  refine all_bind ((allocKpage_spec hl2.map Nat.one_pos).mono fun r hr3 => ?_)
  obtain ⟨D, bits, hge, hle, rfl, hclear, hbits⟩ := hr3
  have hidx : idx (pageAddr D) = D := idx_pageAddr (by omega)
  have hset : bits.bit (D - 256) = true := by
    rw [hbits, if_pos ⟨Nat.le_refl _, by omega⟩]
  have hnew : ∀ t hi, s₁.spaces t ≠ some (D, hi) := fun t hi hsp => by
    have hbit : s₁.kernelMap.bits.bit (D - 256) = true := (hl1.dir t D hi hsp).2.2.2
    have hclear : s₁.kernelMap.bits.Clear (D - 256) 1 := hclear
    rw [hclear (D - 256) (Nat.le_refl _) (by omega)] at hbit
    exact absurd hbit (by decide)
  obtain ⟨hl3, hm3⟩ := hl2.setKernelBits bits fun t d hi hsp => by
    rw [hbits, (hl2.dir t d hi hsp).2.2.2]
    split_ifs <;> rfl
  obtain ⟨hl4, hm4, hD, hDi, hne⟩ := hl3.newDir hl3.kernelDir.1 hge (by omega) hnew
  have hempty : ∀ i, 4 ≤ i → i < 1023 →
      ((((s₁.setTask s₁.running { task with vmap := some map }).setKernelBits bits).newDir
        D 1).page D i).present = false := by
    intro i h4 hi
    rw [hDi i hi]
    exact hl3.kernelDir.2 i h4 hi
  obtain ⟨hl5, hm5⟩ := hl4.addSpace (k := 1023) hsp1 hD hge hnew hset (Nat.le_refl _) hempty
  have hloop : loop (copyTable (pageAddr D)) (1023 - KERNEL_PAGE_TABLE.length)
      KERNEL_PAGE_TABLE.length
      (((s₁.setTask s₁.running { task with vmap := some map }).setKernelBits bits).newDir D 1) =
      .next ((), ((s₁.setTask s₁.running
        { task with vmap := some map }).setKernelBits bits).newDir D 1) :=
    loop_eq (fun _ => ((s₁.setTask s₁.running
        { task with vmap := some map }).setKernelBits bits).newDir D 1) _ _
      fun k h4 hk => copyTable_absent (hempty k h4 hk) hidx
  rw [poke_bind, poke_bind, hidx]
  dsimp only
  rw [hpde]
  rw [show ((((s₁.setTask s₁.running { task with vmap := some map }).setKernelBits bits).setPage D
      (((s₁.setTask s₁.running { task with vmap := some map }).setKernelBits bits).page 1)).setEntry
        D 1023 (entryInit D)) =
      ((s₁.setTask s₁.running { task with vmap := some map }).setKernelBits bits).newDir D 1 from rfl]
  rw [bind_of_next hloop, poke_bind, pure_apply]
  dsimp only [All]
  rw [poke_bind, poke_apply]
  dsimp only
  obtain ⟨s₆, hs6⟩ : ∃ s₆, ({ ({ (((s₁.setTask s₁.running
      { task with vmap := some map }).setKernelBits bits).newDir D 1) with
        cr3 := task.pde } : State).setTask s₁.running
          { task with vmap := some map, pde := pageAddr D } with cr3 := pageAddr D } : State) = s₆ :=
    ⟨_, rfl⟩
  have ht6 : s₆.tasks = update s₁.tasks s₁.running
      (some { task with vmap := some map, pde := pageAddr D }) := by
    rw [← hs6]
    exact update_idem _ _ _
  have hrun6 : s₆.running = s₁.running := by rw [← hs6]; rfl
  have hcr6 : s₆.cr3 = pageAddr D := by rw [← hs6]
  have hpage6 : s₆.page = (((s₁.setTask s₁.running
      { task with vmap := some map }).setKernelBits bits).newDir D 1).page := by rw [← hs6]; rfl
  have hl6 : Layout s₆ (update s₁.spaces s₁.running (some (D, 1023))) := hs6 ▸ hl5.tasks _ _ _
  have hsp6 := spaces_newProcess ht6 rfl hidx
  have hm6 : s₆.sharing.map = s₁.sharing.map := by
    unfold State.sharing
    rw [hsp6]
    have : (s₆.cow (update s₁.spaces s₁.running (some (D, 1023)))).map =
        ((((s₁.setTask s₁.running
          { task with vmap := some map }).setKernelBits bits).newDir D 1).cow
            (update s₁.spaces s₁.running (some (D, 1023)))).map := by
      unfold State.cow State.entryAt
      rw [hpage6]
    rw [this, hm5, hm4, hm3]
    rfl
  have hnone : ∀ v, s₁.sharing.map s₁.running v = none := fun v => cow_map_none hsp1
  suffices hgoal : Inv s₆ ∧ ∀ t v, s₆.sharing.view t v = s.sharing.view t v by
    subst hs6
    exact hgoal
  refine ⟨hk.inv.newProcess (by rw [hk.running]; exact hq) ht6 rfl hidx hl6 hrun6
    (fun k hk' => ?_) ?_ (fun t _ v => by rw [hm6]) ⟨⟨?_, ?_, ?_⟩, fun v hv => ?_, fun v _ _ => ?_⟩,
    fun t v => ?_⟩
  · rw [ht6, update_self] at hk'
    rw [hcr6, ← Option.some.inj hk']
  · rw [ht6, update_self]
    simp
  · rw [← hmap]
    rfl
  · rw [← hmap]
    rfl
  · rw [← hmap]
    rfl
  · rw [hm6, hnone] at hv
    exact absurd hv (by simp)
  · rw [hm6, hnone, ← hmap]
    unfold bit bitmapMake
    simp
  · rw [← hk.view t v]
    refine view_congr (by rw [hm6]) fun f hf => ?_
    have := (hl1.used f hf).1
    rw [hpage6]
    exact hne f (by omega)

end Process

end Onix.Memory
