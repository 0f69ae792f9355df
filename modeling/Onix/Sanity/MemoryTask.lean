import Onix.Sanity.MemoryOps

/-! The invariant of the whole memory with its tasks, and the calls that map and
unmap pages of the running process. -/

namespace Onix.Memory

open Function Code Bytes Outcome

/-- The address spaces of the user processes. -/
def State.spaces (s : State) : Spaces := fun t =>
  match s.tasks t with
  | some task => if task.vmap.isSome then some (idx task.pde, 1023) else none
  | none => none

/-- The sharing of frames between the user processes. -/
def State.sharing (s : State) : Cow ℕ ℕ ℕ Page := s.cow s.spaces

/-- The bitmap has a 1 for each page that has an entry; there are none outside
user memory. -/
structure VmapOk (m : ℕ → Option (ℕ × Bool)) (map : BitmapT) : Prop where
  shape : map.length = 4096 ∧ map.size = 4096 ∧ map.offset = 4096
  range : ∀ v, (m v).isSome = true → 4096 ≤ v ∧ v < 32768
  bits : ∀ v, 4096 ≤ v → v < 36864 → map.bits.bit (v - 4096) = (m v).isSome

structure Inv (s : State) : Prop where
  layout : Layout s s.spaces
  slots : ∀ t task, s.tasks t = some task → t < NR_TASKS
  kernelTask : ∀ t task, s.tasks t = some task → task.vmap = none → idx task.pde = 1
  cr3 : ∀ task, s.tasks s.running = some task → s.cr3 = task.pde
  idle : s.tasks s.running = none → s.cr3 = KERNEL_PAGE_DIR
  vmap : ∀ t task map, s.tasks t = some task → task.vmap = some map →
    VmapOk (s.sharing.map t) map

/-- The running task is a user process. -/
structure Runs (s : State) (task : TaskT) (map : BitmapT) : Prop where
  run : s.tasks s.running = some task
  user : task.vmap = some map

/-- Nothing that any process sees has changed. -/
structure Kept (s s' : State) : Prop where
  inv : Inv s'
  tasks : s'.tasks = s.tasks
  running : s'.running = s.running
  map : s'.sharing.map = s.sharing.map
  data : ∀ f, Used s s.spaces f → s'.page f = s.page f

/-- Nothing that another process than the running one sees has changed. -/
structure Private (s s' : State) : Prop where
  inv : Inv s'
  running : s'.running = s.running
  spaces : s'.spaces = s.spaces
  view : ∀ t, t ≠ s.running → ∀ v, s'.sharing.view t v = s.sharing.view t v

variable {s s' s₀ : State} {t u d i f v w vaddr : ℕ} {task : TaskT} {map : BitmapT}
  {m : ℕ → Option (ℕ × Bool)} {x : Option (ℕ × Bool)} {e : PageEntryT}

theorem spaces_some (ht : s.tasks t = some task) (hv : task.vmap = some map) :
    s.spaces t = some (idx task.pde, 1023) := by
  simp only [State.spaces, ht, hv, Option.isSome_some, if_true]

theorem spaces_eq (h : s'.tasks = s.tasks) : s'.spaces = s.spaces := by
  unfold State.spaces
  rw [h]

theorem spaces_inv {n : ℕ} (h : s.spaces t = some (d, n)) :
    ∃ task map, s.tasks t = some task ∧ task.vmap = some map ∧ idx task.pde = d ∧ n = 1023 := by
  unfold State.spaces at h
  cases ht : s.tasks t with
  | none => simp [ht] at h
  | some task =>
    simp only [ht] at h
    cases hv : task.vmap with
    | none => simp [hv] at h
    | some map =>
      simp only [hv, Option.isSome_some, if_true, Option.some.injEq, Prod.mk.injEq] at h
      exact ⟨task, map, rfl, hv, h.1, h.2.symm⟩

theorem Runs.runningTask_eq (hr : Runs s task map) : runningTask s = .next (task, s) := by
  unfold runningTask
  rw [hr.run]

theorem Inv.of_runs (h : Inv s) (hr : Runs s task map) :
    s.spaces s.running = some (idx task.pde, 1023) ∧ Dir s (idx task.pde) ∧ idx s.cr3 = idx task.pde := by
  have hsp := spaces_some hr.run hr.user
  exact ⟨hsp, (h.layout.dir _ _ _ hsp).1, by rw [h.cr3 task hr.run]⟩

theorem view_congr (hm : s'.sharing.map t v = s.sharing.map t v)
    (hd : ∀ f, Used s s.spaces f → s'.page f = s.page f) :
    s'.sharing.view t v = s.sharing.view t v := by
  unfold Cow.view
  rw [hm]
  cases he : s.sharing.map t v with
  | none => rfl
  | some e => exact congrArg some (hd e.1 ⟨(t, v), e.2, he⟩)

theorem Kept.view (h : Kept s s') (t v : ℕ) : s'.sharing.view t v = s.sharing.view t v :=
  view_congr (by rw [h.map]) h.data

theorem Kept.private (h : Kept s s') : Private s s' :=
  ⟨h.inv, h.running, spaces_eq h.tasks, fun t _ v => h.view t v⟩

theorem Kept.trans_private (h : Kept s s₀) (h' : Private s₀ s') : Private s s' :=
  ⟨h'.inv, h'.running.trans h.running, h'.spaces.trans (spaces_eq h.tasks),
    fun t ht v => (h'.view t (by rw [h.running]; exact ht) v).trans (h.view t v)⟩

theorem Kept.runs (h : Kept s s') (hr : Runs s task map) : Runs s' task map :=
  ⟨by rw [h.tasks, h.running, hr.run], hr.user⟩

theorem Private.trans (h : Private s s₀) (h' : Private s₀ s') : Private s s' :=
  ⟨h'.inv, h'.running.trans h.running, h'.spaces.trans h.spaces,
    fun t ht v => (h'.view t (by rw [h.running]; exact ht) v).trans (h.view t ht v)⟩

/-- The running process is still a user process. -/
theorem Private.runs (h : Private s s') (hr : Runs s task map) :
    ∃ task' map', Runs s' task' map' := by
  have hsp := spaces_some hr.run hr.user
  rw [← h.spaces, ← h.running] at hsp
  obtain ⟨task', map', ht, hv, -⟩ := spaces_inv hsp
  exact ⟨task', map', ht, hv⟩

theorem Kept.refl (h : Inv s) : Kept s s := ⟨h, rfl, rfl, rfl, fun _ _ => rfl⟩

variable (s') in
/-- A change below the tasks. -/
theorem Inv.congr (h : Inv s) (htasks : s'.tasks = s.tasks) (hrun : s'.running = s.running)
    (hcr3 : s'.cr3 = s.cr3)
    (hl : Layout s' s.spaces ∧ (s'.cow s.spaces).map = (s.cow s.spaces).map) :
    Inv s' ∧ s'.sharing.map = s.sharing.map := by
  have hsp := spaces_eq htasks
  have hm : s'.sharing.map = s.sharing.map := by
    unfold State.sharing
    rw [hsp]
    exact hl.2
  refine ⟨⟨by rw [hsp]; exact hl.1, fun t task ht => h.slots t task (htasks ▸ ht),
    fun t task ht => h.kernelTask t task (htasks ▸ ht), fun task ht => ?_, fun hn => ?_,
    fun t task map ht hv => ?_⟩, hm⟩
  · rw [htasks, hrun] at ht
    rw [hcr3]
    exact h.cr3 task ht
  · rw [htasks, hrun] at hn
    rw [hcr3]
    exact h.idle hn
  · rw [hm]
    exact h.vmap t task map (htasks ▸ ht) hv

theorem Inv.kept (h : Inv s) (htasks : s'.tasks = s.tasks) (hrun : s'.running = s.running)
    (hcr3 : s'.cr3 = s.cr3)
    (hl : Layout s' s.spaces ∧ (s'.cow s.spaces).map = (s.cow s.spaces).map)
    (hd : ∀ f, Used s s.spaces f → s'.page f = s.page f) : Kept s s' := by
  obtain ⟨hinv, hm⟩ := h.congr s' htasks hrun hcr3 hl
  exact ⟨hinv, htasks, hrun, hm, hd⟩

section Vmap

theorem VmapOk.fits (h : VmapOk m map) : map.Fits := by
  obtain ⟨h1, h2, h3⟩ := h.shape
  exact ⟨by omega, by omega⟩

theorem VmapOk.test (h : VmapOk m map) (hv : 4096 ≤ v) (hlt : v < 36864) :
    bitmapTest map v = some (m v).isSome := by
  obtain ⟨h1, h2, h3⟩ := h.shape
  have := bitmapTest_eq h.fits (k := v - 4096) (by omega)
  rw [h3, show 4096 + (v - 4096) = v by omega] at this
  rw [this, h.bits v hv hlt]

theorem VmapOk.set (h : VmapOk m map) (hv : 4096 ≤ v) (hlt : v < 32768) (value : Bool) :
    bitmapSet map v value = some { map with bits := map.bits.setBit (v - 4096) value } := by
  obtain ⟨h1, h2, h3⟩ := h.shape
  have := bitmapSet_eq h.fits (k := v - 4096) (b := value) (by omega)
  rw [h3, show 4096 + (v - 4096) = v by omega] at this
  rw [this, h3]

theorem VmapOk.update (h : VmapOk m map) (hv : 4096 ≤ v) (hlt : v < 32768) :
    VmapOk (update m v x) { map with bits := map.bits.setBit (v - 4096) x.isSome } := by
  refine ⟨h.shape, fun w hw => ?_, fun w hw hlt' => ?_⟩
  · by_cases hwv : w = v
    · subst hwv
      exact ⟨hv, hlt⟩
    · rw [update_of_ne hwv] at hw
      exact h.range w hw
  · dsimp only
    rw [bit_setBit]
    by_cases hwv : w = v
    · subst hwv
      rw [if_pos rfl, update_self]
    · rw [if_neg (by omega), update_of_ne hwv]
      exact h.bits w hw hlt'

theorem VmapOk.congr {m' : ℕ → Option (ℕ × Bool)} (h : VmapOk m map)
    (hm : ∀ v, (m' v).isSome = (m v).isSome) : VmapOk m' map :=
  ⟨h.shape, fun v hv => h.range v (hm v ▸ hv), fun v hv hlt => by rw [hm]; exact h.bits v hv hlt⟩

theorem vmapTest_eq (h : Inv s) (hr : Runs s task map) (hv : 4096 ≤ v) (hlt : v < 36864) :
    vmapTest v s = .next ((s.sharing.map s.running v).isSome, s) := by
  have hok := h.vmap _ task map hr.run hr.user
  have hvm : s.vmap task = map := by
    unfold State.vmap
    rw [hr.user]
    rfl
  unfold vmapTest
  rw [bind_of_next hr.runningTask_eq, peek_bind, hvm]
  unfold Code.lift
  rw [hok.test hv hlt]

/-- The task with another bit in its bitmap. -/
def TaskT.setBit (task : TaskT) (map : BitmapT) (v : ℕ) (value : Bool) : TaskT :=
  { task with vmap := some { map with bits := map.bits.setBit (v - 4096) value } }

/-- The state with another bit in the bitmap of the running process. -/
def State.setVmap (s : State) (task : TaskT) (map : BitmapT) (v : ℕ) (value : Bool) : State :=
  s.setTask s.running (task.setBit map v value)

theorem vmapSet_eq (hr : Runs s task map) (hok : VmapOk m map) (hv : 4096 ≤ v) (hlt : v < 32768)
    (value : Bool) : vmapSet v value s = .next ((), s.setVmap task map v value) := by
  unfold vmapSet
  rw [bind_of_next hr.runningTask_eq]
  simp only [hr.user]
  rw [lift_bind (hok.set hv hlt value), poke_apply]
  rfl

theorem spaces_setVmap (hr : Runs s task map) (value : Bool) :
    (s.setVmap task map v value).spaces = s.spaces := by
  funext t
  unfold State.spaces State.setVmap State.setTask
  dsimp only
  by_cases ht : t = s.running
  · subst ht
    rw [update_self, hr.run]
    simp only [TaskT.setBit, hr.user, Option.isSome_some]
  · rw [update_of_ne ht]

/-- The entry of page `v` of the running process is replaced. -/
theorem Inv.setEntry (h : Inv s) (hr : Runs s task map) (hv : 4096 ≤ v) (hlt : v < 32768)
    (htasks : s'.tasks = (s.setVmap task map v x.isSome).tasks) (hrun : s'.running = s.running)
    (hcr3 : s'.cr3 = s.cr3)
    (hl : Layout s' s.spaces ∧ (s'.cow s.spaces).map = ((s.cow s.spaces).set s.running v x).map)
    (hd : ∀ t, t ≠ s.running → ∀ w f b, s.sharing.map t w = some (f, b) → s'.page f = s.page f) :
    Private s s' := by
  have hsp : s'.spaces = s.spaces := by
    rw [spaces_eq htasks, spaces_setVmap hr]
  have hm : s'.sharing.map = (s.sharing.set s.running v x).map := by
    unfold State.sharing
    rw [hsp]
    exact hl.2
  have htask : ∀ t k, s'.tasks t = some k → (t = s.running ∧ k = task.setBit map v x.isSome) ∨
      (t ≠ s.running ∧ s.tasks t = some k) := by
    intro t k hk
    rw [htasks] at hk
    unfold State.setVmap State.setTask at hk
    dsimp only at hk
    by_cases ht : t = s.running
    · subst ht
      rw [update_self] at hk
      exact Or.inl ⟨rfl, (Option.some.inj hk).symm⟩
    · rw [update_of_ne ht] at hk
      exact Or.inr ⟨ht, hk⟩
  refine ⟨⟨by rw [hsp]; exact hl.1, fun t k hk => ?_, fun t k hk hn => ?_, fun k hk => ?_,
    fun hn => ?_, fun t k map' hk hv' => ?_⟩, hrun, hsp, fun t ht w => ?_⟩
  · rcases htask t k hk with ⟨rfl, -⟩ | ⟨-, hk⟩
    · exact h.slots _ task hr.run
    · exact h.slots t k hk
  · rcases htask t k hk with ⟨-, rfl⟩ | ⟨-, hk⟩
    · exact absurd hn (by simp [TaskT.setBit])
    · exact h.kernelTask t k hk hn
  · rw [hcr3]
    rw [hrun] at hk
    rcases htask _ k hk with ⟨-, rfl⟩ | ⟨hne, -⟩
    · exact h.cr3 task hr.run
    · exact absurd rfl hne
  · rw [hrun, htasks] at hn
    unfold State.setVmap State.setTask at hn
    exact absurd hn (by simp)
  · rw [hm]
    rcases htask t k hk with ⟨rfl, rfl⟩ | ⟨hne, hk⟩
    · obtain rfl := Option.some.inj hv'
      have := (h.vmap _ task map hr.run hr.user).update (x := x) hv hlt
      refine this.congr fun w => ?_
      rw [Cow.map_set]
      by_cases hw : w = v
      · subst hw
        rw [if_pos ⟨rfl, rfl⟩, update_self]
      · rw [if_neg fun h => hw h.2, update_of_ne hw]
    · refine (h.vmap t k map' hk hv').congr fun w => ?_
      rw [Cow.map_set, if_neg fun h => hne h.1]
  · unfold Cow.view
    rw [hm, Cow.map_set, if_neg fun h => ht h.1]
    cases he : s.sharing.map t w with
    | none => rfl
    | some e => exact congrArg some (hd t ht w e.1 e.2 he)

end Vmap

section Pages

theorem page_range (hv : 4096 ≤ v) (hlt : v < 32768) :
    idx (pageAddr v) = v ∧ didx (pageAddr v) = v / 1024 ∧ tidx (pageAddr v) = v % 1024 ∧
      4 ≤ v / 1024 ∧ v / 1024 < 1023 := by
  have h1 : idx (pageAddr v) = v := idx_pageAddr (by omega)
  have h2 : pageAddr v < 2 ^ 32 := Nat.mod_lt _ (by decide)
  obtain ⟨h3, h4⟩ := didx_div (pageAddr v) h2
  rw [h1] at h3 h4
  exact ⟨h1, h3, h4, by omega, by omega⟩

/-- `get_pte` for a page of user memory, with the table made where it is missing. -/
theorem getPte_spec (h : Inv s) (hr : Runs s task map) (hd : didx vaddr = v / 1024)
    (hv : 4096 ≤ v) (hlt : v < 32768) :
    All (fun r => Kept s r.2 ∧ (r.2.page (idx task.pde) (v / 1024)).present = true ∧
        (r.2.page (idx task.pde) (v / 1024)).index.toNat = r.1)
      (getPte vaddr true s) := by
  obtain ⟨hsp, hdir, hc⟩ := h.of_runs hr
  have hl := h.layout
  have htotal := hl.counts.total
  by_cases hp : (s.page (idx task.pde) (didx vaddr)).present = true
  · rw [getPte_present hdir hc hp]
    rw [hd] at hp ⊢
    exact ⟨Kept.refl h, hp, rfl⟩
  · have hp : (s.page (idx task.pde) (didx vaddr)).present = false := by simpa using hp
    rw [getPte_create hdir hc hp (by omega) (by omega) fun f hf => ?_]
    · cases hf : s.firstFree with
      | none => trivial
      | some f =>
        rw [hd] at hp ⊢
        have hspare := hl.spare hf
        have hfge := hspare.ge
        have hflt := hspare.lt
        have hdlt := hdir.lt
        have hpd : (s.newTable (idx task.pde) (v / 1024) f).page (idx task.pde) (v / 1024) =
            entryInit f := by
          unfold State.newTable
          rw [page_setPage, update_of_ne (by omega), page_setEntry, update_self, update_self]
        dsimp only [All]
        rw [hpd]
        refine ⟨h.kept rfl rfl rfl (hl.newTable hsp (by omega) (by omega) hp hf) fun g hg => ?_,
          rfl, entryInit_index (by omega)⟩
        have hgge := (hl.used g hg).1
        unfold State.newTable
        rw [page_setPage, update_of_ne, page_setEntry, update_of_ne (by omega)]
        · rfl
        · rintro rfl
          exact hspare.used hg
    · obtain ⟨hge, hlt, -⟩ := hl.counts.firstFree hf
      exact ⟨hge, by omega⟩

/-- What the tables say about page `v` of the running process. -/
theorem sharing_map (h : Inv s) (hr : Runs s task map) (hv : 4096 ≤ v) (hlt : v < 32768)
    (hp : (s.page (idx task.pde) (v / 1024)).present = true)
    (hf : (s.page (idx task.pde) (v / 1024)).index.toNat = f) :
    s.sharing.map s.running v = if (s.page f (v % 1024)).present = true then
      some ((s.page f (v % 1024)).index.toNat, (s.page f (v % 1024)).write) else none := by
  unfold State.sharing
  rw [cow_map (h.of_runs hr).1, if_pos (by omega), entryAt_of_table hp hf]
  split_ifs <;> rfl

theorem linkPage_spec (h : Inv s) (hr : Runs s task map) (hv : 4096 ≤ v) (hlt : v < 32768) :
    All (fun r => Private s r.2) (linkPage (pageAddr v) s) := by
  obtain ⟨hidx, hdidx, htidx, h4, h1023⟩ := page_range hv hlt
  unfold linkPage
  rw [assert_bind (decide_eq_true (pageAddr_mod v))]
  refine all_bind ((getPte_spec h hr hdidx hv hlt).mono fun r hr' => ?_)
  obtain ⟨hk, hp, hf⟩ := hr'
  obtain ⟨f, s₁⟩ := r
  dsimp only at hk hp hf ⊢
  refine (All.mono (P := fun r => Private s₁ r.2) ?_ fun r hr => hk.trans_private hr)
  have h₁ := hk.inv
  have hr₁ := hk.runs hr
  have hok := h₁.vmap _ task map hr₁.run hr₁.user
  have hl := h₁.layout
  have htotal := hl.counts.total
  obtain ⟨hsp, hdir, -⟩ := h₁.of_runs hr₁
  have hmap := sharing_map h₁ hr₁ hv hlt hp hf
  rw [peek_bind, htidx, hidx, bind_of_next (vmapTest_eq h₁ hr₁ hv (by omega))]
  by_cases hpres : (s₁.page f (v % 1024)).present = true
  · rw [if_pos hpres] at hmap ⊢
    rw [hmap]
    exact (Kept.refl h₁).private
  · rw [if_neg hpres] at hmap ⊢
    rw [hmap, assert_bind (by rfl), bind_of_next (vmapSet_eq hr₁ hok hv hlt true), bind_apply,
      getOnePage_eq]
    cases hfree : (s₁.setVmap task map v true).firstFree with
    | none => trivial
    | some g =>
      have hfree : s₁.firstFree = some g := hfree
      have hspare := hl.spare hfree
      have hgge := hspare.ge
      have hglt := hspare.lt
      have hindex : (entryInit g).index.toNat = g := entryInit_index (by omega)
      dsimp only
      rw [next_andThen, poke_apply, idx_pageAddr (by omega)]
      obtain ⟨hlt1, hmt1⟩ := hl.take hfree
      have htf : Table s₁ s₁.spaces s₁.running (v / 1024) f :=
        hf ▸ table_of_present hsp h4 h1023 hp
      have hcow : ((s₁.cow s₁.spaces).set s₁.running v (some (g, true))).Inv (s₁.take g).memoryMap := by
        have hnone : (s₁.cow s₁.spaces).uses g = ∅ := Set.not_nonempty_iff_eq_empty.mp hspare.used
        have := hl.cow.link hmap hnone
        exact this
      have hset := hlt1.setEntry (e := entryInit g)
        (((s₁.setVmap task map v true).take g).setEntry f (v % 1024) (entryInit g))
        hsp h4 h1023 hp hf (fun _ => rfl) rfl rfl rfl
        ⟨hlt1.counts.start, hlt1.counts.total, hlt1.counts.kernel, hlt1.counts.free⟩
        (fun _ _ _ _ => rfl) ?_ ?_
      · rw [if_pos (entryInit_present g), hindex] at hset
        have hset' : (((s₁.take g).cow s₁.spaces).set s₁.running v (some (g, true))).map =
            ((s₁.cow s₁.spaces).set s₁.running v (some (g, true))).map := by
          unfold Cow.set
          rw [hmt1]
        refine h₁.setEntry (x := some (g, true)) hr₁ hv hlt rfl rfl rfl
          ⟨hset.1, hset.2.trans hset'⟩ fun t ht w f' b hb => ?_
        refine update_of_ne ?_ _ _
        rintro rfl
        exact (hl.table _ _ _ htf).2.2.2 ⟨(t, w), b, hb⟩
      · rw [if_pos (entryInit_present g), hindex]
        exact hcow.congr (by unfold Cow.set; rw [hmt1]; rfl) fun _ _ => rfl
      · intro _
        rw [hindex]
        exact ⟨hgge, hglt, fun u i => hspare.table u i⟩

theorem unlinkPage_spec (h : Inv s) (hr : Runs s task map) (hv : 4096 ≤ v) (hlt : v < 32768) :
    All (fun r => Private s r.2) (unlinkPage (pageAddr v) s) := by
  obtain ⟨hidx, hdidx, htidx, h4, h1023⟩ := page_range hv hlt
  unfold unlinkPage
  rw [assert_bind (decide_eq_true (pageAddr_mod v))]
  refine all_bind ((getPte_spec h hr hdidx hv hlt).mono fun r hr' => ?_)
  obtain ⟨hk, hp, hf⟩ := hr'
  obtain ⟨f, s₁⟩ := r
  dsimp only at hk hp hf ⊢
  refine (All.mono (P := fun r => Private s₁ r.2) ?_ fun r hr => hk.trans_private hr)
  have h₁ := hk.inv
  have hr₁ := hk.runs hr
  have hok := h₁.vmap _ task map hr₁.run hr₁.user
  have hl := h₁.layout
  obtain ⟨hsp, hdir, -⟩ := h₁.of_runs hr₁
  have hmap := sharing_map h₁ hr₁ hv hlt hp hf
  have htf : Table s₁ s₁.spaces s₁.running (v / 1024) f := hf ▸ table_of_present hsp h4 h1023 hp
  rw [peek_bind, htidx, hidx, bind_of_next (vmapTest_eq h₁ hr₁ hv (by omega))]
  by_cases hpres : (s₁.page f (v % 1024)).present = true
  · rw [if_pos hpres] at hmap
    rw [if_neg (by simp [hpres]), hmap, assert_bind (by rfl), poke_bind]
    have hused : Used s₁ s₁.spaces (s₁.page f (v % 1024)).index.toNat := ⟨_, Cow.mem_uses hmap⟩
    obtain ⟨hge, hltg⟩ := hl.used _ hused
    have hpos := hl.cow.pos (Cow.mem_uses hmap)
    have hr₂ : Runs (s₁.setEntry f (v % 1024)
        { s₁.page f (v % 1024) with present := false }) task map := ⟨hr₁.run, hr₁.user⟩
    have hcounts : Counts ((s₁.setEntry f (v % 1024)
        { s₁.page f (v % 1024) with present := false }).setVmap task map v false) :=
      ⟨hl.counts.start, hl.counts.total, hl.counts.kernel, hl.counts.free⟩
    rw [bind_of_next (vmapSet_eq hr₂ hok hv hlt false), putPage_eq hcounts hge hltg hpos]
    have hcow := hl.cow.unlink hmap
    have hset := hl.setEntry (e := { s₁.page f (v % 1024) with present := false })
      (((s₁.setEntry f (v % 1024)
        { s₁.page f (v % 1024) with present := false }).setVmap task map v false).put
          (s₁.page f (v % 1024)).index.toNat)
      hsp h4 h1023 hp hf (fun he => absurd he (by simp)) rfl rfl rfl
      (hcounts.put hge hltg hpos) (fun u i g hg => ?_) ?_ fun he => absurd he (by simp)
    · refine h₁.setEntry (x := none) hr₁ hv hlt rfl rfl rfl hset fun t ht w f' b hb => ?_
      refine update_of_ne ?_ _ _
      rintro rfl
      exact (hl.table _ _ _ htf).2.2.2 ⟨(t, w), b, hb⟩
    · refine update_of_ne ?_ _ _
      rintro rfl
      exact (hl.table u i _ hg).2.2.2 hused
    · rw [if_neg (by simp)]
      exact hcow
  · rw [if_neg hpres] at hmap
    rw [if_pos (by simpa using hpres), hmap]
    exact (Kept.refl h₁).private

end Pages

section Fault

theorem tasks_setVmap (hr : Runs s task map) {value : Bool}
    (hb : map.bits.bit (v - 4096) = value) : (s.setVmap task map v value).tasks = s.tasks := by
  have hbits : map.bits.setBit (v - 4096) value = map.bits := ext_bit fun k => by
    rw [bit_setBit]
    split_ifs with hk
    · rw [hk, hb]
    · rfl
  have htask : task.setBit map v value = task := by
    unfold TaskT.setBit
    rw [hbits]
    cases task
    have := hr.user
    simp_all
  unfold State.setVmap State.setTask
  dsimp only
  rw [htask, ← hr.run, update_eq_self]

/-- An access to a page that is not there links it. -/
theorem pageFault_absent (h : Inv s) (hr : Runs s task map) (hge : KERNEL_MEMORY_SIZE ≤ vaddr)
    (hlt : vaddr < USER_STACK_TOP) (write : Bool) :
    All (fun r => Private s r.2) (pageFault vaddr false write s) := by
  have hv : 4096 ≤ idx vaddr ∧ idx vaddr < 32768 := by
    unfold KERNEL_MEMORY_SIZE at hge
    unfold USER_STACK_TOP at hlt
    unfold idx PAGE_SIZE
    omega
  unfold pageFault
  rw [bind_of_next hr.runningTask_eq, assert_bind (by simp [hge, hlt]), if_neg (by decide)]
  split_ifs
  · exact linkPage_spec h hr hv.1 hv.2
  · trivial

/-- A write to a page that is there makes its frame the page's own. -/
theorem pageFault_present (h : Inv s) (hr : Runs s task map) (hge : KERNEL_MEMORY_SIZE ≤ vaddr)
    (hlt : vaddr < USER_STACK_TOP) {F : ℕ} {b : Bool}
    (hm : s.sharing.map s.running (idx vaddr) = some (F, b)) :
    All (fun r => Private s r.2) (pageFault vaddr true true s) := by
  obtain ⟨v, hvdef⟩ : ∃ v, idx vaddr = v := ⟨_, rfl⟩
  have hv : 4096 ≤ v ∧ v < 32768 := by
    unfold KERNEL_MEMORY_SIZE at hge
    unfold USER_STACK_TOP at hlt
    unfold idx PAGE_SIZE at hvdef
    omega
  obtain ⟨hd, ht⟩ := didx_div vaddr (by unfold USER_STACK_TOP at hlt; omega)
  obtain ⟨hidx, hdidx, htidx, h4, h1023⟩ := page_range hv.1 hv.2
  rw [hvdef] at hm hd ht
  have hl := h.layout
  have htotal := hl.counts.total
  obtain ⟨hsp, hdir, hc⟩ := h.of_runs hr
  have hdlt := hdir.lt
  have hok := h.vmap _ task map hr.run hr.user
  have hbit : map.bits.bit (v - 4096) = true := by
    rw [hok.bits v hv.1 (by omega), hm]
    rfl
  have hp : (s.page (idx task.pde) (v / 1024)).present = true := by
    by_contra hno
    unfold State.sharing at hm
    rw [cow_map hsp, if_pos ⟨h4, h1023⟩] at hm
    unfold State.entryAt at hm
    rw [if_neg hno] at hm
    exact absurd hm (by simp)
  obtain ⟨T, hT⟩ : ∃ T, (s.page (idx task.pde) (v / 1024)).index.toNat = T := ⟨_, rfl⟩
  have htT : Table s s.spaces s.running (v / 1024) T := hT ▸ table_of_present hsp h4 h1023 hp
  obtain ⟨hTge, hTlt, -, hTnot⟩ := hl.table _ _ _ htT
  have hmap := sharing_map h hr hv.1 hv.2 hp hT
  have hpres : (s.page T (v % 1024)).present = true := by
    by_contra hno
    rw [if_neg hno, hm] at hmap
    exact absurd hmap (by simp)
  rw [if_pos hpres, hm] at hmap
  obtain ⟨hF, hb⟩ := Prod.mk.inj (Option.some.inj hmap)
  have hused : Used s s.spaces F := ⟨_, Cow.mem_uses hm⟩
  obtain ⟨hFge, hFlt⟩ := hl.used F hused
  have hpos := hl.cow.pos (Cow.mem_uses hm)
  have hTF : T ≠ F := by
    rintro rfl
    exact hTnot hused
  have hget := getPte_present hdir hc (a := vaddr) (by rw [hd]; exact hp) false
  rw [hd, hT] at hget
  unfold pageFault
  rw [bind_of_next hr.runningTask_eq, assert_bind (by simp [hge, hlt]), if_pos rfl, assert_bind rfl,
    bind_of_next hget, peek_bind, ht, assert_bind hpres, peek_bind, ← hF,
    assert_bind (decide_eq_true hpos), hvdef]
  have hdata : ∀ t w g c, s.sharing.map t w = some (g, c) → g ≠ T := by
    rintro t w g c hg rfl
    exact hTnot ⟨(t, w), c, hg⟩
  by_cases hone : s.memoryMap F = 1
  · rw [if_pos hone, poke_apply]
    have hset := hl.setEntry (e := { s.page T (v % 1024) with write := true })
      (s.setEntry T (v % 1024) { s.page T (v % 1024) with write := true })
      hsp h4 h1023 hp hT (fun _ => ?_) rfl rfl rfl
      ⟨hl.counts.start, hl.counts.total, hl.counts.kernel, hl.counts.free⟩ (fun _ _ _ _ => rfl)
      ?_ fun _ => ?_
    · rw [if_pos hpres] at hset
      dsimp only at hset
      rw [← hF] at hset
      refine h.setEntry (x := some (F, true)) hr hv.1 hv.2 (tasks_setVmap hr hbit).symm rfl rfl
        hset fun t _ w g c hg => update_of_ne (hdata t w g c hg) _ _
    · have := (hl.user _ _ _ _ hsp h4 h1023 hp).2 (v % 1024) (Nat.mod_lt _ (by decide))
      rw [hT] at this
      exact this hpres
    · rw [if_pos hpres]
      dsimp only
      rw [← hF]
      exact hl.cow.grant hm hone
    · dsimp only
      rw [← hF]
      exact ⟨hFge, hFlt, fun u i hg => (hl.table u i F hg).2.2.2 hused⟩
  · rw [if_neg hone]
    have hsrc : ∀ e, (s.setEntry 2 0 e).walk (pageAddr v) = some F := by
      intro e
      have hpd : (s.setEntry 2 0 e).page (idx task.pde) = s.page (idx task.pde) := by
        have := hdir.ne
        exact update_of_ne (by omega) _ _
      have hpT : (s.setEntry 2 0 e).page T = s.page T := update_of_ne (by omega) _ _
      have hc' : idx (s.setEntry 2 0 e).cr3 = idx task.pde := hc
      rw [walk_of_present (t := T) (by rw [hc', hpd, hdidx]; exact hp)
        (by rw [hc', hpd, hdidx]; exact hT), hpT, htidx, if_pos hpres, ← hF]
    rw [bind_apply, copyPage_eq hdir hc hsrc (by omega) fun f hf => ?_]
    · cases hfree : s.firstFree with
      | none => trivial
      | some f =>
        have hspare := hl.spare hfree
        have hfge := hspare.ge
        have hflt := hspare.lt
        have hfT : T ≠ f := by
          rintro rfl
          exact hspare.table _ _ htT
        have hfF : F ≠ f := by
          rintro rfl
          exact hspare.used hused
        have hindex : (entryInit f).index.toNat = f := entryInit_index (by omega)
        obtain ⟨hl2, hm2, hpage2⟩ := hl.copied hfree F
        dsimp only
        rw [next_andThen, poke_bind, poke_apply, idx_pageAddr (by omega)]
        have hcount2 : (s.copied f F).memoryMap F = s.memoryMap F := update_of_ne hfF _ _
        have hmapF : ((s.copied f F).cow s.spaces).map s.running v = some (F, b) := by
          rw [hm2]
          exact hm
        have hpd2 : (s.copied f F).page (idx task.pde) = s.page (idx task.pde) := by
          have := hdir.ne
          exact hpage2 _ (by omega) (by omega)
        have hcow : (((s.copied f F).cow s.spaces).set s.running v (some (f, true))).Inv
            (update (s.copied f F).memoryMap F ((s.copied f F).memoryMap F - 1)) := by
          have hun := hl2.cow.unlink hmapF
          have hnone : (((s.copied f F).cow s.spaces).set s.running v none).uses f = ∅ := by
            refine Set.eq_empty_iff_forall_notMem.mpr fun x hx => ?_
            rw [Cow.mem_uses_set] at hx
            split_ifs at hx
            · obtain ⟨c, hc⟩ := hx
              exact absurd hc (by simp)
            · refine hspare.used ⟨x, ?_⟩
              unfold Cow.uses at hx ⊢
              rwa [hm2] at hx
          have hlink := hun.link (by rw [Cow.map_set, if_pos ⟨rfl, rfl⟩]) hnone
          rw [Cow.set_set] at hlink
          have hself : update (update (s.copied f F).memoryMap F ((s.copied f F).memoryMap F - 1))
              f 1 = update (s.copied f F).memoryMap F ((s.copied f F).memoryMap F - 1) := by
            funext g
            by_cases hg : g = f
            · subst hg
              rw [update_self, update_of_ne hfF.symm]
              exact (update_self g 1 s.memoryMap).symm
            · rw [update_of_ne hg]
          rwa [hself] at hlink
        have hcounts : Counts ((s.copied f F).setCount F ((s.copied f F).memoryMap F - 1)) := by
          refine ⟨hl2.counts.start, hl2.counts.total, fun i hi => ?_, ?_⟩
          · show 1 ≤ update (s.copied f F).memoryMap F _ i
            rw [update_of_ne (by omega)]
            exact hl2.counts.kernel i hi
          · have hz : zeros (update (s.copied f F).memoryMap F ((s.copied f F).memoryMap F - 1))
                s.totalPages = zeros (s.copied f F).memoryMap s.totalPages := by
              refine zeros_congr fun i _ => ?_
              by_cases hi : i = F
              · subst hi
                rw [update_self, hcount2]
                omega
              · rw [update_of_ne hi]
            have := hl2.counts.free
            show (s.copied f F).freePages + s.startPage = zeros (update _ _ _) s.totalPages + 4096
            rw [hz]
            exact this
        have hset := hl2.setEntry (e := entryInit f)
          (((s.copied f F).setCount F ((s.copied f F).memoryMap F - 1)).setEntry T (v % 1024)
            (entryInit f)) (f := T)
          hsp h4 h1023 (by rw [hpd2]; exact hp) (by rw [hpd2]; exact hT) (fun _ => rfl) rfl rfl rfl
          ⟨hcounts.start, hcounts.total, hcounts.kernel, hcounts.free⟩ (fun u i g hg => ?_) ?_
          fun _ => ?_
        · rw [if_pos (entryInit_present f), hindex] at hset
          have hset' : (((s.copied f F).cow s.spaces).set s.running v (some (f, true))).map =
              ((s.cow s.spaces).set s.running v (some (f, true))).map := by
            unfold Cow.set
            rw [hm2]
          refine h.setEntry (x := some (f, true)) hr hv.1 hv.2 (tasks_setVmap hr hbit).symm rfl rfl
            ⟨hset.1, hset.2.trans hset'⟩ fun t _ w g c hg => ?_
          have hg4096 := (hl.used g ⟨(t, w), c, hg⟩).1
          rw [page_setEntry, update_of_ne (hdata t w g c hg)]
          refine hpage2 g ?_ (by omega)
          rintro rfl
          exact hspare.used ⟨(t, w), c, hg⟩
        · refine update_of_ne ?_ _ _
          rintro rfl
          exact (hl2.table u i g hg).2.2.2 ⟨_, Cow.mem_uses hmapF⟩
        · rw [if_pos (entryInit_present f), hindex]
          exact hcow
        · rw [hindex]
          refine ⟨hfge, hflt, fun u i hg => ?_⟩
          obtain ⟨d', hi', hu, h4', hlt', hpr, he⟩ := hg
          obtain ⟨hd', hge', -, -⟩ := hl.dir u d' hi' hu
          have := hd'.lt
          rw [hpage2 d' (by omega) (by omega)] at hpr he
          exact hspare.table u i ⟨d', hi', hu, h4', hlt', hpr, he⟩
    · obtain ⟨h1, h2, h3⟩ := hl.counts.firstFree hf
      refine ⟨h1, by omega, ?_⟩
      rintro rfl
      omega

end Fault

end Onix.Memory
