import Onix.Sanity.MemoryFork

/-! What user code reads and writes, and the rest of what processes do to their
memory. -/

namespace Onix.Memory

open Function Code Bytes Outcome

variable {s s' : State} {t d i f v q count addr vaddr pde : ℕ} {task : TaskT} {map : BitmapT}
  {word de e : PageEntryT}

section Lookup

/-- The user pages of a process. -/
def UserAddr (vaddr : ℕ) : Prop := KERNEL_MEMORY_SIZE ≤ vaddr ∧ vaddr < USER_STACK_TOP

theorem UserAddr.lt (h : UserAddr vaddr) : vaddr < 2 ^ 32 := by
  unfold UserAddr USER_STACK_TOP at h
  omega

theorem UserAddr.page (h : UserAddr vaddr) : 4096 ≤ idx vaddr ∧ idx vaddr < 32768 := by
  unfold UserAddr KERNEL_MEMORY_SIZE USER_STACK_TOP at h
  unfold idx PAGE_SIZE
  omega

theorem pageAddr_of_aligned (ha : vaddr % PAGE_SIZE = 0) (hlt : vaddr < 2 ^ 32) :
    pageAddr (idx vaddr) = vaddr := by
  unfold pageAddr idx PAGE_SIZE at *
  omega

/-- The processor uses the entry that the tables have for the page. -/
theorem lookup_map (s : State) (pde : ℕ) (h : vaddr < 2 ^ 32) :
    (s.lookup pde vaddr).map Prod.snd = s.entryAt (idx pde) (idx vaddr) := by
  obtain ⟨hd, ht⟩ := didx_div vaddr h
  unfold State.lookup State.entryAt
  dsimp only
  rw [hd, ht]
  split_ifs <;> rfl

theorem lookup_none (hsp : s.spaces t = some (idx pde, 1023)) (hu : UserAddr vaddr)
    (hl : s.lookup pde vaddr = none) : s.sharing.map t (idx vaddr) = none := by
  have hmap := lookup_map s pde hu.lt
  rw [hl, Option.map_none] at hmap
  unfold State.sharing
  rw [cow_map hsp, ← hmap, Option.map_none, ite_self]

theorem lookup_some {l : PageEntryT} (h : Inv s) (hsp : s.spaces t = some (idx pde, 1023))
    (hu : UserAddr vaddr) (hl : s.lookup pde vaddr = some (l, e)) :
    (l.user = true ∧ e.user = true) ∧
      s.sharing.map t (idx vaddr) = some (e.index.toNat, e.write) := by
  have hpage := hu.page
  have hdir : 4 ≤ idx vaddr / 1024 ∧ idx vaddr / 1024 < 1023 := by omega
  have hmap := lookup_map s pde hu.lt
  rw [hl, Option.map_some] at hmap
  constructor
  · obtain ⟨hd, ht⟩ := didx_div vaddr hu.lt
    unfold State.lookup at hl
    dsimp only at hl
    rw [hd, ht] at hl
    split_ifs at hl with h1 h2
    obtain ⟨rfl, rfl⟩ := Prod.mk.inj (Option.some.inj hl)
    obtain ⟨hdir', he⟩ := h.layout.user t _ _ _ hsp hdir.1 hdir.2 h1
    exact ⟨hdir', he _ (Nat.mod_lt _ (by decide)) h2⟩
  · unfold State.sharing
    rw [cow_map hsp, if_pos hdir, ← hmap]
    rfl

/-- A process reads its own view of memory. -/
theorem read_eq (h : Inv s) (t : ℕ) (hu : UserAddr vaddr) :
    s.read t vaddr = (s.sharing.view t (idx vaddr)).map fun p => p (vaddr / 4 % 1024) := by
  have hnone : s.spaces t = none → s.sharing.view t (idx vaddr) = none := by
    intro hsp
    unfold Cow.view State.sharing
    rw [cow_map_none hsp]
    rfl
  unfold State.read
  cases ht : s.tasks t with
  | none =>
    have hsp : s.spaces t = none := by simp only [State.spaces, ht]
    rw [hnone hsp]
    rfl
  | some task =>
    cases hv : task.vmap with
    | none =>
      have hsp : s.spaces t = none := by
        simp only [State.spaces, ht, hv, Option.isSome_none, Bool.false_eq_true, if_false]
      have hlook : s.lookup task.pde vaddr = none := by
        have hpage := hu.page
        obtain ⟨hd, -⟩ := didx_div vaddr hu.lt
        unfold State.lookup
        dsimp only
        rw [h.kernelTask t task ht hv, if_neg]
        rw [h.layout.kernelDir.2 _ (by omega) (by omega)]
        decide
      rw [hnone hsp]
      show (s.lookup task.pde vaddr).bind _ = _
      rw [hlook]
      rfl
    | some map =>
      have hsp := spaces_some ht hv
      show (s.lookup task.pde vaddr).bind _ = _
      cases hl : s.lookup task.pde vaddr with
      | none =>
        unfold Cow.view
        rw [lookup_none hsp hu hl]
        rfl
      | some r =>
        obtain ⟨⟨hde, he⟩, hmap⟩ := lookup_some (l := r.1) (e := r.2) h hsp hu hl
        unfold Cow.view
        rw [hmap]
        dsimp only [Option.bind]
        rw [if_pos (by rw [hde, he]; rfl)]
        rfl

end Lookup

section Access

theorem load_spec (h : Inv s) (hr : Runs s task map) (hu : UserAddr vaddr) :
    All (fun r => Private s r.2) (load vaddr s) := by
  obtain ⟨hsp, -, -⟩ := h.of_runs hr
  unfold load
  rw [h.cr3 task hr.run]
  cases hl : s.lookup task.pde vaddr with
  | none => exact pageFault_absent h hr hu.1 hu.2 false
  | some r =>
    obtain ⟨⟨hde, he⟩, -⟩ := lookup_some (l := r.1) (e := r.2) h hsp hu hl
    dsimp only
    rw [if_pos (by rw [hde, he]; rfl)]
    exact (Kept.refl h).private

/-- A word is written where the page is the process's alone. -/
theorem Inv.write (h : Inv s) (hm : s.sharing.map s.running v = some (f, true)) (i : ℕ)
    (word : PageEntryT) : Private s (s.setEntry f i word) := by
  have hl := h.layout
  have hused : Used s s.spaces f := ⟨_, Cow.mem_uses hm⟩
  have hge := (hl.used f hused).1
  obtain ⟨hl', hm'⟩ := hl.setPage (update (s.page f) i word) (f := f) (by omega)
    (fun hlt => by omega) fun t i ht => (hl.table t i f ht).2.2.2 hused
  obtain ⟨hinv, hmap⟩ := h.congr (s.setEntry f i word) rfl rfl rfl ⟨hl', hm'⟩
  refine ⟨hinv, rfl, rfl, fun t ht w => ?_⟩
  have hstore := hl.cow.view_store hm (update (s.page f) i word) (q := t) (w := w)
    fun he => ht (Prod.mk.inj he).1
  rw [show s.sharing.view t w = _ from hstore.symm]
  unfold Cow.view
  rw [hmap]
  rfl

theorem store_spec (h : Inv s) (hr : Runs s task map) (hu : UserAddr vaddr) (word : PageEntryT) :
    All (fun r => Private s r.2) (store vaddr word s) := by
  obtain ⟨hsp, -, -⟩ := h.of_runs hr
  unfold store
  rw [h.cr3 task hr.run]
  cases hl : s.lookup task.pde vaddr with
  | none => exact pageFault_absent h hr hu.1 hu.2 true
  | some r =>
    obtain ⟨-, hmap⟩ := lookup_some (l := r.1) (e := r.2) h hsp hu hl
    dsimp only
    split_ifs with hw
    · have hwrite : r.2.write = true := by
        simp only [Bool.and_eq_true] at hw
        exact hw.2
      rw [hwrite] at hmap
      exact h.write hmap _ word
    · exact pageFault_present h hr hu.1 hu.2 hmap

end Access

section Rest

theorem brkLoop_spec (hu : UserAddr addr) (ha : addr % PAGE_SIZE = 0) (oldBrk fuel : ℕ)
    (h : Inv s) (hr : Runs s task map) :
    All (fun r => Private s r.2) (brkLoop addr oldBrk fuel s) := by
  induction fuel generalizing s task map with
  | zero => trivial
  | succ fuel ih =>
    rw [brkLoop]
    split_ifs
    · have hspec := unlinkPage_spec h hr hu.page.1 hu.page.2
      rw [pageAddr_of_aligned ha hu.lt] at hspec
      refine all_bind (hspec.mono fun r hp => ?_)
      obtain ⟨task', map', hr'⟩ := hp.runs hr
      exact (ih hp.inv hr').mono fun r' hp' => hp.trans hp'
    · exact (Kept.refl h).private

/-- The break of the running process is no part of the mapping. -/
theorem Inv.setBrk (h : Inv s) (hr : Runs s task map) (brk : ℕ) :
    Private s (s.setTask s.running { task with brk := brk }) := by
  have htask : ∀ t k, (s.setTask s.running { task with brk := brk }).tasks t = some k →
      ∃ k₀, s.tasks t = some k₀ ∧ k.pde = k₀.pde ∧ k.vmap = k₀.vmap := by
    intro t k hk
    unfold State.setTask at hk
    dsimp only at hk
    by_cases ht : t = s.running
    · subst ht
      rw [update_self] at hk
      exact ⟨task, hr.run, by rw [← Option.some.inj hk], by rw [← Option.some.inj hk]⟩
    · rw [update_of_ne ht] at hk
      exact ⟨k, hk, rfl, rfl⟩
  have hsp : (s.setTask s.running { task with brk := brk }).spaces = s.spaces := by
    funext t
    unfold State.spaces State.setTask
    dsimp only
    by_cases ht : t = s.running
    · subst ht
      rw [update_self, hr.run]
    · rw [update_of_ne ht]
  have hsh : (s.setTask s.running { task with brk := brk }).sharing = s.sharing := by
    unfold State.sharing
    rw [hsp]
    rfl
  refine ⟨⟨by rw [hsp]; exact h.layout.tasks _ _ _, fun t k hk => ?_, fun t k hk hn => ?_,
    fun k hk => ?_, fun hn => ?_, fun t k m hk hm => ?_⟩, rfl, hsp, fun t _ v => by rw [hsh]⟩
  · obtain ⟨k₀, hk₀, -⟩ := htask t k hk
    exact h.slots t k₀ hk₀
  · obtain ⟨k₀, hk₀, hp, hv⟩ := htask t k hk
    rw [hp]
    exact h.kernelTask t k₀ hk₀ (by rw [← hv, hn])
  · obtain ⟨k₀, hk₀, hp, -⟩ := htask _ k hk
    rw [hp]
    exact h.cr3 k₀ hk₀
  · unfold State.setTask at hn
    dsimp only at hn
    rw [update_self] at hn
    exact absurd hn (by simp)
  · obtain ⟨k₀, hk₀, -, hv⟩ := htask t k hk
    rw [hsh]
    exact h.vmap t k₀ m hk₀ (by rw [← hv, hm])

theorem sysBrk_spec (h : Inv s) (hr : Runs s task map) (huid : task.uid ≠ KERNEL_USER)
    (ha : addr % PAGE_SIZE = 0) (hge : KERNEL_MEMORY_SIZE ≤ addr) (hlt : addr < USER_STACK_BOTTOM)
    (fuel : ℕ) : All (fun r => Private s r.2) (sysBrk addr fuel s) := by
  have hset : ∀ {s₁ : State}, Private s s₁ → All (fun r : ℤ × State => Private s r.2) ((do
      let task ← runningTask
      poke fun s => s.setTask s.running { task with brk := addr }
      return 0 : Code State ℤ) s₁) := by
    intro s₁ hp
    obtain ⟨task₁, map₁, hr₁⟩ := hp.runs hr
    rw [bind_of_next hr₁.runningTask_eq]
    exact hp.trans (hp.inv.setBrk hr₁ addr)
  have hu : UserAddr addr := ⟨hge, by unfold USER_STACK_BOTTOM at hlt; omega⟩
  unfold sysBrk
  rw [assert_bind (decide_eq_true ha), bind_of_next hr.runningTask_eq,
    assert_bind (decide_eq_true huid), assert_bind (by simp [hge, hlt])]
  split_ifs
  · refine all_bind ((brkLoop_spec hu ha _ fuel h hr).mono fun r hp => hset hp)
  · rw [peek_bind]
    split_ifs
    · exact (Kept.refl h).private
    · exact hset (Kept.refl h).private

theorem freeKpage_spec (h : Inv s) (ha : addr % PAGE_SIZE = 0) (hc : 0 < count)
    (hset : (resetPages s.kernelMap (idx addr) count 0).isSome = true)
    (hdir : ∀ t d hi, s.spaces t = some (d, hi) → ¬ (idx addr ≤ d ∧ d < idx addr + count)) :
    All (fun r => Kept s r.2) (freeKpage addr count s) := by
  obtain ⟨map, hmap⟩ := Option.isSome_iff_exists.mp hset
  obtain ⟨h1, h2, h3, hb⟩ := resetPages_spec _ _ _ hmap
  unfold freeKpage
  rw [assert_bind (decide_eq_true ha), assert_bind (decide_eq_true hc), peek_bind]
  dsimp only [id]
  rw [lift_bind hmap, poke_apply]
  obtain ⟨hfit, hoff, hlen⟩ := h.layout.map
  have hmapeq : map = { s.kernelMap with bits := map.bits } := by
    cases map
    cases hk : s.kernelMap
    simp_all
  have hl := h.layout.setKernelBits map.bits fun t d hi hsp => ?_
  · have hstate : ({ s with kernelMap := map } : State) = s.setKernelBits map.bits := by
      unfold State.setKernelBits
      rw [← hmapeq]
    show Kept s _
    rw [hstate]
    exact h.kept rfl rfl rfl ⟨hl.1, by rw [hl.2]⟩ fun _ _ => rfl
  · obtain ⟨-, hge, -, hbit⟩ := h.layout.dir t d hi hsp
    have hnot := hdir t d hi hsp
    rw [hb _ (by omega), hbit]

theorem dispatch_spec (h : Inv s) (t : ℕ) : All (fun r => Inv r.2) (dispatch t s) := by
  unfold dispatch
  rw [poke_bind, bind_apply]
  unfold runningTask
  dsimp only
  cases ht : s.tasks t with
  | none => trivial
  | some task =>
    refine ⟨h.layout.tasks _ _ _, h.slots, h.kernelTask, fun k hk => ?_, fun hn => ?_, h.vmap⟩
    · have hk : s.tasks t = some k := hk
      rw [ht] at hk
      exact congrArg TaskT.pde (Option.some.inj hk)
    · have hn : s.tasks t = none := hn
      rw [ht] at hn
      exact absurd hn (by simp)

end Rest

end Onix.Memory
