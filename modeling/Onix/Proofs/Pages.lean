import Onix.Proofs.Memory
import Onix.Spec.Buffer

/-! The two page allocators: `alloc_kpage` takes pages of the buffer cache when it finds
none below them, and `free_pages` counts frames that are not free. -/

namespace Onix.Memory

open Function Code Bytes Outcome

variable {s s' : State} {as : List Act} {size count vaddr b : ℕ} {garbage : ℕ → Page}

section FreePages

/-- `sys_brk` of a process that grows. -/
theorem sysBrk_grow {task : TaskT} {addr fuel : ℕ} (ht : s.tasks s.running = some task)
    (huid : task.uid ≠ KERNEL_USER) (hle : task.brk ≤ addr) (ha : addr % PAGE_SIZE = 0)
    (hge : KERNEL_MEMORY_SIZE ≤ addr) (hlt : addr < USER_STACK_BOTTOM) :
    sysBrk addr fuel s = if s.freePages < idx (addr - task.brk) then .next (-1, s)
      else .next (0, s.setTask s.running { task with brk := addr }) := by
  have hrt : runningTask s = .next (task, s) := by
    unfold runningTask
    rw [ht]
  unfold sysBrk
  rw [assert_bind (decide_eq_true ha), bind_of_next hrt, assert_bind (decide_eq_true huid),
    assert_bind (by simp [hge, hlt]), if_neg (by omega), peek_bind]
  split_ifs
  · rfl
  · rw [bind_of_next hrt]
    rfl

/-- In every state reached `free_pages` is too large by the frames that `mapping_init` has
marked without counting them, and `sys_brk` grants that much more than can be had. -/
theorem free_pages_off (hmin : KERNEL_MEMORY_SIZE ≤ size) (hmax : size + MEMORY_BASE ≤ 2 ^ 32)
    (hrun : Run (Guarded (Called false) Step) (boot size garbage) as s) :
    s.freePages ≠ zeros s.memoryMap s.totalPages ∧
    s.freePages = zeros s.memoryMap s.totalPages + (4096 - s.startPage) ∧
    ∀ task addr fuel, s.tasks s.running = some task → task.uid ≠ KERNEL_USER → task.brk ≤ addr →
      addr % PAGE_SIZE = 0 → KERNEL_MEMORY_SIZE ≤ addr → addr < USER_STACK_BOTTOM →
      ((∃ t, sysBrk addr fuel s = .next (0, t)) ↔
        idx (addr - task.brk) ≤ zeros s.memoryMap s.totalPages + (4096 - s.startPage)) := by
  have hc := (run_inv (inv_boot garbage hmin hmax) hrun).layout.counts
  have hstart := hc.start
  have hfree := hc.free
  have heq : s.freePages = zeros s.memoryMap s.totalPages + (4096 - s.startPage) := by omega
  refine ⟨by omega, heq, fun task addr fuel ht huid hle ha hge hlt => ?_⟩
  rw [sysBrk_grow ht huid hle ha hge hlt, ← heq]
  split_ifs with hn
  · simp
    omega
  · simp
    omega

/-- A process with a page of its own, which is in the tables. -/
theorem free_pages_off_oneProcess : ∃ s, Run (Guarded (Called false) Step)
      (boot KERNEL_MEMORY_SIZE fun _ _ => zeroEntry)
      [.create 1, .dispatch 0, .toUser, .store 0x7fff000 (entryInit 7)] s ∧
    s.freePages = 4092 ∧ s.freePages ≠ zeros s.memoryMap s.totalPages := by
  obtain ⟨s, hs, hp⟩ := run_of_play (Called false) exec
    (boot KERNEL_MEMORY_SIZE fun _ _ => zeroEntry)
    [.create 1, .dispatch 0, .toUser, .store 0x7fff000 (entryInit 7)]
    (fun s => s.freePages == 4092) (by decide +kernel)
  exact ⟨s, hs, by simpa using hp, (free_pages_off (Nat.le_refl _) (by decide) hs).1⟩

/-- With 16 MB the boot code leaves 256 free frames and counts 4094. -/
theorem free_pages_boot : ¬ ∀ as s, Run (Guarded (Called false) Step)
      (boot KERNEL_MEMORY_SIZE fun _ _ => zeroEntry) as s →
    s.freePages = zeros s.memoryMap s.totalPages := by
  intro h
  have hc := (inv_boot (fun _ _ => zeroEntry) (Nat.le_refl _) (by decide)).layout.counts
  have heq := h [] _ Run.nil
  have hfree := hc.free
  have hstart := hc.start
  omega

end FreePages

section KernelPages

open Buffer (KERNEL_BUFFER_MEM KERNEL_BUFFER_SIZE)

/-- The other parts of the kernel call `alloc_kpage` and `free_kpage`, nothing else happens. -/
def KernelPage (_ : State) : Act → Prop
  | .kalloc _ | .kfree _ _ => True
  | _ => False

/-- `kernel_map` covers the memory from 1 MB to 16 MB. -/
def MapsKernel (map : BitmapT) : Prop := map.Fits ∧ map.offset = 256 ∧ map.length = 480

/-- `count` pages from page `i` on are free. -/
def FreeRun (map : BitmapT) (i count : ℕ) : Prop :=
  256 ≤ i ∧ i + count ≤ 4096 ∧ map.bits.Clear (i - 256) count

/-- Enough free pages in a row below the buffer cache, or none below its end. -/
def BelowBuffers (map : BitmapT) (count : ℕ) : Prop :=
  (∃ i, FreeRun map i count ∧ i + count ≤ idx KERNEL_BUFFER_MEM) ∨
    ∀ i < idx (KERNEL_BUFFER_MEM + KERNEL_BUFFER_SIZE), ¬ FreeRun map i count

/-- `count` pages at `vaddr` have nothing in common with the memory of the buffer cache. -/
def Outside (vaddr count : ℕ) : Prop :=
  vaddr + count * PAGE_SIZE ≤ KERNEL_BUFFER_MEM ∨ KERNEL_BUFFER_MEM + KERNEL_BUFFER_SIZE ≤ vaddr

/-- `alloc_kpage` takes the first pages in a row that are free. -/
theorem allocKpage_first (hm : MapsKernel s.kernelMap) (hc : 0 < count)
    (h : allocKpage count s = .next (vaddr, s')) : MapsKernel s'.kernelMap ∧
    ∃ i, FreeRun s.kernelMap i count ∧ vaddr = i * PAGE_SIZE ∧ ∀ j < i, ¬ FreeRun s.kernelMap j count := by
  obtain ⟨hfits, hoff, hlen⟩ := hm
  unfold allocKpage at h
  rw [assert_bind (decide_eq_true hc), peek_bind] at h
  dsimp only [id] at h
  rcases bitmapScan_spec hfits hc with ⟨b, bits, hrun, he, -⟩ | ⟨-, he⟩
  · have hle := hrun.le
    rw [hlen] at hle
    rw [lift_bind he, if_neg (by unfold EOF; omega), poke_bind, pure_apply] at h
    obtain ⟨rfl, rfl⟩ := Prod.mk.inj (next.inj h)
    refine ⟨⟨⟨hfits.size, hfits.index⟩, hoff, hlen⟩, b + 256, ⟨by omega, by omega, ?_⟩, ?_, ?_⟩
    · rw [Nat.add_sub_cancel]
      exact hrun.clear
    · rw [hoff]
      exact pageAddr_eq (by omega)
    · rintro j hj ⟨hge, -, hclear⟩
      exact hrun.first (j - 256) (by omega) hclear
  · rw [lift_bind he, if_pos rfl] at h
    cases h

theorem freeKpage_maps (hm : MapsKernel s.kernelMap) {r : Unit × State}
    (h : freeKpage vaddr count s = .next r) : MapsKernel r.2.kernelMap := by
  obtain ⟨hfits, hoff, hlen⟩ := hm
  unfold freeKpage at h
  by_cases ha : vaddr % PAGE_SIZE = 0
  swap
  · rw [assert_bind_failed (decide_eq_false ha)] at h
    cases h
  by_cases hc : 0 < count
  swap
  · rw [assert_bind (decide_eq_true ha), assert_bind_failed (decide_eq_false hc)] at h
    cases h
  rw [assert_bind (decide_eq_true ha), assert_bind (decide_eq_true hc), peek_bind] at h
  cases hmap : resetPages (id s).kernelMap (idx vaddr) count 0 with
  | none =>
    rw [hmap] at h
    cases h
  | some map =>
    rw [lift_bind hmap, poke_apply] at h
    obtain rfl := next.inj h
    obtain ⟨hsize, hlength, hoffset, -⟩ := resetPages_spec _ _ _ hmap
    exact ⟨⟨by simpa [hsize, hlength] using hfits.size, by simpa [hlength, hoffset] using hfits.index⟩,
      hoffset.trans hoff, hlength.trans hlen⟩

theorem step_maps {a : Act} (hm : MapsKernel s.kernelMap) (hc : KernelPage s a) (h : Step s a s') :
    MapsKernel s'.kernelMap := by
  cases a with
  | kalloc count =>
    obtain ⟨⟨vaddr, t⟩, hr, h⟩ := andThen_eq_next.mp h
    obtain rfl := next.inj h
    obtain ⟨r, hpos, -⟩ := andThen_eq_next.mp hr
    obtain ⟨hpos, -⟩ := assert_eq_next.mp hpos
    exact (allocKpage_first hm (of_decide_eq_true hpos) hr).1
  | kfree vaddr count =>
    obtain ⟨r, hr, h⟩ := andThen_eq_next.mp h
    obtain rfl := next.inj h
    exact freeKpage_maps hm hr
  | _ => exact hc.elim

theorem maps_boot (hmin : KERNEL_MEMORY_SIZE ≤ size) (hmax : size + MEMORY_BASE ≤ 2 ^ 32) :
    MapsKernel (boot size garbage).kernelMap :=
  (inv_boot garbage hmin hmax).layout.map

/-- Whatever has been taken and freed, `alloc_kpage` returns pages outside the buffer cache
exactly where enough pages in a row are free below it, or none are below its end. -/
theorem kpage_outside (hmin : KERNEL_MEMORY_SIZE ≤ size) (hmax : size + MEMORY_BASE ≤ 2 ^ 32)
    (hrun : Run (Guarded KernelPage Step) (boot size garbage) as s)
    (h : allocKpage count s = .next (vaddr, s')) :
    Outside vaddr count ↔ BelowBuffers s.kernelMap count := by
  have hm : MapsKernel s.kernelMap :=
    hrun.invariant (I := fun s => MapsKernel s.kernelMap)
      (fun _ _ _ hm hs => step_maps hm hs.1 hs.2) (maps_boot hmin hmax)
  obtain ⟨r, hpos, -⟩ := andThen_eq_next.mp h
  obtain ⟨hpos, -⟩ := assert_eq_next.mp hpos
  obtain ⟨-, i, hfree, rfl, hfirst⟩ := allocKpage_first hm (of_decide_eq_true hpos) h
  have hlow : idx KERNEL_BUFFER_MEM = 2048 := by decide
  have hhigh : idx (KERNEL_BUFFER_MEM + KERNEL_BUFFER_SIZE) = 3072 := by decide
  have hout : Outside (i * PAGE_SIZE) count ↔ i + count ≤ 2048 ∨ 3072 ≤ i := by
    unfold Outside PAGE_SIZE KERNEL_BUFFER_MEM KERNEL_BUFFER_SIZE
    omega
  rw [hout, BelowBuffers, hlow, hhigh]
  constructor
  · rintro (hle | hge)
    · exact .inl ⟨i, hfree, hle⟩
    · exact .inr fun j hj => hfirst j (by omega)
  · rintro (⟨j, hj, hle⟩ | hnone)
    · left
      by_contra hlt
      exact hfirst j (by omega) hj
    · right
      by_contra hlt
      exact hnone i (by omega) hfree

instance (s : State) : DecidablePred (KernelPage s)
  | .kalloc _ | .kfree _ _ => .isTrue trivial
  | .create _ | .toUser | .dispatch _ | .fork | .link _ | .unlink _ | .load _ | .store _ _ |
    .brk _ _ => .isFalse id

/-- A page is taken again after it has been freed. -/
theorem kpage_outside_again : ∃ s s', Run (Guarded KernelPage Step)
      (boot KERNEL_MEMORY_SIZE fun _ _ => zeroEntry) [.kalloc 3, .kfree 0x103000 1] s ∧
    allocKpage 1 s = .next (0x103000, s') ∧ BelowBuffers s.kernelMap 1 := by
  obtain ⟨s, hs, hp⟩ := run_of_play KernelPage exec (boot KERNEL_MEMORY_SIZE fun _ _ => zeroEntry)
    [.kalloc 3, .kfree 0x103000 1] (fun s => (allocKpage 1 s).Ends fun r => r.1 == 0x103000)
    (by decide +kernel)
  obtain ⟨⟨vaddr, s'⟩, h, hv⟩ := ends_eq_true.mp hp
  obtain rfl : vaddr = 0x103000 := by simpa using hv
  have hout : Outside 0x103000 1 := .inl (by decide)
  exact ⟨s, s', hs, h, (kpage_outside (Nat.le_refl _) (by decide) hs h).mp hout⟩

/-- The first 1790 pages taken reach up to the buffer cache, the next is in it. -/
theorem kpage_in_buffers : ¬ ∀ as s, Run (Guarded KernelPage Step)
      (boot KERNEL_MEMORY_SIZE fun _ _ => zeroEntry) as s →
    ∀ count vaddr s', allocKpage count s = .next (vaddr, s') → Outside vaddr count := by
  intro h
  have hp : (allocKpage 1791 (boot KERNEL_MEMORY_SIZE fun _ _ => zeroEntry)).Ends
      (fun r => r.1 == 0x102000) = true := by decide +kernel
  obtain ⟨⟨vaddr, s'⟩, hr, hv⟩ := ends_eq_true.mp hp
  obtain rfl : vaddr = 0x102000 := by simpa using hv
  rcases h [] _ Run.nil 1791 0x102000 s' hr with hlow | hhigh
  · exact absurd hlow (by decide)
  · exact absurd hhigh (by decide)

end KernelPages

end Onix.Memory
