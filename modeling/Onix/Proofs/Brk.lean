import Onix.Proofs.Pages

/-! `sys_brk` below the old break: its loop does not get on. -/

namespace Onix.Memory

open Function Code Outcome

variable {s t : State} {task : TaskT} {brk page oldBrk fuel : ℕ} {r : ℤ}

/-- The frame of page `i` under a directory. -/
def State.frameOf (s : State) (pde i : ℕ) : Option ℕ :=
  (s.lookup pde (pageAddr i)).map fun e => e.2.index.toNat

/-- The pages from `brk` to the old break have been unmapped and their frames put back, once
for each page, and `sys_brk` has returned 0. -/
structure Shrunk (s : State) (task : TaskT) (brk : ℕ) (r : ℤ) (t : State) : Prop where
  ret : r = 0
  setBrk : ∃ u, t.tasks s.running = some u ∧ u.brk = brk
  gone : ∀ i, brk ≤ pageAddr i → pageAddr i < task.brk → t.frameOf task.pde i = none
  kept : ∀ pde vaddr, vaddr < 2 ^ 32 → ¬ (pde = task.pde ∧ brk ≤ vaddr ∧ vaddr < task.brk) →
    t.lookup pde vaddr = s.lookup pde vaddr
  once : ∀ f, t.memoryMap f = s.memoryMap f -
    (List.range' (idx brk) (idx task.brk - idx brk)).countP fun i => s.frameOf task.pde i = some f

/-- `sys_brk(brk)` returns, and where it lowers the break it shrinks the heap. -/
def Served (s : State) (task : TaskT) (brk : ℕ) : Prop :=
  ∃ fuel r t, sysBrk brk fuel s = .next (r, t) ∧ (brk < task.brk → Shrunk s task brk r t)

/-- The loop is not left where it is entered. -/
theorem brkLoop_spins (h : page < oldBrk) (r : Unit × State) : brkLoop page oldBrk fuel s ≠ .next r := by
  induction fuel generalizing s with
  | zero => exact fun he => by cases he
  | succ fuel ih =>
    intro he
    rw [brkLoop, if_pos h] at he
    obtain ⟨u, -, hrest⟩ := andThen_eq_next.mp he
    exact ih hrest

theorem sysBrk_shrink (ht : s.tasks s.running = some task) (hlt : brk < task.brk) (r : ℤ × State) :
    sysBrk brk fuel s ≠ .next r := by
  intro he
  have hrt : runningTask s = .next (task, s) := by
    unfold runningTask
    rw [ht]
  obtain ⟨u, hu, h₁⟩ := andThen_eq_next.mp he
  obtain ⟨-, hu⟩ := assert_eq_next.mp hu
  obtain rfl := next.inj hu
  obtain ⟨v, hv, h₂⟩ := andThen_eq_next.mp h₁
  obtain rfl : (task, s) = v := next.inj (hrt.symm.trans hv)
  obtain ⟨w, hw, h₃⟩ := andThen_eq_next.mp h₂
  obtain ⟨-, hw⟩ := assert_eq_next.mp hw
  obtain rfl := next.inj hw
  obtain ⟨x, hx, h₄⟩ := andThen_eq_next.mp h₃
  obtain ⟨-, hx⟩ := assert_eq_next.mp hx
  obtain rfl := next.inj hx
  dsimp only at h₄
  rw [if_pos hlt] at h₄
  obtain ⟨y, hy, -⟩ := andThen_eq_next.mp h₄
  exact brkLoop_spins hlt y hy

/-- `sys_brk` of a user process does what it should exactly where it does not lower the break. -/
theorem sysBrk_served (ht : s.tasks s.running = some task) (huid : task.uid ≠ KERNEL_USER)
    (ha : brk % PAGE_SIZE = 0) (hge : KERNEL_MEMORY_SIZE ≤ brk) (hlt : brk < USER_STACK_BOTTOM) :
    Served s task brk ↔ task.brk ≤ brk := by
  constructor
  · intro ⟨fuel, r, t, hr, _⟩
    apply Nat.le_of_not_lt
    intro hlow
    exact sysBrk_shrink ht hlow (r, t) hr
  · intro hle
    have hrun : sysBrk brk 0 s = if s.freePages < idx (brk - task.brk) then .next (-1, s)
        else .next (0, s.setTask s.running { task with brk := brk }) :=
      sysBrk_grow ht huid hle ha hge hlt
    have hno : ¬ brk < task.brk := Nat.not_lt.mpr hle
    split_ifs at hrun with hfree
    · exact ⟨0, _, _, hrun, fun h => absurd h hno⟩
    · exact ⟨0, _, _, hrun, fun h => absurd h hno⟩

/-- A process that has taken one page of heap. -/
theorem oneHeapPage : ∃ s task, Run (Guarded (Called false) Step)
      (boot KERNEL_MEMORY_SIZE fun _ _ => zeroEntry)
      [.create 1, .dispatch 0, .toUser, .brk 0x1001000 0] s ∧
    s.tasks s.running = some task ∧ task.uid = 1 ∧ task.brk = 0x1001000 := by
  obtain ⟨s, hs, hp⟩ := run_of_play (Called false) exec
    (boot KERNEL_MEMORY_SIZE fun _ _ => zeroEntry) [.create 1, .dispatch 0, .toUser, .brk 0x1001000 0]
    (fun s => (s.tasks s.running).any fun u => u.uid == 1 && u.brk == 0x1001000) (by decide +kernel)
  obtain ⟨task, ht, hfields⟩ := (Option.any_eq_true _ _).mp hp
  simp only [Bool.and_eq_true, beq_iff_eq] at hfields
  exact ⟨s, task, hs, ht, hfields⟩

/-- Asked for the break it has, `sys_brk` serves that process. -/
theorem sysBrk_served_oneHeapPage : ∃ s task, s.tasks s.running = some task ∧ task.uid = 1 ∧
    Served s task 0x1001000 := by
  obtain ⟨s, task, -, ht, huid, hbrk⟩ := oneHeapPage
  have hserved : Served s task 0x1001000 ↔ task.brk ≤ 0x1001000 :=
    sysBrk_served ht (by rw [huid]; decide) (by decide) (by decide) (by decide)
  exact ⟨s, task, ht, huid, hserved.mpr (Nat.le_of_eq hbrk)⟩

/-- It does not get its page back. -/
theorem sysBrk_never_shrinks : ¬ ∀ as s task brk, Run (Guarded (Called false) Step)
      (boot KERNEL_MEMORY_SIZE fun _ _ => zeroEntry) as s →
    s.tasks s.running = some task → task.uid ≠ KERNEL_USER → brk % PAGE_SIZE = 0 →
    KERNEL_MEMORY_SIZE ≤ brk → brk < USER_STACK_BOTTOM → Served s task brk := by
  intro h
  obtain ⟨s, task, hrun, ht, huid, hbrk⟩ := oneHeapPage
  obtain ⟨fuel, r, t, hr, -⟩ := h _ s task 0x1000000 hrun ht (by rw [huid]; decide) (by decide)
    (by decide) (by decide)
  exact sysBrk_shrink ht (by omega) (r, t) hr

end Onix.Memory
