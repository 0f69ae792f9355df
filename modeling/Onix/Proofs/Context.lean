import Onix.Sanity.Frames

/-! Whatever the tasks do and in whatever order they are switched, a task that is switched to goes on
where it called `task_switch`, with its registers, its stack, its page directory and its entry from
user mode. -/

namespace Onix.Context

open Function X86

variable {l : Labels} {s t u s₁ : State} {a : Act} {as : List Act} {p q k : ℕ} {m m' : Bytes}

/-- The saved stack pointer of a task that is not running is on its stack. -/
def Sleeps (m : Bytes) (q : ℕ) : Prop := q + TaskT.size ≤ stackOf m q ∧ stackOf m q + 20 ≤ q + PAGE_SIZE

structure Inv (s : State) : Prop where
  kernel : s.cpu.cs = KERNEL_CODE_SELECTOR
  current : s.current ∈ s.tasks
  page : ∀ q ∈ s.tasks, PAGE_SIZE ∣ q ∧ q + PAGE_SIZE < 2 ^ 32
  stack : OnStack s.current s.cpu
  asleep : ∀ q ∈ s.tasks, q ≠ s.current → Sleeps s.cpu.mem q
  space : s.cr3 = s.cpu.mem.rdWord (s.current + TaskT.pde)
  entry : s.cpu.mem.rdWord (s.current + TaskT.uid) ≠ KERNEL_USER →
    s.esp0 = BitVec.ofNat 32 (s.current + PAGE_SIZE)

theorem apart_of_ne (hp : PAGE_SIZE ∣ p) (hq : PAGE_SIZE ∣ q) (h : p ≠ q) :
    p + PAGE_SIZE ≤ q ∨ q + PAGE_SIZE ≤ p := by
  obtain ⟨i, rfl⟩ := hp
  obtain ⟨j, rfl⟩ := hq
  unfold PAGE_SIZE at *
  omega

theorem Inv.apart (hi : Inv s) (hp : p ∈ s.tasks) (hq : q ∈ s.tasks) (h : p ≠ q) :
    p + PAGE_SIZE ≤ q ∨ q + PAGE_SIZE ≤ p :=
  apart_of_ne (hi.page p hp).1 (hi.page q hq).1 h

/-- The page of the task `q` is left as it is. -/
def SamePage (m m' : Bytes) (q : ℕ) : Prop := ∀ k, q ≤ k → k < q + PAGE_SIZE → m' k = m k

theorem SamePage.field {o : ℕ} (h : SamePage m m' q) (ho : o + 4 ≤ PAGE_SIZE) :
    m'.rdWord (q + o) = m.rdWord (q + o) :=
  Bytes.rdWord_congr fun k h₁ h₂ => h k (by omega) (by omega)

theorem SamePage.stackOf (h : SamePage m m' q) : stackOf m' q = stackOf m q := by
  unfold Context.stackOf
  rw [h.field (by decide)]

theorem SamePage.kept (h : SamePage m m' q) (hs : q ≤ Context.stackOf m q) : Kept m m' q where
  stack := h.stackOf
  above k h₁ h₂ := h k (by omega) h₂

theorem Kept.sleeps (h : Kept m m' q) (hs : Sleeps m q) : Sleeps m' q := by
  unfold Sleeps
  rw [h.stack]
  exact hs

/-- A step other than the switch to the task and its end leaves it asleep with its stack. -/
structure Stays (p : ℕ) (s t : State) : Prop where
  mem : p ∈ t.tasks
  ne : p ≠ t.current
  kept : Kept s.cpu.mem t.cpu.mem p

theorem Stays.trans (h : Stays p s t) (h' : Stays p t u) : Stays p s u where
  mem := h'.mem
  ne := h'.ne
  kept := ⟨h'.kept.stack.trans h.kept.stack, fun k h₁ h₂ =>
    (h'.kept.above k (by rw [h.kept.stack]; exact h₁) h₂).trans (h.kept.above k h₁ h₂)⟩

/-- What `task_switch` stores is in the page of the task that calls it. -/
theorem switch_samePage (hi : Inv s) (hq : q ∈ s.tasks) (hne : q ≠ s.current)
    (hroom : s.current + TaskT.size + 16 ≤ s.cpu.sp ∧ s.cpu.sp + 8 ≤ s.current + PAGE_SIZE) :
    SamePage s.cpu.mem (s.cpu.exec saveStack).mem q := by
  have hs := saveStack_saved (hi.page _ hi.current).1 hroom.1 hroom.2
  intro k h₁ h₂
  rcases hi.apart hq hi.current hne with h | h
  · unfold TaskT.size PAGE_SIZE at *
    exact hs.off k (by omega) (by omega)
  · unfold PAGE_SIZE at *
    by_cases hk : s.cpu.sp ≤ k
    · exact hs.above k hk
    · omega

/-- The words on the stack of a task that is not running. -/
def frameOf (m : Bytes) (q : ℕ) : TaskFrame where
  edi := m.rdWord (stackOf m q)
  esi := m.rdWord (stackOf m q + 4)
  ebx := m.rdWord (stackOf m q + 8)
  ebp := m.rdWord (stackOf m q + 12)
  eip := m.rdWord (stackOf m q + 16)

theorem frameOf_words (m : Bytes) (q : ℕ) : m.Words (stackOf m q) (frameOf m q).words :=
  ⟨rfl, rfl, rfl, rfl, rfl, trivial⟩

theorem switch_restored {next : ℕ} {back : BitVec 32} (hi : Inv s) (hn : next ∈ s.tasks)
    (hne : next ≠ s.current)
    (hargs : s.cpu.Holds [back, BitVec.ofNat 32 next])
    (hroom : s.current + TaskT.size + 16 ≤ s.cpu.sp ∧ s.cpu.sp + 8 ≤ s.current + PAGE_SIZE) :
    Restored (frameOf s.cpu.mem next) (stackOf s.cpu.mem next) (s.cpu.exec taskSwitch) ∧
      (s.cpu.exec taskSwitch).mem = (s.cpu.exec saveStack).mem :=
  exec_taskSwitch (hi.page _ hi.current).1 hroom.1 hroom.2 (hi.page _ hi.current).2 hargs (hi.page _ hn).2
    (hi.apart hn hi.current hne) (frameOf_words _ _) (hi.asleep _ hn hne)

/-- A new page is apart from those of the tasks. -/
theorem NewPage.samePage (hi : Inv s) (h : NewPage s p) (hq : q ∈ s.tasks)
    (hm : ∀ k, k < p ∨ p + PAGE_SIZE ≤ k → m k = s.cpu.mem k) : SamePage s.cpu.mem m q := by
  have hne : q ≠ p := fun hc => h.fresh (hc ▸ hq)
  have := apart_of_ne (hi.page q hq).1 h.aligned hne
  exact fun k h₁ h₂ => hm k (by omega)

theorem Inv.le_stackOf (hi : Inv s) (hq : q ∈ s.tasks) (hne : q ≠ s.current) : q ≤ stackOf s.cpu.mem q := by
  have := (hi.asleep q hq hne).1
  omega

theorem Step.stays (hi : Inv s) (h : Step l s a t) (hp : p ∈ s.tasks) (hne : p ≠ s.current)
    (hs : a ≠ .switch p)
    (hr : a ≠ .reap p) : Stays p s t := by
  have hle := hi.le_stackOf hp hne
  cases h with
  | code h => exact ⟨hp, hne, h.kept p hp hne⟩
  | switch hn hnc _ hargs hroom =>
    have hmem := (switch_restored hi hn hnc hargs hroom).2
    refine ⟨hp, fun hc => hs (by rw [hc]), SamePage.kept ?_ hle⟩
    intro k h₁ h₂
    exact (congrFun hmem k).trans (switch_samePage hi hp hne hroom k h₁ h₂)
  | create hnew hname =>
    exact ⟨Finset.mem_insert_of_mem hp, hne, (hnew.samePage hi hp fun k => taskCreate_off hname).kept hle⟩
  | fork hnew =>
    exact ⟨Finset.mem_insert_of_mem hp, hne, (hnew.samePage hi hp fun k => taskFork_off).kept hle⟩
  | map =>
    have happ := hi.apart hp hi.current hne
    refine ⟨hp, hne, SamePage.kept (fun k h₁ h₂ => storeFields_apply ?_) hle⟩
    simp only [List.mem_singleton, forall_eq]
    unfold TaskT.pde PAGE_SIZE at *
    omega
  | reap hc =>
    have hpe : p ≠ _ := fun hc => hr (by rw [hc])
    exact ⟨Finset.mem_erase.mpr ⟨hpe, hp⟩, hne, rfl, fun _ _ _ => rfl⟩

theorem taskCreate_stack {a : Creation} (hq : q + PAGE_SIZE < 2 ^ 32) :
    stackOf (taskCreate m q a) q = q + PAGE_SIZE - 20 := by
  unfold stackOf
  rw [taskCreate_field List.mem_cons_self, BitVec.toNat_ofNat, Nat.mod_eq_of_lt (by omega)]

/-- The invariant where the running task and its page stay as they are. -/
theorem Inv.of_samePage (hi : Inv s) (hcs : t.cpu.cs = s.cpu.cs) (hc : t.current = s.current)
    (hsp : t.cpu.sp = s.cpu.sp) (hcr : t.cr3 = s.cr3)
    (hesp : t.esp0 = s.esp0) (hmem : s.current ∈ t.tasks)
    (hpage : ∀ q ∈ t.tasks, PAGE_SIZE ∣ q ∧ q + PAGE_SIZE < 2 ^ 32)
    (hasleep : ∀ q ∈ t.tasks, q ≠ s.current → Sleeps t.cpu.mem q)
    (hsame : SamePage s.cpu.mem t.cpu.mem s.current) : Inv t where
  kernel := hcs.trans hi.kernel
  current := by rw [hc]; exact hmem
  page := hpage
  stack := by
    unfold OnStack
    rw [hc, hsp]
    exact hi.stack
  asleep q hq hne := hasleep q hq (hc ▸ hne)
  space := by rw [hc, hcr, hsame.field (by decide), hi.space]
  entry h := by
    rw [hc, hsame.field (by decide)] at h
    rw [hc, hesp, hi.entry h]

theorem NewPage.inv (hi : Inv s) (h : NewPage s p) (hm : ∀ k, k < p ∨ p + PAGE_SIZE ≤ k → m k = s.cpu.mem k)
    (hs : Sleeps m p) : Inv { s with cpu := { s.cpu with mem := m }, tasks := insert p s.tasks } := by
  refine hi.of_samePage rfl rfl rfl rfl rfl (Finset.mem_insert_of_mem hi.current)
    (fun q hq => ?_) (fun q hq hne => ?_)
    (h.samePage hi hi.current hm)
  · rcases Finset.mem_insert.mp hq with rfl | hq
    · exact ⟨h.aligned, h.bound⟩
    · exact hi.page q hq
  · rcases Finset.mem_insert.mp hq with rfl | hq
    · exact hs
    · exact ((h.samePage hi hq hm).kept (hi.le_stackOf hq hne)).sleeps (hi.asleep q hq hne)

theorem Step.inv (hi : Inv s) (h : Step l s a t) : Inv t := by
  cases h with
  | code h =>
    refine ⟨h.cs, hi.current, hi.page, h.stack, fun q hq hne =>
      (h.kept q hq hne).sleeps (hi.asleep q hq hne), ?_, fun hu => ?_⟩
    · exact hi.space.trans (h.same _ hi.current _ (by decide)).symm
    · exact hi.entry (by rwa [h.same _ hi.current _ (by decide)] at hu)
  | @switch next _ hn hne hmagic hargs hroom =>
    obtain ⟨hres, hmem⟩ := switch_restored hi hn hne hargs hroom
    have hnext := hi.asleep _ hn hne
    have hsame : SamePage s.cpu.mem (s.cpu.exec taskSwitch).mem next := fun k h₁ h₂ =>
      (congrFun hmem k).trans (switch_samePage hi hn hne hroom k h₁ h₂)
    refine ⟨(exec_cs (by decide)).trans hi.kernel, hn, hi.page, ?_, fun q hq hqn => ?_, ?_, fun hu => ?_⟩
    · have hsp := hres.sp
      unfold Sleeps at hnext
      unfold OnStack
      dsimp only
      omega
    · by_cases hqc : q = s.current
      · subst hqc
        have hs := saveStack_saved (hi.page _ hi.current).1 hroom.1 hroom.2
        have hst : stackOf (s.cpu.exec taskSwitch).mem s.current = s.cpu.sp - 16 := by
          rw [hmem]
          exact hs.stack
        unfold Sleeps
        dsimp only
        omega
      · exact (SamePage.kept (fun k h₁ h₂ =>
        (congrFun hmem k).trans (switch_samePage hi hq hqc hroom k h₁ h₂))
          (hi.le_stackOf hq hqc)).sleeps (hi.asleep q hq hqc)
    · dsimp only [State.activate]
      rw [hsame.field (by decide)]
      split_ifs with hcr
      · rfl
      · exact (not_not.mp hcr).symm
    · dsimp only [State.activate] at hu ⊢
      rw [hsame.field (by decide)] at hu
      rw [if_pos hu]
  | @create task a hnew hname =>
    refine hnew.inv hi (fun k => taskCreate_off hname) ?_
    have hb := hnew.bound
    unfold Sleeps
    rw [taskCreate_stack hb]
    unfold TaskT.size PAGE_SIZE
    omega
  | @fork child a hnew =>
    refine hnew.inv hi (fun k => taskFork_off) ?_
    have hb := hnew.bound
    unfold Sleeps
    rw [taskFork_stack hb]
    unfold TaskT.size PAGE_SIZE
    omega
  | @map pde =>
    have hfield : (storeFields s.cpu.mem s.current [(TaskT.pde, pde)]).rdWord (s.current + TaskT.uid) =
        s.cpu.mem.rdWord (s.current + TaskT.uid) := storeFields_rdWord (by simp [TaskT.pde, TaskT.uid])
    have hstays : ∀ q ∈ s.tasks, q ≠ s.current →
      Sleeps (storeFields s.cpu.mem s.current [(TaskT.pde, pde)]) q :=
      fun q hq hne => (Step.stays hi (Step.map (l := l)) hq hne (by simp) (by simp)).kept.sleeps
        (hi.asleep q hq hne)
    refine ⟨hi.kernel, hi.current, hi.page, hi.stack, hstays, ?_, fun hu => ?_⟩
    · exact (storeFields_get List.mem_cons_self (List.pairwise_singleton _ _)).symm
    · exact hi.entry (by rwa [hfield] at hu)
  | @reap task hc =>
    exact hi.of_samePage rfl rfl rfl rfl rfl (Finset.mem_erase.mpr ⟨hc.symm, hi.current⟩)
      (fun q hq => hi.page q (Finset.mem_of_mem_erase hq))
      (fun q hq hne => hi.asleep q (Finset.mem_of_mem_erase hq) hne) fun _ _ _ => rfl

theorem run_inv (hi : Inv s) (h : Run (Step l) s as t) : Inv t :=
  h.invariant (fun _ _ _ hi h => h.inv hi) hi

/-- Runs in which the task `p` is neither switched to nor reaped. -/
theorem run_stays (hi : Inv s) (h : Run (Step l) s as t) (hp : p ∈ s.tasks) (hne : p ≠ s.current)
    (has : ∀ a ∈ as, a ≠ .switch p ∧ a ≠ .reap p) : Stays p s t := by
  induction h with
  | nil => exact ⟨hp, hne, rfl, fun _ _ _ => rfl⟩
  | @snoc as t u a hr hl ih =>
    have hst := ih fun b hb => has b (List.mem_append_left _ hb)
    obtain ⟨hs, hre⟩ := has a (List.mem_append_right _ (List.mem_singleton.mpr rfl))
    exact hst.trans (hl.stays (run_inv hi hr) hst.mem hst.ne hs hre)

/-- The task `p` goes on in `u` where it called `task_switch` in `s`. -/
structure Resumed (p : ℕ) (s u : Cpu) : Prop where
  eip : u.eip = s.top
  sp : u.sp = s.sp + 4
  reg : ∀ r ∈ [Reg.ebx, .esi, .edi, .ebp], u.reg r = s.reg r
  stack : ∀ k, s.sp ≤ k → k < p + PAGE_SIZE → u.mem k = s.mem k

/-- A task that called `task_switch` and was switched to again, whatever came in between, goes on as if
the call had returned, in its page directory and, a user process, with its own stack for the next entry
from user mode. -/
theorem switch_resumes (hi : Inv s) (h₀ : Step l s (.switch q) s₁) (hrun : Run (Step l) s₁ as t)
    (hno : ∀ a ∈ as, a ≠ .switch s.current ∧ a ≠ .reap s.current) (hback : Step l t (.switch s.current) u) :
    Resumed s.current s.cpu u.cpu ∧ u.cr3 = u.cpu.mem.rdWord (s.current + TaskT.pde) ∧
      (u.cpu.mem.rdWord (s.current + TaskT.uid) ≠ KERNEL_USER →
        u.esp0 = BitVec.ofNat 32 (s.current + PAGE_SIZE)) := by
  have hi₁ := h₀.inv hi
  have hit := run_inv hi₁ hrun
  have hiu := hback.inv hit
  generalize hp : s.current = p at hno hback ⊢
  cases h₀ with
  | @switch _ back hn hne _ hargs hroom =>
  rw [hp] at hroom
  have hsaved := saveStack_saved (by rw [← hp]; exact (hi.page _ hi.current).1) hroom.1 hroom.2
  have hmem := (switch_restored hi hn hne hargs (by rw [hp]; exact hroom)).2
  -- what is on the stack of the task when it is left
  have hstack₁ : stackOf (s.cpu.exec taskSwitch).mem p = s.cpu.sp - 16 := by rw [hmem]; exact hsaved.stack
  have hwords₁ : (s.cpu.exec taskSwitch).mem.Words (s.cpu.sp - 16)
      [s.cpu.reg .edi, s.cpu.reg .esi, s.cpu.reg .ebx, s.cpu.reg .ebp, s.cpu.top] := by
    rw [hmem]
    have htop : (s.cpu.exec saveStack).mem.rdWord s.cpu.sp = s.cpu.top :=
      Bytes.rdWord_congr fun k h₁ h₂ => hsaved.above k h₁
    have happ : (s.cpu.exec saveStack).mem.Words (s.cpu.sp - 16)
        ([s.cpu.reg .edi, s.cpu.reg .esi, s.cpu.reg .ebx, s.cpu.reg .ebp] ++ [s.cpu.top]) ↔ _ :=
          Bytes.Words.append
    refine happ.mpr ⟨hsaved.words, ?_, trivial⟩
    have hsp : s.cpu.sp - 16 + 4 * 4 = s.cpu.sp := by omega
    exact (congrArg _ hsp).trans htop
  -- it stays there until the task is switched to
  have hstays := run_stays hi₁ hrun (p := p) (hp ▸ hi.current) (by rw [← hp]; exact hne.symm) hno
  have hkept := hstays.kept
  cases hback with
  | switch hn' hne' _ hargs' hroom' =>
  obtain ⟨hres, hmem'⟩ := switch_restored hit hn' hne' hargs' hroom'
  have hsp : stackOf t.cpu.mem p = s.cpu.sp - 16 := hkept.stack.trans hstack₁
  have hwords : t.cpu.mem.Words (s.cpu.sp - 16)
      [s.cpu.reg .edi, s.cpu.reg .esi, s.cpu.reg .ebx, s.cpu.reg .ebp, s.cpu.top] :=
    hwords₁.congr fun k h₁ h₂ => hkept.above k (by dsimp only; omega) (by simp at h₂; unfold PAGE_SIZE at *; omega)
  have hframe : frameOf t.cpu.mem p =
      ⟨s.cpu.reg .edi, s.cpu.reg .esi, s.cpu.reg .ebx, s.cpu.reg .ebp, s.cpu.top⟩ := by
    obtain ⟨h₁, h₂, h₃, h₄, h₅, -⟩ := hwords
    unfold frameOf
    rw [hsp, h₁, h₂, h₃, h₄, h₅]
  rw [hframe, hsp] at hres
  refine ⟨?_, hiu.space, hiu.entry⟩
  refine ⟨hres.eip, by have := hres.sp; dsimp only; omega, fun r hr => ?_, fun k h₁ h₂ => ?_⟩
  · fin_cases hr
    · exact hres.ebx
    · exact hres.esi
    · exact hres.edi
    · exact hres.ebp
  · have hsame := switch_samePage hit hn' hne' hroom' k (by have := hit.le_stackOf hn' hne'; omega) h₂
    calc (t.cpu.exec taskSwitch).mem k
        = t.cpu.mem k := (congrFun hmem' k).trans hsame
      _ = (s.cpu.exec taskSwitch).mem k := hkept.above k (by dsimp only; omega) h₂
      _ = s.cpu.mem k := (congrFun hmem k).trans (hsaved.above k h₁)

/-! Two tasks, the user process at `0x1000` about to switch to the other. -/

def pairMem : Bytes := storeFields (fun _ => 0) 0
  [(0x1000 + TaskT.uid, 1000), (0x1000 + TaskT.pde, 0x9000), (0x1000 + TaskT.magic, ONIX_MAGIC),
   (0x2000 + TaskT.stack, 0x2f00), (0x2000 + TaskT.pde, 0x8000), (0x2000 + TaskT.magic, ONIX_MAGIC),
   (0x2f10, 0x5000), (0x1f00, 0x4000), (0x1f04, 0x2000)]

def pair : State where
  cpu := { reg := fun r => if r = .esp then 0x1f00 else 7, seg := fun _ => KERNEL_DATA_SELECTOR,
           cs := KERNEL_CODE_SELECTOR, ss := KERNEL_DATA_SELECTOR, eflags := 2, eip := 0, mem := pairMem }
  current := 0x1000
  tasks := {0x1000, 0x2000}
  esp0 := 0x2000
  cr3 := 0x9000

theorem pair_tasks (h : q ∈ pair.tasks) : q = 0x1000 ∨ q = 0x2000 := by
  have : q ∈ ({0x1000, 0x2000} : Finset ℕ) := h
  simpa using this

theorem pair_inv : Inv pair where
  kernel := rfl
  current := by decide
  page := by decide
  stack := ⟨by decide, by decide⟩
  asleep q hq hne := by
    obtain rfl := (pair_tasks hq).resolve_left hne
    exact ⟨by decide, by decide⟩
  space := by decide
  entry _ := rfl

/-- The other task runs. -/
def pairAway : State := { pair.activate 0x2000 with cpu := pair.cpu.exec taskSwitch, current := 0x2000 }

/-- It has called `task_switch` in its turn. -/
def pairCall : State := { pairAway with
  cpu := { pairAway.cpu with
    reg := update pairAway.cpu.reg .esp 0x2e00
    mem := storeFields pairAway.cpu.mem 0 [(0x2e00, 0x6000), (0x2e04, 0x1000)] } }

def pairBack : State :=
  { pairCall.activate 0x1000 with cpu := pairCall.cpu.exec taskSwitch, current := 0x1000 }

theorem pair_away (l : Labels) : Step l pair (.switch 0x2000) pairAway :=
  have hargs : pair.cpu.Holds [0x4000, BitVec.ofNat 32 0x2000] := ⟨by decide, by decide, trivial⟩
  .switch (by decide) (by decide) (by decide) hargs ⟨by decide, by decide⟩

theorem pair_call (l : Labels) : Step l pairAway .code pairCall := by
  have hsame : ∀ k < 0x2e00, pairCall.cpu.mem k = pairAway.cpu.mem k := fun k hk =>
    storeFields_apply (by simp; omega)
  refine .code ⟨rfl, ⟨by decide, by decide⟩, fun q hmem hne => ?_, fun q hmem f hf => ?_⟩
  · obtain rfl := (pair_tasks hmem).resolve_right hne
    refine SamePage.kept (fun k h₁ h₂ => hsame k ?_) (by decide)
    unfold PAGE_SIZE at h₂
    omega
  · refine Bytes.rdWord_congr fun k h₁ h₂ => hsame k ?_
    have hf' : f ≤ 160 := by
      fin_cases hf <;> decide
    have := pair_tasks hmem
    omega

theorem pair_back (l : Labels) : Step l pairCall (.switch 0x1000) pairBack :=
  have hargs : pairCall.cpu.Holds [0x6000, BitVec.ofNat 32 0x1000] := ⟨by decide, by decide, trivial⟩
  .switch (by decide) (by decide) (by decide) hargs ⟨by decide, by decide⟩

theorem switch_resumes_pair : Resumed 0x1000 pair.cpu pairBack.cpu ∧
    pairBack.cr3 = pairBack.cpu.mem.rdWord (0x1000 + TaskT.pde) ∧
    (pairBack.cpu.mem.rdWord (0x1000 + TaskT.uid) ≠ KERNEL_USER →
      pairBack.esp0 = BitVec.ofNat 32 (0x1000 + PAGE_SIZE)) :=
  switch_resumes pair_inv (pair_away ⟨0, 0⟩) (.single (pair_call ⟨0, 0⟩)) (by simp) (pair_back ⟨0, 0⟩)

end Onix.Context
