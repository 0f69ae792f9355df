import Onix.Spec.Context

/-! What the code that builds frames leaves in memory, and what `task_switch` and
`interrupt_exit` make of it. -/

namespace Onix.Context

open Function X86

variable {m m' : Bytes} {s : Cpu} {f : TaskFrame} {p q i k : ℕ} {w : BitVec 32} {ws : List (BitVec 32)}
  {fields : List (ℕ × BitVec 32)}

/-- `storeFields` changes the words it stores to and no byte besides. -/
theorem storeFields_apply (h : ∀ f ∈ fields, k < p + f.1 ∨ p + f.1 + 4 ≤ k) :
    storeFields m p fields k = m k := by
  induction fields generalizing m with
  | nil => rfl
  | cons f fs ih =>
    have hs : storeFields m p (f :: fs) = storeFields (m.wrWord (p + f.1) f.2) p fs := rfl
    rw [hs, ih fun g hg => h g (List.mem_cons_of_mem f hg), Bytes.wrWord_apply_ne (h f List.mem_cons_self)]

theorem storeFields_rdWord (h : ∀ f ∈ fields, i + 4 ≤ p + f.1 ∨ p + f.1 + 4 ≤ i) :
    (storeFields m p fields).rdWord i = m.rdWord i :=
  Bytes.rdWord_congr fun k h₁ h₂ => storeFields_apply fun f hf => by
    have := h f hf
    omega

/-- A field reads as what was last stored to it. -/
theorem storeFields_get {o : ℕ} (h : (o, w) ∈ fields)
    (hnd : fields.Pairwise fun f g => f.1 + 4 ≤ g.1 ∨ g.1 + 4 ≤ f.1) :
    (storeFields m p fields).rdWord (p + o) = w := by
  induction fields generalizing m with
  | nil => exact absurd h List.not_mem_nil
  | cons f fs ih =>
    have hs : storeFields m p (f :: fs) = storeFields (m.wrWord (p + f.1) f.2) p fs := rfl
    obtain ⟨hf, hfs⟩ := List.pairwise_cons.mp hnd
    rw [hs]
    rcases List.mem_cons.mp h with rfl | hmem
    · rw [storeFields_rdWord fun g hg => by have := hf g hg; omega, Bytes.rdWord_wrWord]
    · exact ih hmem hfs

/-- The first part of `task_switch`, to the store of the stack pointer. -/
def saveStack : List Instr := taskSwitch.take 8

theorem taskSwitch_eq : taskSwitch =
    saveStack ++ [.load .eax .ebp 8, .load .esp .eax 0] ++
      [.pop .edi, .pop .esi, .pop .ebx, .pop .ebp, .ret] := rfl

theorem exec_append (code rest : List Instr) : s.exec (code ++ rest) = (s.exec code).exec rest :=
  List.foldl_append

/-- The mask of `running_task` and `task_switch` gives the page. -/
theorem and_page {a : BitVec 32} (hp : PAGE_SIZE ∣ p) (hlo : p ≤ a.toNat) (hhi : a.toNat < p + PAGE_SIZE) :
    (a &&& 0xfffff000#32).toNat = p := by
  obtain ⟨n, rfl⟩ := hp
  unfold PAGE_SIZE at hlo hhi ⊢
  have hbit : ∀ i < 32, (0xfffff000#32).getLsbD i = decide (12 ≤ i) := by decide
  have hmask : a &&& 0xfffff000#32 = (a >>> 12) <<< 12 := by
    apply BitVec.eq_of_getLsbD_eq
    intro i hi
    rw [BitVec.getLsbD_and, hbit i hi, BitVec.getLsbD_shiftLeft, BitVec.getLsbD_ushiftRight]
    by_cases h : 12 ≤ i
    · simp [h, hi]
    · simp [h, hi]
  rw [hmask, BitVec.toNat_shiftLeft, BitVec.toNat_ushiftRight, Nat.shiftLeft_eq, Nat.shiftRight_eq_div_pow]
  omega

/-- What `task_switch` has done when it has stored the stack pointer in the page `p`. -/
structure Saved (p : ℕ) (s t : Cpu) : Prop where
  esp : t.reg .esp = s.reg .esp - 16
  ebp : (t.reg .ebp).toNat = s.sp - 4
  stack : stackOf t.mem p = s.sp - 16
  above : ∀ k, s.sp ≤ k → t.mem k = s.mem k
  off : ∀ k, k < s.sp - 16 → (k < p ∨ p + 4 ≤ k) → t.mem k = s.mem k
  words : t.mem.Words (s.sp - 16) [s.reg .edi, s.reg .esi, s.reg .ebx, s.reg .ebp]

theorem saveStack_saved (hp : PAGE_SIZE ∣ p) (hlo : p + TaskT.size + 16 ≤ s.sp)
    (hhi : s.sp + 8 ≤ p + PAGE_SIZE) :
    Saved p s (s.exec saveStack) := by
  unfold TaskT.size PAGE_SIZE at *
  set u := s.pushes [s.reg .ebp, s.reg .ebx, s.reg .esi, s.reg .edi] with hu
  have hlen : 4 * [s.reg .ebp, s.reg .ebx, s.reg .esi, s.reg .edi].length = 16 := rfl
  have husp : u.sp = s.sp - 16 := Cpu.pushes_sp (by omega)
  have hesp : u.reg .esp = s.reg .esp - 4 - 4 - 4 - 4 := rfl
  have hto : (u.reg .esp).toNat = s.sp - 16 := husp
  have hpage : (u.reg .esp &&& 0xfffff000#32).toNat = p := and_page hp (by omega) (by unfold PAGE_SIZE; omega)
  have hmem : (s.exec saveStack).mem = u.mem.wrWord (u.reg .esp &&& 0xfffff000#32).toNat (u.reg .esp) := by
    simp [saveStack, taskSwitch, Cpu.step, Cpu.push, Cpu.set, hu, Cpu.pushes]
  rw [hpage] at hmem
  have hholds : u.mem.Words (s.sp - 16) [s.reg .edi, s.reg .esi, s.reg .ebx, s.reg .ebp] := by
    have hnil : s.Holds [] := trivial
    have h := hnil.pushes [s.reg .ebp, s.reg .ebx, s.reg .esi, s.reg .edi] (by omega)
    unfold Cpu.Holds at h
    rw [← hu, husp] at h
    exact h
  refine ⟨?_, ?_, ?_, fun k hk => ?_, fun k hk hkp => ?_, ?_⟩
  · have : (s.exec saveStack).reg .esp = s.reg .esp - 4 - 4 - 4 - 4 := rfl
    rw [this]
    bv_omega
  · have : (s.exec saveStack).reg .ebp = s.reg .esp - 4 := rfl
    rw [this]
    unfold Cpu.sp at *
    bv_omega
  · unfold stackOf
    rw [hmem, show p + TaskT.stack = p from rfl, Bytes.rdWord_wrWord]
    exact husp
  · rw [hmem, Bytes.wrWord_apply_ne (by omega), Cpu.pushes_mem_apply (by omega) (by omega)]
  · rw [hmem, Bytes.wrWord_apply_ne (by omega), Cpu.pushes_mem_apply (by omega) (by omega)]
  · rw [hmem]
    exact hholds.wrWord (by omega)

/-- What `task_switch` has restored where the stack at `a` holds the words of `f`. -/
structure Restored (f : TaskFrame) (a : ℕ) (t : Cpu) : Prop where
  edi : t.reg .edi = f.edi
  esi : t.reg .esi = f.esi
  ebx : t.reg .ebx = f.ebx
  ebp : t.reg .ebp = f.ebp
  eip : t.eip = f.eip
  sp : t.sp = a + 20

/-- `task_switch(next)` saves the registers on the one stack and takes them from the other. -/
theorem exec_taskSwitch {next : ℕ} {back : BitVec 32} (hp : PAGE_SIZE ∣ p) (hlo : p + TaskT.size + 16 ≤ s.sp)
    (hhi : s.sp + 8 ≤ p + PAGE_SIZE) (hbound : p + PAGE_SIZE < 2 ^ 32)
    (hargs : s.Holds [back, BitVec.ofNat 32 next])
    (hnext : next + PAGE_SIZE < 2 ^ 32) (hoff : next + PAGE_SIZE ≤ p ∨ p + PAGE_SIZE ≤ next)
    (hf : s.mem.Words (stackOf s.mem next) f.words)
    (hin : next + TaskT.size ≤ stackOf s.mem next ∧ stackOf s.mem next + 20 ≤ next + PAGE_SIZE) :
    Restored f (stackOf s.mem next) (s.exec taskSwitch) ∧
      ((s.exec taskSwitch).mem = (s.exec saveStack).mem) := by
  have hs := saveStack_saved hp hlo hhi
  unfold TaskT.size PAGE_SIZE at *
  set u := s.exec saveStack with hu
  have hkept : ∀ k, next ≤ k → k < next + 4096 → u.mem k = s.mem k := fun k h₁ h₂ => by
    by_cases hk : s.sp ≤ k
    · exact hs.above k hk
    · exact hs.off k (by omega) (by omega)
  have hstack : stackOf u.mem next = stackOf s.mem next := by
    unfold stackOf TaskT.stack
    rw [Bytes.rdWord_congr fun k h₁ h₂ => hkept k (by omega) (by omega)]
  -- the argument of the call is above what `task_switch` pushed
  have harg : u.mem.rdWord (u.reg .ebp + 8).toNat = BitVec.ofNat 32 next := by
    have hebp := hs.ebp
    have haddr : (u.reg .ebp + 8).toNat = s.sp + 4 := by
      unfold Cpu.sp at *
      bv_omega
    rw [haddr, Bytes.rdWord_congr fun k h₁ h₂ => hs.above k (by omega)]
    exact hargs.2.1
  set v := u.exec [.load .eax .ebp 8, .load .esp .eax 0] with hv
  have hvmem : v.mem = u.mem := rfl
  have hvsp : v.sp = stackOf s.mem next := by
    have hesp : v.reg .esp = u.mem.rdWord (u.mem.rdWord (u.reg .ebp + 8).toNat + 0).toNat := by
      simp [hv, Cpu.step, Cpu.set]
    unfold Cpu.sp
    have haddr : (BitVec.ofNat 32 next + 0).toNat = next := by
      simp only [BitVec.ofNat_eq_ofNat, BitVec.add_zero, BitVec.toNat_ofNat]
      omega
    rw [hesp, harg, haddr, ← hstack]
    rfl
  let g : Reg → BitVec 32 := fun r => match r with
    | .edi => f.edi | .esi => f.esi | .ebx => f.ebx | _ => f.ebp
  have hvh : v.Holds ([Reg.edi, .esi, .ebx, .ebp].map g ++ [f.eip]) := by
    unfold Cpu.Holds
    rw [hvsp, hvmem]
    refine hf.congr fun k h₁ h₂ => hkept k (by omega) ?_
    have hlen : f.words.length = 5 := rfl
    rw [hlen] at h₂
    omega
  have hlen : [Reg.edi, .esi, .ebx, .ebp].length = 4 := rfl
  obtain ⟨hpop, hold⟩ := Cpu.Holds.pops hvh (by rw [hvsp, hlen]; omega) (by decide) (by decide)
  have hfin : s.exec taskSwitch = (v.pops [.edi, .esi, .ebx, .ebp]).step .ret := by
    rw [taskSwitch_eq, exec_append, exec_append]
    rfl
  have hsp : (v.pops [.edi, .esi, .ebx, .ebp]).sp = stackOf s.mem next + 16 := by
    rw [hpop.sp, hvsp, hlen]
  have hreg : ∀ r ∈ [Reg.edi, .esi, .ebx, .ebp], (s.exec taskSwitch).reg r = g r := fun r hr => by
    rw [hfin, Cpu.ret_reg_ne (fun hc => by subst hc; exact absurd hr (by decide))]
    exact hpop.mem_reg r hr
  refine ⟨⟨hreg .edi (by decide), hreg .esi (by decide), hreg .ebx (by decide), hreg .ebp (by decide), ?_,
    ?_⟩, ?_⟩
  · rw [hfin]
    exact hold.ret
  · rw [hfin, Cpu.ret_sp (by omega), hsp]
  · rw [hfin, Cpu.ret_mem, hpop.mem, hvmem]

theorem exec_cs {code : List Instr} (h : Instr.iret ∉ code) : (s.exec code).cs = s.cs := by
  have hpushes : ∀ (ws : List (BitVec 32)) (t : Cpu), (t.pushes ws).cs = t.cs := fun ws t => by
    rw [Cpu.pushes_rest]
  have hpops : ∀ (rs : List Reg) (t : Cpu), (t.pops rs).cs = t.cs := fun rs => by
    induction rs with
    | nil => exact fun _ => rfl
    | cons r rs ih => exact fun t => ih (t.pop r)
  induction code generalizing s with
  | nil => rfl
  | cons i code ih =>
    obtain ⟨hi, hc⟩ := not_or.mp (mt List.mem_cons.mpr h)
    rw [Cpu.exec_cons, ih hc]
    cases i with
    | pusha => exact hpushes _ s
    | popa =>
      have h₁ : s.popa.cs = (s.pops [.edi, .esi, .ebp]).drop.cs := hpops _ _
      exact h₁.trans (hpops _ s)
    | iret => exact absurd rfl hi
    | _ => rfl

/-! The page of a new task. -/

theorem getFreeTask_off {pid : BitVec 32} (hk : k < p ∨ p + PAGE_SIZE ≤ k) : getFreeTask m p pid k = m k := by
  unfold getFreeTask PAGE_SIZE TaskT.pid at *
  rw [storeFields_apply (by simp; omega)]
  exact if_neg (by omega)

theorem rdWord_wr16_ne {v : ℕ} (h : i + 4 ≤ k ∨ k + 2 ≤ i) : (m.wr16 k v).rdWord i = m.rdWord i :=
  Bytes.rdWord_congr fun j h₁ h₂ => BitVec.eq_of_toNat_eq (Bytes.rd8_wr16_ne (by omega))

theorem rdWord_write_ne {xs : List Byte} (h : i + 4 ≤ k ∨ k + xs.length ≤ i) :
    (m.write k xs).rdWord i = m.rdWord i :=
  Bytes.rdWord_congr fun j h₁ h₂ => if_neg (by omega)

/-- The fields `task_create` stores. -/
def createFields (p : ℕ) (a : Creation) : List (ℕ × BitVec 32) :=
  [(TaskT.stack, BitVec.ofNat 32 (p + PAGE_SIZE - 20)), (TaskT.priority, a.priority),
    (TaskT.ticks, a.priority),
   (TaskT.state, TASK_READY), (TaskT.uid, a.uid), (TaskT.gid, 0), (TaskT.vmap, a.kernelMap),
   (TaskT.pde, KERNEL_PAGE_DIR), (TaskT.brk, KERNEL_MEMORY_SIZE), (TaskT.magic, ONIX_MAGIC),
   (TaskT.iroot, a.rootInode), (TaskT.ipwd, a.rootInode), (TaskT.pwd, a.page)]

theorem createFields_pairwise {a : Creation} :
    (createFields p a).Pairwise fun f g => f.1 + 4 ≤ g.1 ∨ g.1 + 4 ≤ f.1 := by
  simp [createFields, TaskT.stack, TaskT.priority, TaskT.ticks, TaskT.state, TaskT.uid, TaskT.gid,
    TaskT.vmap, TaskT.pde, TaskT.brk, TaskT.magic, TaskT.iroot, TaskT.ipwd, TaskT.pwd]

theorem createFields_low {a : Creation} {f : ℕ × BitVec 32} (h : f ∈ createFields p a) :
    f.1 + 4 ≤ TaskT.size ∧ (f.1 + 4 ≤ TaskT.umask ∨ TaskT.umask + 2 ≤ f.1) := by
  revert f
  simp [createFields, TaskT.stack, TaskT.priority, TaskT.ticks, TaskT.state, TaskT.uid, TaskT.gid,
    TaskT.vmap, TaskT.pde, TaskT.brk, TaskT.magic, TaskT.iroot, TaskT.ipwd, TaskT.pwd, TaskT.size,
      TaskT.umask]

/-- A field of a task just created. -/
theorem taskCreate_field {a : Creation} {o : ℕ} {w : BitVec 32} (h : (o, w) ∈ createFields p a) :
    (taskCreate m p a).rdWord (p + o) = w := by
  unfold taskCreate
  rw [rdWord_wr16_ne (by have := (createFields_low h).2; omega)]
  exact storeFields_get h createFields_pairwise

/-- What `task_create` puts on the stack of the task. -/
theorem taskCreate_words {a : Creation} (hname : a.name.length < 16) :
    (taskCreate m p a).Words (p + PAGE_SIZE - 20) [0x33333333, 0x22222222, 0x11111111, 0x44444444,
      a.target] := by
  have hoff : ∀ i, p + PAGE_SIZE - 20 ≤ i → (taskCreate m p a).rdWord i =
      (storeFields (getFreeTask m p a.index) (p + PAGE_SIZE - 20)
        [(8, 0x11111111), (4, 0x22222222), (0, 0x33333333), (12, 0x44444444), (16, a.target)]).rdWord i := by
    intro i hi
    have hlen : (a.name ++ [0]).length = a.name.length + 1 := by simp
    unfold taskCreate
    rw [rdWord_wr16_ne (by unfold TaskT.umask PAGE_SIZE at *; omega)]
    have hlow : ∀ f ∈ createFields p a, i + 4 ≤ p + f.1 ∨ p + f.1 + 4 ≤ i := fun f hf => by
      have := (createFields_low hf).1
      unfold TaskT.size PAGE_SIZE at *
      omega
    refine (storeFields_rdWord hlow).trans (rdWord_write_ne ?_)
    rw [hlen]
    unfold TaskT.name PAGE_SIZE at *
    omega
  have hnd : [(8, 0x11111111#32), (4, 0x22222222), (0, 0x33333333), (12, 0x44444444), (16, a.target)].Pairwise
      fun f g => f.1 + 4 ≤ g.1 ∨ g.1 + 4 ≤ f.1 := by simp
  refine ⟨?_, ?_, ?_, ?_, ?_, trivial⟩
  all_goals rw [hoff _ (by omega)]
  · exact storeFields_get (o := 0) (by simp) hnd
  · exact storeFields_get (o := 4) (by simp) hnd
  · exact storeFields_get (o := 8) (by simp) hnd
  · exact storeFields_get (o := 12) (by simp) hnd
  · exact storeFields_get (o := 16) (by simp) hnd

theorem taskCreate_off {a : Creation} (hname : a.name.length < 16) (hk : k < p ∨ p + PAGE_SIZE ≤ k) :
    taskCreate m p a k = m k := by
  have hwrite : ∀ b : Bytes, b.write (p + TaskT.name) (a.name ++ [0]) k = b k := fun b => by
    refine if_neg ?_
    rw [List.length_append, List.length_singleton]
    unfold TaskT.name PAGE_SIZE at *
    omega
  have hmask : ∀ b : Bytes, b.wr16 (p + TaskT.umask) 0o022 k = b k := fun b =>
    BitVec.eq_of_toNat_eq (Bytes.rd8_wr16_ne (by unfold TaskT.umask PAGE_SIZE at *; omega))
  have hlow : ∀ f ∈ createFields p a, k < p + f.1 ∨ p + f.1 + 4 ≤ k := fun f hf => by
    have := (createFields_low hf).1
    unfold TaskT.size PAGE_SIZE at *
    omega
  unfold taskCreate
  rw [hmask]
  refine (storeFields_apply hlow).trans ?_
  rw [hwrite, storeFields_apply (by simp; unfold PAGE_SIZE at *; omega), getFreeTask_off hk]

/-! The page of a child. -/

/-- The fields `task_fork` stores. -/
def forkFields (m : Bytes) (p q : ℕ) (a : Forking) : List (ℕ × BitVec 32) :=
  [(TaskT.pid, a.index), (TaskT.ppid, m.rdWord (p + TaskT.pid)), (TaskT.ticks, m.rdWord (q + TaskT.priority)),
   (TaskT.state, TASK_READY), (TaskT.vmap, a.vmap), (TaskT.pde, a.pde), (TaskT.pwd, a.pwd)]

theorem taskFork_eq (l : Labels) (a : Forking) : taskFork l m p q a =
    taskBuildStack l (storeFields (copyPage (getFreeTask m q a.index) q p) q
      (forkFields (copyPage (getFreeTask m q a.index) q p) p q a)) q := rfl

theorem forkFields_low {a : Forking} {f : ℕ × BitVec 32} (h : f ∈ forkFields m p q a) :
    f.1 + 4 ≤ TaskT.size := by
  revert f
  simp [forkFields, TaskT.pid, TaskT.ppid, TaskT.ticks, TaskT.state, TaskT.vmap, TaskT.pde, TaskT.pwd,
    TaskT.size]

/-- The stores of `task_build_stack` are the saved stack pointer and the 100 bytes at the end. -/
theorem taskBuildStack_apply {l : Labels} (hk : (k < q ∨ q + 4 ≤ k) ∧ (k < q + PAGE_SIZE - 100 ∨
    q + PAGE_SIZE - 80 ≤ k ∧ (k < q + PAGE_SIZE - 48 ∨ q + PAGE_SIZE - 44 ≤ k))) :
    taskBuildStack l m q k = m k := by
  unfold PAGE_SIZE at hk
  unfold taskBuildStack
  rw [storeFields_apply (by simp [TaskT.stack]; omega),
    storeFields_apply (by simp [PAGE_SIZE]; omega), storeFields_apply (by simp [PAGE_SIZE]; omega)]

theorem taskFork_off {l : Labels} {a : Forking} (hk : k < q ∨ q + PAGE_SIZE ≤ k) :
    taskFork l m p q a k = m k := by
  unfold PAGE_SIZE at hk
  rw [taskFork_eq, taskBuildStack_apply (by unfold PAGE_SIZE; omega), storeFields_apply fun f hf => by
    have := forkFields_low hf
    unfold TaskT.size at this
    omega]
  unfold copyPage
  rw [if_neg (by unfold PAGE_SIZE; omega), getFreeTask_off (by unfold PAGE_SIZE; omega)]

theorem taskFork_stack {l : Labels} {a : Forking} (hq : q + PAGE_SIZE < 2 ^ 32) :
    stackOf (taskFork l m p q a) q = q + PAGE_SIZE - 100 := by
  have h : (taskFork l m p q a).rdWord (q + TaskT.stack) = BitVec.ofNat 32 (q + PAGE_SIZE - 80 - 20) :=
    storeFields_get List.mem_cons_self (List.pairwise_singleton _ _)
  unfold stackOf
  rw [h, BitVec.toNat_ofNat, Nat.mod_eq_of_lt (by omega)]
  omega

end Onix.Context
