import Onix.Sanity.Entry
import Onix.Proofs.Context

/-! What an interrupt, a system call and a fork look like from the interrupted code. -/

namespace Onix.Context

open Function X86

variable {l : Labels} {c k r : Cpu} {offset esp0 v : BitVec 32} {error : Option (BitVec 32)} {top : ℕ}

/-- What an interrupt of `c` has left on the stack when the handler is through. -/
structure Framed (c r : Cpu) (esp0 : BitVec 32) (top : ℕ) : Prop where
  holds : ∃ f w₁ w₂ w₃, (∀ q ≠ .esp, f q = c.reg q) ∧
    r.Holds (w₁ :: regWords f ++ segWords c.seg ++ [w₂, w₃] ++ gateFrame c)
  sp : r.sp + 60 + 4 * (gateFrame c).length = frameBase c esp0
  cs : r.cs = KERNEL_CODE_SELECTOR
  ss : ¬ Cpu.rpl KERNEL_CODE_SELECTOR < Cpu.rpl c.cs → r.ss = c.ss
  above : ∀ k, frameBase c esp0 ≤ k → k < top → r.mem k = c.mem k

theorem handler_framed (hroom : 80 ≤ frameBase c esp0) (hbase : frameBase c esp0 ≤ top)
    (hret : Returned 1 top (handlerCall offset esp0 v error c) r) : Framed c r esp0 top := by
  have he := interrupt_entered (c := c) offset (by omega : 20 ≤ frameBase c esp0)
  rw [handlerCall_eq] at hret
  set e := c.interrupt KERNEL_DATA_SELECTOR esp0 KERNEL_CODE_SELECTOR offset with hedef
  set err := error.getD 0x2022202 with herr
  have hesp := he.sp
  have hle := gateFrame_length c
  have hsp' := Cpu.push_sp (s := e) (w := err) (by omega)
  obtain ⟨hold, hspc, hmem, hcs, hss⟩ :=
    handlerTail_spec (v := v) (he.holds.push (w := err) (by omega)) (by omega)
  set h := (((e.push err).push v).exec saveAll).exec [.load .eax .esp 48, .push .eax] with hdef
  set f := savedReg ((e.push err).push v) with hf
  have hseg : (e.push err).seg = c.seg := he.seg
  rw [hseg] at hold
  have hlen : (regWords f ++ segWords c.seg ++ v :: err :: gateFrame c).length =
    14 + (gateFrame c).length := by
    simp only [List.length_append, regWords_length, segWords_length, List.length_cons]
    omega
  obtain ⟨bs, hbs, hh⟩ := hret.holds [v] (regWords f ++ segWords c.seg ++ v :: err :: gateFrame c) hold
    (by rw [hlen, List.length_singleton]; omega)
  obtain ⟨w, rfl⟩ := List.length_eq_one_iff.mp hbs
  refine ⟨⟨f, w, v, err, fun q hq => ?_, ?_⟩, ?_, ?_, fun hno => ?_, fun k h₁ h₂ => ?_⟩
  · rw [hf, savedReg_ne hq, Cpu.push_reg_ne hq, Cpu.push_reg_ne hq, he.reg q hq]
  · simpa only [List.cons_append, List.append_assoc, List.nil_append] using hh
  · rw [hret.sp]
    omega
  · rw [hret.cs, hcs]
    exact he.cs
  · exact hret.ss.trans (hss.trans (he.ss hno))
  · have h₃ : e.mem k = c.mem k := he.above k h₁
    rw [hret.stack k (by omega) h₂, hmem k (by omega), Cpu.push_mem (by omega),
      Bytes.wrWord_apply_ne (by omega), h₃]

/-- An interrupt of user or kernel code is not seen by it: when the handler has returned,
`interrupt_exit` leaves every register as it was. -/
theorem interrupt_returns (hroom : 80 ≤ frameBase c esp0) (hbase : frameBase c esp0 ≤ top)
    (htop : top < 2 ^ 32)
    (hret : Returned 1 top (handlerCall offset esp0 v error c) r) :
    r.exec interruptExit = { c with mem := r.mem } ∧ ∀ k, frameBase c esp0 ≤ k → k < top →
      r.mem k = c.mem k := by
  have hfr := handler_framed hroom hbase hret
  obtain ⟨f, w₁, w₂, w₃, hf, hold⟩ := hfr.holds
  have hsp := hfr.sp
  refine ⟨?_, hfr.above⟩
  unfold gateFrame frameBase at *
  by_cases hcs : Cpu.rpl KERNEL_CODE_SELECTOR < Cpu.rpl c.cs
  · simp only [if_pos hcs, List.length_cons, List.length_nil] at hold hsp hbase
    obtain ⟨hex, hesp, hss⟩ := interruptExit_outer [] hold (by rw [hfr.cs]; exact hcs) (by omega)
    refine Cpu.ext (funext fun q => ?_) hex.seg hex.cs hss hex.eflags hex.eip hex.mem
    by_cases hq : q = .esp
    · rw [hq, hesp]
    · exact (hex.reg q hq).trans (hf q hq)
  · simp only [if_neg hcs, List.length_cons, List.length_nil] at hold hsp hbase
    obtain ⟨hex, hspx, hss⟩ := interruptExit_same [] hold (by rw [hfr.cs]; exact hcs) (by omega)
    refine Cpu.ext (funext fun q => ?_) hex.seg hex.cs (hss.trans (hfr.ss hcs)) hex.eflags hex.eip hex.mem
    by_cases hq : q = .esp
    · rw [hq]
      apply BitVec.eq_of_toNat_eq
      change (r.exec interruptExit).sp = c.sp
      omega
    · exact (hex.reg q hq).trans (hf q hq)

/-- The frame that `task_to_user_mode` builds; it leaves `vector` as it finds it. -/
def userFrame (vector target : BitVec 32) : IntrFrame where
  vector := vector
  reg q := match q with
    | .edi => 1 | .esi => 2 | .ebp => 3 | .esp => 4 | .ebx => 5 | .edx => 6 | .ecx => 7 | .eax => 8
  seg g := match g with
    | .gs => 0 | _ => USER_DATA_SELECTOR
  vector0 := 0x20
  error := ONIX_MAGIC
  eip := target
  cs := USER_CODE_SELECTOR
  eflags := 0x202
  esp := USER_STACK_TOP
  ss := USER_DATA_SELECTOR

/-- `task_to_user_mode` enters user mode at `target`, on the user stack, with interrupts enabled. -/
theorem taskToUserMode_enters {task : ℕ} {target : BitVec 32} (hcs : c.cs = KERNEL_CODE_SELECTOR)
    (hb : task + PAGE_SIZE < 2 ^ 32) :
    taskToUserMode c task target = (userFrame (c.mem.rdWord (task + PAGE_SIZE - 80)) target).cpu
      (taskToUserMode c task target).mem := by
  set a := task + PAGE_SIZE - 80 with ha
  set m := storeFields c.mem a (userFields target) with hm
  set e := ({ c with mem := m } : Cpu).set .esp (BitVec.ofNat 32 a) with he
  have hsp : e.sp = a := by
    have hesp : e.reg .esp = BitVec.ofNat 32 a := Cpu.set_reg_self
    unfold Cpu.sp
    rw [hesp, BitVec.toNat_ofNat, Nat.mod_eq_of_lt (by omega)]
  have hvector : m.rdWord a = c.mem.rdWord a := storeFields_rdWord (by simp [userFields])
  have hget : ∀ o w, (o, w) ∈ userFields target → m.rdWord (a + o) = w :=
    fun o w h => storeFields_get h (by simp [userFields])
  have hwords : e.Holds (userFrame (c.mem.rdWord a) target).words := by
    unfold Cpu.Holds
    rw [hsp]
    refine ⟨hvector, hget 4 _ ?_, hget 8 _ ?_, hget 12 _ ?_, hget 16 _ ?_, hget 20 _ ?_, hget 24 _ ?_,
      hget 28 _ ?_,
      hget 32 _ ?_, hget 36 _ ?_, hget 40 _ ?_, hget 44 _ ?_, hget 48 _ ?_, hget 52 _ ?_, hget 56 _ ?_,
        hget 60 _ ?_,
      hget 64 _ ?_, hget 68 _ ?_, hget 72 _ ?_, hget 76 _ ?_, trivial⟩ <;> simp [userFields, userFrame]
  have hexit := exit_frame hwords (by change Cpu.rpl c.cs < Cpu.rpl USER_CODE_SELECTOR; rw [hcs]; decide)
    (by rw [hsp]; unfold PAGE_SIZE at *; omega)
  have hexec : taskToUserMode c task target = e.exec interruptExit := rfl
  rw [hexec, hexit]
  rfl

variable {s₀ s s₁ t u : State} {q : ℕ} {a : Forking} {as : List Act}

def labels : Labels := ⟨0xc000, 0xc100⟩

def userCpu : Cpu := { pair.cpu with
  cs := USER_CODE_SELECTOR, ss := USER_DATA_SELECTOR, eip := 0x8000, eflags := 0x202 }

theorem Returned.refl (n top : ℕ) (s : Cpu) : Returned n top s s :=
    ⟨fun _ _ => rfl, rfl, rfl, fun _ _ _ => rfl⟩

def userHandler : Cpu := handlerCall 0xd000 0x2000 0x20 none userCpu

theorem interrupt_returns_user : userHandler.exec interruptExit = { userCpu with mem := userHandler.mem } ∧
    ∀ k, frameBase userCpu 0x2000 ≤ k → k < 0x2000 → userHandler.mem k = userCpu.mem k :=
  interrupt_returns (by decide) (by decide) (by decide) (.refl 1 0x2000 userHandler)

def userCheck : Cpu :=
  (userCpu.interrupt KERNEL_DATA_SELECTOR 0x2000 KERNEL_CODE_SELECTOR 0xd000).exec syscallCheck

def userCall : Cpu := userCheck.exec (syscallCall labels)

def forking : State := { pair with cpu := userCall }

def child : Forking := ⟨3, 0x700000, 0xa000, 0x701000⟩

def forked : State := { forking with
  cpu := { forking.cpu with mem := taskFork labels forking.cpu.mem 0x1000 0x3000 child }
  tasks := insert 0x3000 forking.tasks }

end Onix.Context
