import Onix.Sanity.Frames

/-! The code of `kernel/handler.s` around the call of a C function: what is on the stack when
the function is called and what `interrupt_exit` makes of it. -/

namespace Onix.Context

open Function X86

variable {s t u : Cpu} {k top n : ℕ} {ws rest : List (BitVec 32)} {f : Reg → BitVec 32} {g : Seg → BitVec 16}
  {v err vector0 ip fl e : BitVec 32} {cs st : BitVec 16}

/-- The pushes of the segment registers and `pusha`. -/
def saveAll : List Instr := [.pushSeg .ds, .pushSeg .es, .pushSeg .fs, .pushSeg .gs, .pusha]

/-- The registers that `saveAll` stores. -/
def savedReg (s : Cpu) : Reg → BitVec 32 := update s.reg .esp (s.reg .esp - 16)

theorem exec_saveAll :
    s.exec saveAll = s.pushes ((segWords s.seg).reverse ++ (regWords (savedReg s)).reverse) := by
  have hsegs : s.exec [.pushSeg .ds, .pushSeg .es, .pushSeg .fs, .pushSeg .gs] =
    s.pushes (segWords s.seg).reverse := by
    have hstep : ∀ (t : Cpu) (x : Seg), t.step (.pushSeg x) = t.push ((t.seg x).setWidth 32) := fun _ _ => rfl
    simp only [Cpu.exec_cons, Cpu.exec_nil, hstep]
    rfl
  have hall : s.exec saveAll = (s.exec [.pushSeg .ds, .pushSeg .es, .pushSeg .fs,
    .pushSeg .gs]).exec [.pusha] :=
    exec_append (s := s) [.pushSeg .ds, .pushSeg .es, .pushSeg .fs, .pushSeg .gs] [.pusha]
  have hpusha : ∀ t : Cpu,
      t.exec [.pusha] = t.pushes ([Reg.eax, .ecx, .edx, .ebx, .esp, .ebp, .esi, .edi].map t.reg) :=
        fun t => by
    simp only [Cpu.exec_cons, Cpu.exec_nil, Cpu.step, Cpu.pusha]
  have hregs : [Reg.eax, .ecx, .edx, .ebx, .esp, .ebp, .esi,
    .edi].map (s.pushes (segWords s.seg).reverse).reg =
      (regWords (savedReg s)).reverse := by
    have hne : ∀ r ≠ Reg.esp, (s.pushes (segWords s.seg).reverse).reg r = savedReg s r := fun r hr => by
      unfold savedReg
      rw [Cpu.pushes_reg_ne hr, update_of_ne hr]
    have hesp : (s.pushes (segWords s.seg).reverse).reg .esp = savedReg s .esp := by
      rw [Cpu.pushes_reg_esp]
      unfold savedReg
      rw [update_self]
      rfl
    simp only [List.map_cons, List.map_nil, hesp, hne _ (show Reg.eax ≠ .esp by decide),
      hne _ (show Reg.ecx ≠ .esp by decide), hne _ (show Reg.edx ≠ .esp by decide),
      hne _ (show Reg.ebx ≠ .esp by decide), hne _ (show Reg.ebp ≠ .esp by decide),
      hne _ (show Reg.esi ≠ .esp by decide), hne _ (show Reg.edi ≠ .esp by decide)]
    rfl
  rw [hall, hsegs, hpusha, hregs, Cpu.pushes_append]

/-- What `interrupt_exit` makes of the frame it finds. -/
structure Exited (f : Reg → BitVec 32) (g : Seg → BitVec 16) (ip fl : BitVec 32) (cs : BitVec 16)
    (s u : Cpu) : Prop where
  reg : ∀ r ≠ .esp, u.reg r = f r
  seg : u.seg = g
  eip : u.eip = ip
  eflags : u.eflags = fl
  cs : u.cs = cs
  mem : u.mem = s.mem

/-- `interrupt_exit` up to `iret`. -/
def restoreAll : List Instr :=
    [.add .esp 4, .popa, .popSeg .gs, .popSeg .fs, .popSeg .es, .popSeg .ds, .add .esp 8]

theorem add_esp_holds (ds ws : List (BitVec 32)) (h : s.Holds (ds ++ ws)) (hn : 4 * ds.length = n)
    (hs : s.sp + n < 2 ^ 32) : (s.step (.add .esp (BitVec.ofNat 32 n))).Holds ws ∧
      (s.step (.add .esp (BitVec.ofNat 32 n))).sp = s.sp + n := by
  have hsp : (s.step (.add .esp (BitVec.ofNat 32 n))).sp = s.sp + n := by
    have hreg : (s.step (.add .esp (BitVec.ofNat 32 n))).reg .esp = s.reg .esp + BitVec.ofNat 32 n :=
      Cpu.set_reg_self
    unfold Cpu.sp at *
    rw [hreg, BitVec.toNat_add, BitVec.toNat_ofNat]
    omega
  refine ⟨?_, hsp⟩
  have hw := (Bytes.Words.append.mp h).2
  unfold Cpu.Holds
  rw [hsp, ← hn]
  exact hw

theorem restoreAll_spec (h : s.Holds (v :: regWords f ++ segWords g ++ [vector0, err] ++ ws))
    (hs : s.sp + 60 < 2 ^ 32) :
    (∀ r ≠ .esp, (s.exec restoreAll).reg r = f r) ∧ (s.exec restoreAll).seg = g ∧
      (s.exec restoreAll).sp = s.sp + 60 ∧ (s.exec restoreAll).Holds ws ∧
      s.exec restoreAll = { s with reg := (s.exec restoreAll).reg, seg := (s.exec restoreAll).seg } := by
  set s₁ := s.step (.add .esp (BitVec.ofNat 32 4)) with hs₁
  set s₂ := s₁.popa with hs₂
  set s₃ := s₂.popSegs [.gs, .fs, .es, .ds] with hs₃
  have hexec : s.exec restoreAll = s₃.step (.add .esp (BitVec.ofNat 32 8)) := rfl
  obtain ⟨h₁, hsp₁⟩ :=
    add_esp_holds (n := 4) [v] (regWords f ++ segWords g ++ [vector0, err] ++ ws) h rfl (by omega)
  rw [← hs₁] at h₁ hsp₁
  obtain ⟨hreg₂, hsp₂, hrest₂, h₂⟩ :=
    Cpu.Holds.popa (w := f .esp) f (segWords g ++ [vector0, err] ++ ws) h₁ (by omega)
  rw [← hs₂] at hreg₂ hsp₂ hrest₂ h₂
  obtain ⟨hseg₃, -, hreg₃, hsp₃, hrest₃, h₃⟩ := Cpu.Holds.popSegs [.gs, .fs, .es, .ds] g
    ([vector0, err] ++ ws) h₂ (by simp only [List.length_cons, List.length_nil]; omega)
  rw [← hs₃] at hseg₃ hreg₃ hsp₃ hrest₃ h₃
  have hlen : [Seg.gs, .fs, .es, .ds].length = 4 := rfl
  rw [hlen] at hsp₃
  obtain ⟨h₄, hsp₄⟩ := add_esp_holds (n := 8) [vector0, err] ws h₃ rfl (by omega)
  rw [hexec]
  refine ⟨fun r hr => ?_, ?_, by omega, h₄, ?_⟩
  · exact (Cpu.set_reg_ne hr).trans ((hreg₃ r hr).trans (hreg₂ r hr))
  · funext x
    exact hseg₃ x (by cases x <;> decide)
  · have h₃' : s₃.step (.add .esp (BitVec.ofNat 32 8)) =
        { s₃ with reg := (s₃.step (.add .esp (BitVec.ofNat 32 8))).reg } := rfl
    have h₁' : s₁ = { s with reg := s₁.reg } := rfl
    rw [h₃', hrest₃, hrest₂, h₁']

theorem interruptExit_eq : s.exec interruptExit = (s.exec restoreAll).iret := rfl

/-- `interrupt_exit` where the interrupted code runs on the same stack. -/
theorem interruptExit_same (ws : List (BitVec 32))
    (h : s.Holds (v :: regWords f ++ segWords g ++ [vector0, err] ++ (ip :: cs.setWidth 32 :: fl :: ws)))
    (hcs : ¬ Cpu.rpl s.cs < Cpu.rpl cs) (hs : s.sp + 72 < 2 ^ 32) :
    Exited f g ip fl cs s (s.exec interruptExit) ∧ (s.exec interruptExit).sp = s.sp + 72 ∧
      (s.exec interruptExit).ss = s.ss := by
  obtain ⟨hreg, hseg, hsp, hh, hrest⟩ := restoreAll_spec h (by omega)
  have hcs' : (s.exec restoreAll).cs = s.cs := by rw [hrest]
  obtain ⟨hi, hr, hspi⟩ := hh.iret_same (by rw [hcs']; exact hcs) (by omega)
  rw [interruptExit_eq]
  refine ⟨⟨fun r hr' => (hr r hr').trans (hreg r hr'), ?_, ?_, ?_, ?_, ?_⟩, by omega, ?_⟩
  · rw [hi]
    exact hseg
  · rw [hi]
  · rw [hi]
  · rw [hi]
  · rw [hi, hrest]
  · rw [hi, hrest]

/-- `interrupt_exit` to a less privileged level. -/
theorem interruptExit_outer (ws : List (BitVec 32))
    (h : s.Holds (v :: regWords f ++ segWords g ++ [vector0, err] ++
      (ip :: cs.setWidth 32 :: fl :: e :: st.setWidth 32 :: ws)))
    (hcs : Cpu.rpl s.cs < Cpu.rpl cs) (hs : s.sp + 80 < 2 ^ 32) :
    Exited f g ip fl cs s (s.exec interruptExit) ∧ (s.exec interruptExit).reg .esp = e ∧
      (s.exec interruptExit).ss = st := by
  obtain ⟨hreg, hseg, hsp, hh, hrest⟩ := restoreAll_spec h (by omega)
  have hcs' : (s.exec restoreAll).cs = s.cs := by rw [hrest]
  obtain ⟨hi, hr, he⟩ := hh.iret_outer (by rw [hcs']; exact hcs) (by omega)
  rw [interruptExit_eq]
  refine ⟨⟨fun r hr' => (hr r hr').trans (hreg r hr'), ?_, ?_, ?_, ?_, ?_⟩, he, ?_⟩
  · rw [hi]
    exact hseg
  · rw [hi]
  · rw [hi]
  · rw [hi]
  · rw [hi, hrest]
  · rw [hi]

/-- Where the frame of an interrupt starts. -/
def frameBase (c : Cpu) (esp0 : BitVec 32) : ℕ :=
  if Cpu.rpl KERNEL_CODE_SELECTOR < Cpu.rpl c.cs then esp0.toNat else c.sp

/-- What the gate pushes, from the top of the stack. -/
def gateFrame (c : Cpu) : List (BitVec 32) :=
  c.eip :: c.cs.setWidth 32 :: c.eflags ::
    if Cpu.rpl KERNEL_CODE_SELECTOR < Cpu.rpl c.cs then [c.reg .esp, c.ss.setWidth 32] else []

theorem gateFrame_length (c : Cpu) : (gateFrame c).length ≤ 5 := by
  unfold gateFrame
  split_ifs <;> simp

theorem gateWords_reverse (c : Cpu) : (c.gateWords KERNEL_CODE_SELECTOR).reverse = gateFrame c := by
  unfold Cpu.gateWords gateFrame
  split_ifs <;> rfl

/-- The stack after the entry through the gate. -/
structure Entered (c e : Cpu) (esp0 : BitVec 32) : Prop where
  holds : e.Holds (gateFrame c)
  sp : e.sp + 4 * (gateFrame c).length = frameBase c esp0
  reg : ∀ r ≠ .esp, e.reg r = c.reg r
  seg : e.seg = c.seg
  cs : e.cs = KERNEL_CODE_SELECTOR
  ss : ¬ Cpu.rpl KERNEL_CODE_SELECTOR < Cpu.rpl c.cs → e.ss = c.ss
  above : ∀ k, frameBase c esp0 ≤ k → e.mem k = c.mem k

theorem interrupt_entered {c : Cpu} {esp0 : BitVec 32} (offset : BitVec 32) (h : 20 ≤ frameBase c esp0) :
    Entered c (c.interrupt KERNEL_DATA_SELECTOR esp0 KERNEL_CODE_SELECTOR offset) esp0 := by
  rw [Cpu.interrupt_eq]
  set b := c.gateStack KERNEL_DATA_SELECTOR esp0 KERNEL_CODE_SELECTOR with hb
  set ws := c.gateWords KERNEL_CODE_SELECTOR with hws
  have hbsp : b.sp = frameBase c esp0 := by
    unfold Cpu.gateStack frameBase at *
    split_ifs at hb ⊢
    · rw [hb]
      exact congrArg BitVec.toNat Cpu.set_reg_self
    · rw [hb]
  have hbmem : b.mem = c.mem := by
    rw [hb]
    unfold Cpu.gateStack
    split_ifs <;> rfl
  have hbreg : ∀ r ≠ .esp, b.reg r = c.reg r := fun r hr => by
    unfold Cpu.gateStack at hb
    split_ifs at hb <;> rw [hb]
    exact Cpu.set_reg_ne hr
  have hbseg : b.seg = c.seg := by
    rw [hb]
    unfold Cpu.gateStack
    split_ifs <;> rfl
  have hrev : ws.reverse = gateFrame c := gateWords_reverse c
  have hlen : ws.length = (gateFrame c).length := by rw [← hrev, List.length_reverse]
  have hle := gateFrame_length c
  have hsp : (b.pushes ws).sp = b.sp - 4 * ws.length := Cpu.pushes_sp (by omega)
  have hold : (b.pushes ws).Holds (ws.reverse ++ []) := Cpu.Holds.pushes ws trivial (by omega)
  rw [List.append_nil, hrev] at hold
  refine ⟨hold, ?_, fun r hr => (Cpu.pushes_reg_ne hr).trans (hbreg r hr), ?_, rfl, fun hno => ?_,
    fun k hk => ?_⟩
  · change (b.pushes ws).sp + 4 * (gateFrame c).length = frameBase c esp0
    omega
  · change (b.pushes ws).seg = c.seg
    rw [Cpu.pushes_rest]
    exact hbseg
  · have hbc : b = c := by
      unfold Cpu.gateStack at hb
      rwa [if_neg hno] at hb
    change (b.pushes ws).ss = c.ss
    rw [Cpu.pushes_rest, hbc]
  · change (b.pushes ws).mem k = c.mem k
    rw [Cpu.pushes_mem_apply (by omega) (by omega), hbmem]

theorem segWords_length : (segWords g).length = 4 := rfl

theorem regWords_length : (regWords f).length = 8 := rfl

/-- The frame that `saveAll` leaves. -/
theorem saveAll_spec (h : s.Holds ws) (hroom : 48 ≤ s.sp) :
    (s.exec saveAll).Holds (regWords (savedReg s) ++ segWords s.seg ++ ws) ∧ (s.exec saveAll).sp = s.sp - 48 ∧
      (∀ k, s.sp ≤ k → (s.exec saveAll).mem k = s.mem k) ∧ (∀ r ≠ .esp, (s.exec saveAll).reg r = s.reg r) ∧
      s.exec saveAll = { s with reg := (s.exec saveAll).reg, mem := (s.exec saveAll).mem } := by
  have hlen : 4 * ((segWords s.seg).reverse ++ (regWords (savedReg s)).reverse).length = 48 := rfl
  rw [exec_saveAll]
  have hold := h.pushes ((segWords s.seg).reverse ++ (regWords (savedReg s)).reverse) (by omega)
  rw [List.reverse_append, List.reverse_reverse, List.reverse_reverse] at hold
  refine ⟨hold, ?_, fun k hk => Cpu.pushes_mem_apply (by omega) (.inr hk), fun r hr => Cpu.pushes_reg_ne hr,
    Cpu.pushes_rest⟩
  rw [Cpu.pushes_sp (by omega), hlen]

theorem savedReg_ne {r : Reg} (hr : r ≠ .esp) : savedReg s r = s.reg r := update_of_ne hr ..

/-- `interrupt_entry` from the push of the vector on. -/
theorem handlerTail_spec (h : s.Holds ws) (hroom : 56 ≤ s.sp) :
    let t := ((s.push v).exec saveAll).exec [.load .eax .esp 48, .push .eax]
    t.Holds (v :: regWords (savedReg (s.push v)) ++ segWords s.seg ++ v :: ws) ∧ t.sp = s.sp - 56 ∧
      (∀ k, s.sp ≤ k → t.mem k = s.mem k) ∧ t.cs = s.cs ∧ t.ss = s.ss := by
  intro t
  have hsp₁ := Cpu.push_sp (s := s) (w := v) (by omega)
  obtain ⟨h₂, hsp₂, hmem₂, -, hrest₂⟩ := saveAll_spec (h.push (w := v) (by omega)) (by omega)
  set u := (s.push v).exec saveAll with hu
  have hseg : (s.push v).seg = s.seg := rfl
  rw [hseg] at h₂
  -- the vector lies above the registers
  have htop : u.mem.rdWord (u.reg .esp + 48).toNat = v := by
    have haddr : (u.reg .esp + 48).toNat = u.sp + 4 * 12 := by
      have := s.reg .esp |>.isLt
      unfold Cpu.sp at *
      bv_omega
    rw [haddr]
    exact Bytes.Words.get (k := 12) h₂ (by simp [regWords_length, segWords_length]; omega)
  have ht : t = (u.set .eax v).push v := by
    have hload : u.step (.load .eax .esp 48) = u.set .eax v := by
      simp only [Cpu.step, htop]
    have hpush : (u.set .eax v).step (.push .eax) = (u.set .eax v).push v := by
      simp only [Cpu.step, Cpu.set_reg_self]
    have hexec : t = (u.step (.load .eax .esp 48)).step (.push .eax) := rfl
    rw [hexec, hload, hpush]
  have hset : (u.set .eax v).sp = u.sp := Cpu.set_sp_ne (by decide)
  rw [ht]
  refine ⟨?_, ?_, fun k hk => ?_, ?_, ?_⟩
  · exact (h₂.set (by decide)).push (by omega)
  · rw [Cpu.push_sp (by omega)]
    omega
  · rw [Cpu.push_mem (by omega), Bytes.wrWord_apply_ne (by omega), Cpu.set_mem, hmem₂ k (by omega),
      Cpu.push_mem (by omega), Bytes.wrWord_apply_ne (by omega)]
  · change u.cs = s.cs
    rw [hrest₂]
    rfl
  · change u.ss = s.ss
    rw [hrest₂]
    rfl

theorem Returned.sp {args : ℕ} (h : Returned args top s t) : t.sp = s.sp :=
  congrArg BitVec.toNat (h.reg .esp (by decide))

/-- The function may have changed its arguments, not what lies above them. -/
theorem Returned.holds (as ws : List (BitVec 32)) (h : Returned as.length top s t) (hs : s.Holds (as ++ ws))
    (htop : s.sp + 4 * (as.length + ws.length) ≤ top) : ∃ bs, bs.length = as.length ∧ t.Holds (bs ++ ws) := by
  obtain ⟨bs, hbs, hw⟩ := Bytes.exists_words t.mem t.sp as.length
  refine ⟨bs, hbs, Bytes.Words.append.mpr ⟨hw, ?_⟩⟩
  rw [hbs, h.sp]
  exact (Bytes.Words.append.mp hs).2.congr fun k h₁ h₂ => h.stack k h₁ (by omega)

theorem handlerCall_eq {c : Cpu} {offset esp0 : BitVec 32} {error : Option (BitVec 32)} :
    handlerCall offset esp0 v error c =
      ((((c.interrupt KERNEL_DATA_SELECTOR esp0 KERNEL_CODE_SELECTOR offset).push (error.getD 0x2022202)).push v).exec
        saveAll).exec [.load .eax .esp 48, .push .eax] := by
  have hcode : ∀ b, interruptEntry v b = (if b then [] else [.pushImm 0x2022202]) ++
      (.pushImm v :: (saveAll ++ [.load .eax .esp 48, .push .eax])) := fun _ => rfl
  unfold handlerCall
  rw [hcode]
  cases error with
  | none => simp only [Option.isSome_none, Bool.false_eq_true, if_false, Option.getD_none, List.cons_append,
      List.nil_append, Cpu.exec_pushImm, exec_append]
  | some w => simp only [Option.isSome_some, if_true, Option.getD_some, List.nil_append, Cpu.exec_pushImm,
    exec_append]

theorem IntrFrame.cpu_esp {f : IntrFrame} {m : Bytes} : (f.cpu m).reg .esp = f.esp := by
  simp [IntrFrame.cpu]

theorem IntrFrame.cpu_reg {f : IntrFrame} {m : Bytes} {q : Reg} (hq : q ≠ .esp) :
    (f.cpu m).reg q = f.reg q := by
  simp [IntrFrame.cpu, hq]

/-- `interrupt_exit` with a frame of user code on the stack. -/
theorem exit_frame {f : IntrFrame} (h : s.Holds f.words) (hcs : Cpu.rpl s.cs < Cpu.rpl f.cs)
    (hs : s.sp + 80 < 2 ^ 32) : s.exec interruptExit = f.cpu s.mem := by
  obtain ⟨hex, hesp, hss⟩ := interruptExit_outer [] h hcs hs
  refine Cpu.ext (funext fun q => ?_) hex.seg hex.cs hss hex.eflags hex.eip hex.mem
  by_cases hq : q = .esp
  · rw [hq, hesp, IntrFrame.cpu_esp]
  · rw [hex.reg q hq, IntrFrame.cpu_reg hq]

end Onix.Context
