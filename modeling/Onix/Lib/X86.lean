import Onix.Lib.Bytes

/-! A 32-bit x86 processor as far as the stack goes: the instructions that move words between
the registers and the stack, the entry through an interrupt gate, and what lies on the stack
after them. The arithmetic flags are left out. -/

namespace Onix

open Function

namespace Bytes

/-- The 32-bit word at an address. -/
def rdWord (b : Bytes) (i : ℕ) : BitVec 32 := BitVec.ofNat 32 (b.rd32 i)

def wrWord (b : Bytes) (i : ℕ) (w : BitVec 32) : Bytes := b.wr32 i w.toNat

/-- The words from the address `i` on. -/
def Words (b : Bytes) : ℕ → List (BitVec 32) → Prop
  | _, [] => True
  | i, w :: ws => b.rdWord i = w ∧ b.Words (i + 4) ws

variable {b c : Bytes} {i j k : ℕ} {w : BitVec 32} {ws vs : List (BitVec 32)}

theorem rdWord_wrWord : (b.wrWord i w).rdWord i = w := by
  unfold rdWord wrWord
  rw [rd32_wr32, Nat.mod_eq_of_lt w.isLt, BitVec.ofNat_toNat, BitVec.setWidth_eq]

theorem rdWord_wrWord_ne (h : j + 4 ≤ i ∨ i + 4 ≤ j) : (b.wrWord i w).rdWord j = b.rdWord j := by
  unfold rdWord wrWord
  rw [rd32_wr32_ne h]

theorem wrWord_apply_ne (h : k < i ∨ i + 4 ≤ k) : b.wrWord i w k = b k := by
  have hb := rd8_wr32_ne (b := b) (v := w.toNat) h
  exact BitVec.eq_of_toNat_eq hb

theorem rdWord_move (h : ∀ k < 4, c (j + k) = b (i + k)) : c.rdWord j = b.rdWord i := by
  unfold rdWord rd32 rd16 rd8
  have h₀ : c j = b i := h 0 (by decide)
  rw [h₀, h 1 (by decide), h 2 (by decide), show j + 2 + 1 = j + 3 from rfl, h 3 (by decide)]

theorem rdWord_congr (h : ∀ k, i ≤ k → k < i + 4 → b k = c k) : b.rdWord i = c.rdWord i :=
  rdWord_move fun k hk => h (i + k) (by omega) (by omega)

/-- Words copied to another address. -/
theorem Words.move (h : b.Words i ws) (hc : ∀ k < 4 * ws.length, c (j + k) = b (i + k)) : c.Words j ws := by
  induction ws generalizing i j with
  | nil => trivial
  | cons w ws ih =>
    rw [List.length_cons] at hc
    have hw : c.rdWord j = b.rdWord i := rdWord_move fun k hk => hc k (by omega)
    refine ⟨hw.trans h.1, ih h.2 fun k hk => ?_⟩
    have := hc (4 + k) (by omega)
    rwa [← Nat.add_assoc, ← Nat.add_assoc] at this

theorem Words.congr (h : b.Words i ws) (hc : ∀ k, i ≤ k → k < i + 4 * ws.length → c k = b k) :
    c.Words i ws :=
  h.move fun k hk => hc (i + k) (by omega) (by omega)

theorem Words.wrWord (h : b.Words i ws) (hj : j + 4 ≤ i ∨ i + 4 * ws.length ≤ j) :
    (b.wrWord j w).Words i ws :=
  h.congr fun k h₁ h₂ => wrWord_apply_ne (by omega)

theorem Words.append : b.Words i (vs ++ ws) ↔ b.Words i vs ∧ b.Words (i + 4 * vs.length) ws := by
  induction vs generalizing i with
  | nil => simp [Words]
  | cons v vs ih =>
    rw [List.cons_append, List.length_cons]
    simp only [Words, ih, and_assoc]
    rw [show i + 4 + 4 * vs.length = i + 4 * (vs.length + 1) by omega]

theorem Words.get (h : b.Words i ws) (hk : k < ws.length) : b.rdWord (i + 4 * k) = ws[k] := by
  induction ws generalizing i k with
  | nil => exact absurd hk (Nat.not_lt_zero _)
  | cons w ws ih =>
    cases k with
    | zero => exact h.1
    | succ k =>
      rw [List.length_cons] at hk
      rw [List.getElem_cons_succ, ← ih h.2 (by omega)]
      congr 1
      omega

theorem exists_words (b : Bytes) (i n : ℕ) : ∃ ws, ws.length = n ∧ b.Words i ws := by
  induction n generalizing i with
  | zero => exact ⟨[], rfl, trivial⟩
  | succ n ih =>
    obtain ⟨ws, hn, hws⟩ := ih (i + 4)
    exact ⟨b.rdWord i :: ws, congrArg Nat.succ hn, rfl, hws⟩

/-- A word of a list stored anew. -/
theorem Words.store (h : b.Words i (vs ++ w :: ws)) (v : BitVec 32) :
    (b.wrWord (i + 4 * vs.length) v).Words i (vs ++ v :: ws) := by
  obtain ⟨hpre, -, hpost⟩ := Words.append.mp h
  exact Words.append.mpr ⟨hpre.wrWord (.inr (by omega)), rdWord_wrWord, hpost.wrWord (.inl (by omega))⟩

end Bytes

namespace X86

inductive Reg where
  | eax | ecx | edx | ebx | esp | ebp | esi | edi
  deriving DecidableEq

inductive Seg where
  | ds | es | fs | gs
  deriving DecidableEq

@[ext]
structure Cpu where
  reg : Reg → BitVec 32
  seg : Seg → BitVec 16
  cs : BitVec 16
  ss : BitVec 16
  eflags : BitVec 32
  eip : BitVec 32
  mem : Bytes

inductive Instr where
  | push (r : Reg)
  | pushImm (w : BitVec 32)
  | pushSeg (g : Seg)
  | pop (r : Reg)
  | popSeg (g : Seg)
  | pusha
  | popa
  | mov (dst src : Reg)
  /-- `mov dst, [base + disp]` -/
  | load (dst base : Reg) (disp : BitVec 32)
  /-- `mov [base + disp], src` -/
  | store (base : Reg) (disp : BitVec 32) (src : Reg)
  | add (dst : Reg) (w : BitVec 32)
  | and (dst : Reg) (w : BitVec 32)
  | ret
  | iret
  deriving DecidableEq

namespace Cpu

variable (s : Cpu)

/-- The address of the top of the stack. -/
def sp : ℕ := (s.reg .esp).toNat

def set (r : Reg) (w : BitVec 32) : Cpu := { s with reg := update s.reg r w }

def top : BitVec 32 := s.mem.rdWord s.sp

def push (w : BitVec 32) : Cpu :=
  { s.set .esp (s.reg .esp - 4) with mem := s.mem.wrWord (s.reg .esp - 4).toNat w }

def drop : Cpu := s.set .esp (s.reg .esp + 4)

def pop (r : Reg) : Cpu := s.drop.set r s.top

def popSeg (g : Seg) : Cpu := { s.drop with seg := update s.seg g (s.top.setWidth 16) }

def pushes (ws : List (BitVec 32)) : Cpu := ws.foldl push s

def pops (rs : List Reg) : Cpu := rs.foldl pop s

def popSegs (gs : List Seg) : Cpu := gs.foldl popSeg s

/-- `pusha` stores the value `esp` had before it. -/
def pusha : Cpu := s.pushes ([Reg.eax, .ecx, .edx, .ebx, .esp, .ebp, .esi, .edi].map s.reg)

/-- `popa` skips the stored `esp`. -/
def popa : Cpu := (s.pops [.edi, .esi, .ebp]).drop.pops [.ebx, .edx, .ecx, .eax]

/-- The privilege level of a code selector. -/
def rpl (selector : BitVec 16) : ℕ := selector.toNat % 4

/-- `iret` takes a stack pointer from the stack as well when it leaves for a less privileged level. -/
def iret : Cpu :=
  let ip := s.top
  let cs := s.drop.top.setWidth 16
  let flags := s.drop.drop.top
  let t := s.drop.drop.drop
  let u := if rpl s.cs < rpl cs then
      { t.set .esp t.top with ss := t.drop.top.setWidth 16 }
    else t
  { u with eip := ip, cs := cs, eflags := flags }

/-- `IF`, cleared by an interrupt gate, with `TF`, `NT`, `RF` and `VM`. -/
def gateMask : BitVec 32 := ~~~0x34300#32

/-- The entry through an interrupt gate to `selector:offset`; `ss0:esp0` is the stack that the
task state segment names for the case that the privilege level changes. -/
def interrupt (ss0 : BitVec 16) (esp0 : BitVec 32) (selector : BitVec 16) (offset : BitVec 32) : Cpu :=
  let t := if rpl selector < rpl s.cs then
      (({ s with ss := ss0 }.set .esp esp0).push (s.ss.setWidth 32)).push (s.reg .esp)
    else s
  let u := ((t.push s.eflags).push (s.cs.setWidth 32)).push s.eip
  { u with cs := selector, eip := offset, eflags := s.eflags &&& gateMask }

def step : Instr → Cpu
  | .push r => s.push (s.reg r)
  | .pushImm w => s.push w
  | .pushSeg g => s.push ((s.seg g).setWidth 32)
  | .pop r => s.pop r
  | .popSeg g => s.popSeg g
  | .pusha => s.pusha
  | .popa => s.popa
  | .mov dst src => s.set dst (s.reg src)
  | .load dst base disp => s.set dst (s.mem.rdWord (s.reg base + disp).toNat)
  | .store base disp src => { s with mem := s.mem.wrWord (s.reg base + disp).toNat (s.reg src) }
  | .add dst w => s.set dst (s.reg dst + w)
  | .and dst w => s.set dst (s.reg dst &&& w)
  | .ret => { s.drop with eip := s.top }
  | .iret => s.iret

/-- Straight-line code. -/
def exec (s : Cpu) (code : List Instr) : Cpu := code.foldl step s

/-- The words on the stack, from the top. -/
def Holds (ws : List (BitVec 32)) : Prop := s.mem.Words s.sp ws

variable {s : Cpu} {w v : BitVec 32} {ws vs : List (BitVec 32)} {r q : Reg} {k : ℕ}

@[simp] theorem exec_nil : s.exec [] = s := rfl

@[simp] theorem exec_cons (i : Instr) (code : List Instr) : s.exec (i :: code) = (s.step i).exec code := rfl

theorem exec_pushImm (code : List Instr) : s.exec (.pushImm w :: code) = (s.push w).exec code := rfl

@[simp] theorem set_reg_self : (s.set r w).reg r = w := update_self ..

theorem set_reg_ne (h : q ≠ r) : (s.set r w).reg q = s.reg q := update_of_ne h ..

@[simp] theorem set_mem : (s.set r w).mem = s.mem := rfl

theorem set_sp_ne (h : r ≠ .esp) : (s.set r w).sp = s.sp := by
  unfold sp
  rw [set_reg_ne h.symm]

@[simp] theorem push_reg_esp : (s.push w).reg .esp = s.reg .esp - 4 := by
  change (s.set .esp (s.reg .esp - 4)).reg .esp = s.reg .esp - 4
  exact set_reg_self

theorem push_reg_ne (h : q ≠ .esp) : (s.push w).reg q = s.reg q := by
  unfold push
  exact set_reg_ne h

theorem push_sp (h : 4 ≤ s.sp) : (s.push w).sp = s.sp - 4 := by
  unfold sp at h ⊢
  rw [push_reg_esp]
  bv_omega

theorem push_mem (h : 4 ≤ s.sp) : (s.push w).mem = s.mem.wrWord (s.sp - 4) w := by
  have hsp : (s.reg .esp - 4).toNat = s.sp - 4 := by
    unfold sp at h ⊢
    bv_omega
  unfold push
  rw [hsp]

theorem drop_sp (h : s.sp + 4 < 2 ^ 32) : s.drop.sp = s.sp + 4 := by
  unfold sp at h ⊢
  unfold drop
  rw [set_reg_self]
  bv_omega

theorem pop_sp (hr : r ≠ .esp) (h : s.sp + 4 < 2 ^ 32) : (s.pop r).sp = s.sp + 4 := by
  unfold pop
  rw [set_sp_ne hr, drop_sp h]

theorem pop_reg_ne (h : q ≠ r) (hq : q ≠ .esp) : (s.pop r).reg q = s.reg q := by
  unfold pop drop
  rw [set_reg_ne h, set_reg_ne hq]

theorem Holds.push (h : s.Holds ws) (hs : 4 ≤ s.sp) : (s.push w).Holds (w :: ws) := by
  unfold Holds
  rw [push_sp hs, push_mem hs]
  refine ⟨Bytes.rdWord_wrWord, ?_⟩
  rw [show s.sp - 4 + 4 = s.sp by omega]
  exact Bytes.Words.wrWord h (.inl (by omega))

theorem Holds.drop (h : s.Holds (w :: ws)) (hs : s.sp + 4 < 2 ^ 32) : s.drop.Holds ws := by
  unfold Holds
  rw [drop_sp hs]
  exact h.2

theorem Holds.set (h : s.Holds ws) (hr : r ≠ .esp) : (s.set r w).Holds ws := by
  unfold Holds
  rw [set_sp_ne hr]
  exact h

theorem pushes_reg_ne (h : q ≠ .esp) : (s.pushes ws).reg q = s.reg q := by
  induction ws generalizing s with
  | nil => rfl
  | cons w ws ih =>
    have hp : s.pushes (w :: ws) = (s.push w).pushes ws := rfl
    rw [hp, ih, push_reg_ne h]

theorem pushes_reg_esp : (s.pushes ws).reg .esp = s.reg .esp - BitVec.ofNat 32 (4 * ws.length) := by
  induction ws generalizing s with
  | nil => exact (BitVec.sub_zero _).symm
  | cons w ws ih =>
    have hp : s.pushes (w :: ws) = (s.push w).pushes ws := rfl
    rw [hp, ih, push_reg_esp, List.length_cons, Nat.mul_succ]
    bv_omega

theorem pushes_sp (h : 4 * ws.length ≤ s.sp) : (s.pushes ws).sp = s.sp - 4 * ws.length := by
  induction ws generalizing s with
  | nil => rfl
  | cons w ws ih =>
    rw [List.length_cons] at h ⊢
    have hsp := push_sp (s := s) (w := w) (by omega)
    have hp : s.pushes (w :: ws) = (s.push w).pushes ws := rfl
    rw [hp, ih (by omega), hsp]
    omega

/-- What is pushed lies under the stack pointer. -/
theorem pushes_mem_apply (h : 4 * ws.length ≤ s.sp) (hk : k < s.sp - 4 * ws.length ∨ s.sp ≤ k) :
    (s.pushes ws).mem k = s.mem k := by
  induction ws generalizing s with
  | nil => rfl
  | cons w ws ih =>
    rw [List.length_cons] at h hk
    have hsp := push_sp (s := s) (w := w) (by omega)
    have hp : s.pushes (w :: ws) = (s.push w).pushes ws := rfl
    rw [hp, ih (by omega) (by omega), push_mem (by omega), Bytes.wrWord_apply_ne (by omega)]

theorem Holds.pushes (vs : List (BitVec 32)) (h : s.Holds ws) (hs : 4 * vs.length ≤ s.sp) :
    (s.pushes vs).Holds (vs.reverse ++ ws) := by
  induction vs generalizing s ws with
  | nil => exact h
  | cons v vs ih =>
    rw [List.length_cons] at hs
    have hsp := push_sp (s := s) (w := v) (by omega)
    have hp : s.pushes (v :: vs) = (s.push v).pushes vs := rfl
    rw [hp, List.reverse_cons, List.append_assoc]
    exact ih (h.push (by omega)) (by omega)

/-- Pushing changes the stack and its pointer only. -/
theorem pushes_rest : s.pushes ws = { s with reg := (s.pushes ws).reg, mem := (s.pushes ws).mem } := by
  induction ws generalizing s with
  | nil => rfl
  | cons w ws ih =>
    have hp : s.pushes (w :: ws) = (s.push w).pushes ws := rfl
    rw [hp, ih]
    rfl

theorem pushes_append : s.pushes (vs ++ ws) = (s.pushes vs).pushes ws := List.foldl_append

/-- What `pops` of the registers `rs` does where the stack holds the values `f` gives them. -/
structure Popped (rs : List Reg) (f : Reg → BitVec 32) (s t : Cpu) : Prop where
  mem_reg : ∀ r ∈ rs, t.reg r = f r
  other_reg : ∀ r ∉ rs, r ≠ .esp → t.reg r = s.reg r
  sp : t.sp = s.sp + 4 * rs.length
  rest : t = { s with reg := t.reg }

theorem Popped.mem {rs : List Reg} {f : Reg → BitVec 32} {t : Cpu} (h : Popped rs f s t) : t.mem = s.mem := by
  rw [h.rest]

theorem pop_popped (h : s.Holds (w :: ws)) (hs : s.sp + 4 < 2 ^ 32) (hr : r ≠ .esp) :
    Popped [r] (fun _ => w) s (s.pop r) where
  mem_reg q hq := by
    rw [List.mem_singleton.mp hq]
    unfold pop
    rw [set_reg_self]
    exact h.1
  other_reg q hq hsp := pop_reg_ne (fun hc => hq (List.mem_singleton.mpr hc)) hsp
  sp := pop_sp hr hs
  rest := rfl

theorem Holds.pops {rs : List Reg} {f : Reg → BitVec 32} (h : s.Holds (rs.map f ++ ws))
    (hs : s.sp + 4 * rs.length < 2 ^ 32) (hnd : rs.Nodup) (hsp : .esp ∉ rs) :
    Popped rs f s (s.pops rs) ∧ (s.pops rs).Holds ws := by
  induction rs generalizing s with
  | nil => exact ⟨⟨fun r hr => absurd hr List.not_mem_nil, fun _ _ _ => rfl, rfl, rfl⟩, h⟩
  | cons r rs ih =>
    rw [List.length_cons] at hs
    obtain ⟨hr, hnd'⟩ := List.nodup_cons.mp hnd
    have hre : r ≠ .esp := fun hc => hsp (hc ▸ List.mem_cons_self)
    have hp := pop_popped h (by omega) hre
    have hold : (s.pop r).Holds (rs.map f ++ ws) := (h.drop (by omega)).set hre
    obtain ⟨ht, hh⟩ := ih hold (by rw [hp.sp, List.length_singleton]; omega) hnd'
      fun hc => hsp (List.mem_cons_of_mem r hc)
    have hpops : s.pops (r :: rs) = (s.pop r).pops rs := rfl
    rw [hpops]
    refine ⟨⟨fun q hq => ?_, fun q hq hqe => ?_, ?_, ?_⟩, hh⟩
    · by_cases hqr : q ∈ rs
      · exact ht.mem_reg q hqr
      · obtain rfl : q = r := (List.mem_cons.mp hq).resolve_right hqr
        rw [ht.other_reg q hqr hre]
        exact hp.mem_reg q (List.mem_singleton.mpr rfl)
    · obtain ⟨hqr, hqrs⟩ := not_or.mp (mt List.mem_cons.mpr hq)
      rw [ht.other_reg q hqrs hqe, pop_reg_ne hqr hqe]
    · rw [ht.sp, hp.sp, List.length_singleton, List.length_cons]
      omega
    · rw [ht.rest, hp.rest]

theorem ret_reg_ne (h : q ≠ .esp) : (s.step .ret).reg q = s.reg q := by
  have hd : (s.step .ret).reg = s.drop.reg := rfl
  rw [hd]
  exact set_reg_ne h

theorem ret_mem : (s.step .ret).mem = s.mem := rfl

theorem ret_sp (h : s.sp + 4 < 2 ^ 32) : (s.step .ret).sp = s.sp + 4 := drop_sp h

theorem Holds.ret (h : s.Holds (w :: ws)) : (s.step .ret).eip = w := h.1

/-- `popa` after `pusha`, whatever the stored `esp` has become. -/
theorem Holds.popa (f : Reg → BitVec 32) (ws : List (BitVec 32))
    (h : s.Holds ([.edi, .esi, .ebp].map f ++ w :: [.ebx, .edx, .ecx, .eax].map f ++ ws))
    (hs : s.sp + 32 < 2 ^ 32) :
    (∀ r ≠ .esp, s.popa.reg r = f r) ∧ s.popa.sp = s.sp + 32 ∧ s.popa = { s with reg := s.popa.reg } ∧
      s.popa.Holds ws := by
  rw [List.append_assoc, List.cons_append] at h
  obtain ⟨h₁, hh₁⟩ := Holds.pops h
    (by simp only [List.length_cons, List.length_nil]; omega) (by decide) (by decide)
  have hsp₁ : (s.pops [.edi, .esi, .ebp]).sp = s.sp + 12 := h₁.sp
  have hsp₂ := drop_sp (s := s.pops [.edi, .esi, .ebp]) (by omega)
  have hh₂ := hh₁.drop (by omega)
  obtain ⟨h₃, hh₃⟩ := Holds.pops hh₂
    (by simp only [List.length_cons, List.length_nil]; omega) (by decide) (by decide)
  refine ⟨fun r hr => ?_, ?_, ?_, hh₃⟩
  · by_cases hm : r ∈ [Reg.ebx, .edx, .ecx, .eax]
    · exact h₃.mem_reg r hm
    · have hd : ((s.pops [.edi, .esi, .ebp]).drop).reg r = (s.pops [.edi, .esi, .ebp]).reg r := set_reg_ne hr
      have hm' : r ∈ [Reg.edi, .esi, .ebp] := by cases r <;> simp_all
      exact (h₃.other_reg r hm hr).trans (hd.trans (h₁.mem_reg r hm'))
  · exact h₃.sp.trans (by rw [hsp₂, hsp₁]; rfl)
  · unfold Cpu.popa
    rw [h₃.rest]
    unfold Cpu.drop Cpu.set
    rw [h₁.rest]

/-- `popSegs` of the selectors that `f` gives. -/
theorem Holds.popSegs (gs : List Seg) (f : Seg → BitVec 16) (ws : List (BitVec 32))
    (h : s.Holds (gs.map (fun g => (f g).setWidth 32) ++ ws))
    (hs : s.sp + 4 * gs.length < 2 ^ 32) :
    (∀ g ∈ gs, (s.popSegs gs).seg g = f g) ∧ (∀ g ∉ gs, (s.popSegs gs).seg g = s.seg g) ∧
      (∀ r ≠ .esp, (s.popSegs gs).reg r = s.reg r) ∧ (s.popSegs gs).sp = s.sp + 4 * gs.length ∧
      s.popSegs gs = { s with reg := (s.popSegs gs).reg, seg := (s.popSegs gs).seg } ∧
        (s.popSegs gs).Holds ws := by
  induction gs generalizing s with
  | nil => exact ⟨fun g hg => absurd hg List.not_mem_nil, fun _ _ => rfl, fun _ _ => rfl, rfl, rfl, h⟩
  | cons g gs ih =>
    rw [List.length_cons] at hs
    have hsp : (s.popSeg g).sp = s.sp + 4 := drop_sp (s := s) (by omega)
    have hseg : (s.popSeg g).seg g = f g := by
      have htop : s.top = (f g).setWidth 32 := h.1
      unfold popSeg
      simp only [update_self, htop]
      exact BitVec.setWidth_setWidth_of_le (f g) (by decide)
    have hold : (s.popSeg g).Holds (gs.map (fun g => (f g).setWidth 32) ++ ws) := h.drop (by omega)
    obtain ⟨hm, hn, hr, hsp', hrest, hh⟩ := ih hold (by omega)
    have hpop : s.popSegs (g :: gs) = (s.popSeg g).popSegs gs := rfl
    rw [hpop]
    refine ⟨fun k hk => ?_, fun k hk => ?_, fun r hre => ?_, ?_, ?_, hh⟩
    · by_cases hkg : k ∈ gs
      · exact hm k hkg
      · obtain rfl := (List.mem_cons.mp hk).resolve_right hkg
        rw [hn k hkg, hseg]
    · obtain ⟨hkg, hkgs⟩ := not_or.mp (mt List.mem_cons.mpr hk)
      rw [hn k hkgs]
      exact update_of_ne hkg ..
    · rw [hr r hre]
      exact set_reg_ne hre
    · rw [hsp', hsp, List.length_cons]
      omega
    · rw [hrest]
      rfl

theorem popa_mem : s.popa.mem = s.mem := by
  have h : ∀ rs : List Reg, ∀ t : Cpu, (t.pops rs).mem = t.mem := fun rs => by
    induction rs with
    | nil => exact fun _ => rfl
    | cons r rs ih => exact fun t => ih (t.pop r)
  unfold Cpu.popa
  rw [h]
  exact h _ s

/-- The words that an interrupt through a gate to `selector` pushes, in order. -/
def gateWords (s : Cpu) (selector : BitVec 16) : List (BitVec 32) :=
  (if rpl selector < rpl s.cs then [s.ss.setWidth 32, s.reg .esp] else []) ++
    [s.eflags, s.cs.setWidth 32, s.eip]

/-- The stack it pushes them on. -/
def gateStack (s : Cpu) (ss0 : BitVec 16) (esp0 : BitVec 32) (selector : BitVec 16) : Cpu :=
  if rpl selector < rpl s.cs then { s with ss := ss0 }.set .esp esp0 else s

theorem interrupt_eq (ss0 : BitVec 16) (esp0 : BitVec 32) (selector : BitVec 16) (offset : BitVec 32) :
    s.interrupt ss0 esp0 selector offset =
      { (s.gateStack ss0 esp0 selector).pushes (s.gateWords selector) with
        cs := selector, eip := offset, eflags := s.eflags &&& gateMask } := by
  unfold interrupt gateStack gateWords
  split_ifs <;> rfl

/-- `iret` to the privilege level the processor is at. -/
theorem Holds.iret_same {ip fl : BitVec 32} {cs : BitVec 16} (h : s.Holds (ip :: cs.setWidth 32 :: fl :: ws))
    (hcs : ¬ rpl s.cs < rpl cs) (hs : s.sp + 12 < 2 ^ 32) :
    s.iret = { s with eip := ip, cs := cs, eflags := fl, reg := s.iret.reg } ∧
      (∀ r ≠ .esp, s.iret.reg r = s.reg r) ∧ s.iret.sp = s.sp + 12 := by
  have hip : s.top = ip := h.1
  have h₁ := h.drop (by omega)
  have hsp₁ := drop_sp (s := s) (by omega)
  have hcs₁ : s.drop.top = cs.setWidth 32 := h₁.1
  have h₂ := h₁.drop (by omega)
  have hsp₂ := drop_sp (s := s.drop) (by omega)
  have hfl : s.drop.drop.top = fl := h₂.1
  have hsp₃ := drop_sp (s := s.drop.drop) (by omega)
  have hw : (cs.setWidth 32).setWidth 16 = cs := BitVec.setWidth_setWidth_of_le cs (by decide)
  have hiret : s.iret = { s.drop.drop.drop with eip := ip, cs := cs, eflags := fl } := by
    unfold Cpu.iret
    simp only [hip, hcs₁, hfl, hw, if_neg hcs]
  have hreg : s.iret.reg = s.drop.drop.drop.reg := by rw [hiret]
  refine ⟨?_, fun r hr => ?_, ?_⟩
  · rw [hiret]
    rfl
  · rw [hreg]
    exact (set_reg_ne hr).trans ((set_reg_ne hr).trans (set_reg_ne hr))
  · have : s.iret.sp = s.drop.drop.drop.sp := by
      unfold sp
      rw [hreg]
    omega

/-- `iret` to a less privileged level takes the stack too. -/
theorem Holds.iret_outer {ip fl e : BitVec 32} {cs st : BitVec 16}
    (h : s.Holds (ip :: cs.setWidth 32 :: fl :: e :: st.setWidth 32 :: ws)) (hcs : rpl s.cs < rpl cs)
    (hs : s.sp + 20 < 2 ^ 32) :
    s.iret = { s with eip := ip, cs := cs, eflags := fl, ss := st, reg := s.iret.reg } ∧
      (∀ r ≠ .esp, s.iret.reg r = s.reg r) ∧ s.iret.reg .esp = e := by
  have hip : s.top = ip := h.1
  have h₁ := h.drop (by omega)
  have hsp₁ := drop_sp (s := s) (by omega)
  have hcs₁ : s.drop.top = cs.setWidth 32 := h₁.1
  have h₂ := h₁.drop (by omega)
  have hsp₂ := drop_sp (s := s.drop) (by omega)
  have hfl : s.drop.drop.top = fl := h₂.1
  have h₃ := h₂.drop (by omega)
  have hsp₃ := drop_sp (s := s.drop.drop) (by omega)
  have he : s.drop.drop.drop.top = e := h₃.1
  have hst : s.drop.drop.drop.drop.top = st.setWidth 32 := (h₃.drop (by omega)).1
  have hw : ∀ c : BitVec 16, (c.setWidth 32).setWidth 16 = c :=
    fun c => BitVec.setWidth_setWidth_of_le c (by decide)
  have hiret : s.iret = { s.drop.drop.drop.set .esp e with eip := ip, cs := cs, eflags := fl, ss := st } := by
    unfold Cpu.iret
    simp only [hip, hcs₁, hfl, hw, if_pos hcs, he, hst]
  have hreg : s.iret.reg = (s.drop.drop.drop.set .esp e).reg := by rw [hiret]
  refine ⟨?_, fun r hr => ?_, ?_⟩
  · rw [hiret]
    rfl
  · rw [hreg, set_reg_ne hr]
    exact (set_reg_ne hr).trans ((set_reg_ne hr).trans (set_reg_ne hr))
  · rw [hreg, set_reg_self]

end Cpu

end X86

end Onix
