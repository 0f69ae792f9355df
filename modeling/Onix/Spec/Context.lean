import Onix.Lib.X86
import Onix.Lib.Run

/-! `kernel/schedule.s`, `kernel/handler.s` and what `kernel/task.c` keeps in the page of a task:
`task_t` at its start, the kernel stack down from its end. The C code that runs in between is
any code that leaves alone what the other tasks have on their stacks. -/

namespace Onix.Context

open Function X86

def PAGE_SIZE : ℕ := 0x1000

def KERNEL_USER : BitVec 32 := 0

def ONIX_MAGIC : BitVec 32 := 0x20220205

def TASK_READY : BitVec 32 := 2

def KERNEL_PAGE_DIR : BitVec 32 := 0x1000

def KERNEL_MEMORY_SIZE : BitVec 32 := 0x1000000

def USER_STACK_TOP : BitVec 32 := 0x8000000

def USER_CODE_SELECTOR : BitVec 16 := 0x23

def USER_DATA_SELECTOR : BitVec 16 := 0x2b

def KERNEL_CODE_SELECTOR : BitVec 16 := 0x8

def KERNEL_DATA_SELECTOR : BitVec 16 := 0x10

/-! The offsets of the fields of `task_t`. -/

namespace TaskT

def stack : ℕ := 0
def state : ℕ := 12
def priority : ℕ := 16
def ticks : ℕ := 20
def name : ℕ := 28
def uid : ℕ := 44
def gid : ℕ := 48
def pid : ℕ := 52
def ppid : ℕ := 56
def pde : ℕ := 60
def vmap : ℕ := 64
def brk : ℕ := 68
def pwd : ℕ := 80
def ipwd : ℕ := 84
def iroot : ℕ := 88
def umask : ℕ := 92
def magic : ℕ := 160

/-- `sizeof(task_t)` -/
def size : ℕ := 164

end TaskT

/-- The addresses the linker gives to labels that the code stores. -/
structure Labels where
  interruptExit : BitVec 32
  interruptHandler0x08 : BitVec 32

/-- `task_frame_t` -/
structure TaskFrame where
  edi : BitVec 32
  esi : BitVec 32
  ebx : BitVec 32
  ebp : BitVec 32
  eip : BitVec 32

def TaskFrame.words (f : TaskFrame) : List (BitVec 32) := [f.edi, f.esi, f.ebx, f.ebp, f.eip]

/-- `intr_frame_t`; `reg .esp` is `esp_dummy`. -/
structure IntrFrame where
  vector : BitVec 32
  reg : Reg → BitVec 32
  seg : Seg → BitVec 16
  vector0 : BitVec 32
  error : BitVec 32
  eip : BitVec 32
  cs : BitVec 16
  eflags : BitVec 32
  esp : BitVec 32
  ss : BitVec 16

/-- What `pusha` leaves, from the top. -/
def regWords (f : Reg → BitVec 32) : List (BitVec 32) :=
  [f .edi, f .esi, f .ebp, f .esp, f .ebx, f .edx, f .ecx, f .eax]

def segWords (f : Seg → BitVec 16) : List (BitVec 32) :=
  [(f .gs).setWidth 32, (f .fs).setWidth 32, (f .es).setWidth 32, (f .ds).setWidth 32]

def IntrFrame.words (f : IntrFrame) : List (BitVec 32) :=
  f.vector :: regWords f.reg ++ segWords f.seg ++
    [f.vector0, f.error, f.eip, f.cs.setWidth 32, f.eflags, f.esp, f.ss.setWidth 32]

/-- The processor that a frame describes. -/
def IntrFrame.cpu (f : IntrFrame) (m : Bytes) : Cpu where
  reg := update f.reg .esp f.esp
  seg := f.seg
  cs := f.cs
  ss := f.ss
  eflags := f.eflags
  eip := f.eip
  mem := m

/-- The code of `task_switch`. -/
def taskSwitch : List Instr :=
  [.push .ebp, .mov .ebp .esp, .push .ebx, .push .esi, .push .edi,
   .mov .eax .esp, .and .eax 0xfffff000, .store .eax 0 .esp, .load .eax .ebp 8, .load .esp .eax 0,
   .pop .edi, .pop .esi, .pop .ebx, .pop .ebp, .ret]

/-- `INTERRUPT_HANDLER` for the vector `v` and `interrupt_entry` up to its call; the processor has
pushed an error code for some vectors, the macro pushes a word for the others. -/
def interruptEntry (v : BitVec 32) (hasError : Bool) : List Instr :=
  (if hasError then [] else [.pushImm 0x2022202]) ++
    [.pushImm v, .pushSeg .ds, .pushSeg .es, .pushSeg .fs, .pushSeg .gs, .pusha,
     .load .eax .esp 48, .push .eax]

def interruptExit : List Instr :=
  [.add .esp 4, .popa, .popSeg .gs, .popSeg .fs, .popSeg .es, .popSeg .ds, .add .esp 8, .iret]

/-- The call of the C handler when the vector `v` interrupts `c`; for some vectors the processor pushes an
error code. -/
def handlerCall (offset esp0 v : BitVec 32) (error : Option (BitVec 32)) (c : Cpu) : Cpu :=
  let e := c.interrupt KERNEL_DATA_SELECTOR esp0 KERNEL_CODE_SELECTOR offset
  (match error with | some w => e.push w | none => e).exec (interruptEntry v error.isSome)

/-- `syscall_handler` up to the call of `syscall_check`. -/
def syscallCheck : List Instr := [.push .eax]

/-- `syscall_handler` from there up to the call through `syscall_table`. -/
def syscallCall (l : Labels) : List Instr :=
  [.add .esp 4, .pushImm 0x20222202, .pushImm 0x80,
   .pushSeg .ds, .pushSeg .es, .pushSeg .fs, .pushSeg .gs, .pusha, .pushImm l.interruptHandler0x08,
   .push .edx, .push .ecx, .push .ebx]

/-- Stores of words at offsets from `task`. -/
def storeFields (m : Bytes) (task : ℕ) (fields : List (ℕ × BitVec 32)) : Bytes :=
  fields.foldl (fun m f => m.wrWord (task + f.1) f.2) m

/-- `memcpy` of a page. -/
def copyPage (m : Bytes) (dst src : ℕ) : Bytes := fun k =>
  if dst ≤ k ∧ k < dst + PAGE_SIZE then m (src + (k - dst)) else m k

/-- `get_free_task` with the page `task` for entry `i` of `task_table`. -/
def getFreeTask (m : Bytes) (task : ℕ) (i : BitVec 32) : Bytes :=
  storeFields (fun k => if task ≤ k ∧ k < task + PAGE_SIZE then 0 else m k) task [(TaskT.pid, i)]

/-- The arguments of `task_create`, and what it takes from elsewhere: the entry of `task_table`, the
address of `kernel_map`, the root inode and a page. -/
structure Creation where
  target : BitVec 32
  name : List Byte
  priority : BitVec 32
  uid : BitVec 32
  index : BitVec 32
  kernelMap : BitVec 32
  rootInode : BitVec 32
  page : BitVec 32

def taskCreate (m : Bytes) (task : ℕ) (a : Creation) : Bytes :=
  let stack := task + PAGE_SIZE - 20
  let m := storeFields (getFreeTask m task a.index) stack
    [(8, 0x11111111), (4, 0x22222222), (0, 0x33333333), (12, 0x44444444), (16, a.target)]
  let m := m.write (task + TaskT.name) (a.name ++ [0])
  let m := storeFields m task
    [(TaskT.stack, BitVec.ofNat 32 stack), (TaskT.priority, a.priority), (TaskT.ticks, a.priority),
     (TaskT.state, TASK_READY), (TaskT.uid, a.uid), (TaskT.gid, 0), (TaskT.vmap, a.kernelMap),
     (TaskT.pde, KERNEL_PAGE_DIR), (TaskT.brk, KERNEL_MEMORY_SIZE), (TaskT.magic, ONIX_MAGIC),
     (TaskT.iroot, a.rootInode), (TaskT.ipwd, a.rootInode), (TaskT.pwd, a.page)]
  m.wr16 (task + TaskT.umask) 0o022

/-- `task_build_stack` -/
def taskBuildStack (l : Labels) (m : Bytes) (task : ℕ) : Bytes :=
  let iframe := task + PAGE_SIZE - 80
  let frame := iframe - 20
  let m := storeFields m iframe [(32, 0)]
  let m := storeFields m frame
    [(12, 0xaa55aa55), (8, 0xaa55aa55), (0, 0xaa55aa55), (4, 0xaa55aa55), (16, l.interruptExit)]
  storeFields m task [(TaskT.stack, BitVec.ofNat 32 frame)]

/-- What `task_fork` takes from elsewhere: the entry of `task_table`, the block for the bitmap, the
page directory and the page for the path. -/
structure Forking where
  index : BitVec 32
  vmap : BitVec 32
  pde : BitVec 32
  pwd : BitVec 32

/-- What `task_fork` stores in the page of the child. -/
def taskFork (l : Labels) (m : Bytes) (task child : ℕ) (a : Forking) : Bytes :=
  let m := copyPage (getFreeTask m child a.index) child task
  let m := storeFields m child
    [(TaskT.pid, a.index), (TaskT.ppid, m.rdWord (task + TaskT.pid)),
     (TaskT.ticks, m.rdWord (child + TaskT.priority)), (TaskT.state, TASK_READY),
     (TaskT.vmap, a.vmap), (TaskT.pde, a.pde), (TaskT.pwd, a.pwd)]
  taskBuildStack l m child

/-- What `task_to_user_mode` stores in the frame. -/
def userFields (target : BitVec 32) : List (ℕ × BitVec 32) :=
  [(52, 0x20), (4, 1), (8, 2), (12, 3), (16, 4), (20, 5), (24, 6), (28, 7), (32, 8), (36, 0),
   (48, USER_DATA_SELECTOR.setWidth 32), (44, USER_DATA_SELECTOR.setWidth 32),
   (40, USER_DATA_SELECTOR.setWidth 32),
   (76, USER_DATA_SELECTOR.setWidth 32), (64, USER_CODE_SELECTOR.setWidth 32), (56, ONIX_MAGIC),
   (60, target), (68, 0x202), (72, USER_STACK_TOP)]

/-- `task_to_user_mode` from the stores to the frame on: it leaves through `interrupt_exit`. -/
def taskToUserMode (c : Cpu) (task : ℕ) (target : BitVec 32) : Cpu :=
  let iframe := task + PAGE_SIZE - 80
  let m := storeFields c.mem iframe (userFields target)
  ({ c with mem := m }.set .esp (BitVec.ofNat 32 iframe)).exec interruptExit

/-- A C function with `args` words of arguments from its call in `s` to its return in `t`, on a stack
that ends at `top`. Other tasks may have run in between. -/
structure Returned (args top : ℕ) (s t : Cpu) : Prop where
  reg : ∀ r ∈ [Reg.ebx, .esi, .edi, .ebp, .esp], t.reg r = s.reg r
  cs : t.cs = s.cs
  ss : t.ss = s.ss
  stack : ∀ k, s.sp + 4 * args ≤ k → k < top → t.mem k = s.mem k

/-- `syscall_check` compares its argument and returns; `syscall_handler` goes on with `eax`, `ecx` and
`edx` as it leaves them. -/
structure Checked (top : ℕ) (s t : Cpu) : Prop extends Returned 1 top s t where
  all : ∀ r, t.reg r = s.reg r
  seg : t.seg = s.seg

/-- The processor, the page of the running task, the pages of the tasks in `task_table`, the
`esp0` of `tss` and `cr3`. -/
structure State where
  cpu : Cpu
  current : ℕ
  tasks : Finset ℕ
  esp0 : BitVec 32
  cr3 : BitVec 32

/-- The saved stack pointer of a task. -/
def stackOf (m : Bytes) (task : ℕ) : ℕ := (m.rdWord (task + TaskT.stack)).toNat

/-- The stack pointer is on the kernel stack of `task`. -/
def OnStack (task : ℕ) (c : Cpu) : Prop := task + TaskT.size ≤ c.sp ∧ c.sp ≤ task + PAGE_SIZE

/-- What `task_t` holds of a task for good, and its magic number. -/
def SameTask (m m' : Bytes) (task : ℕ) : Prop :=
  ∀ f ∈ [TaskT.uid, TaskT.pde, TaskT.magic], m'.rdWord (task + f) = m.rdWord (task + f)

/-- The stack of a task that is not running stays as it is. -/
structure Kept (m m' : Bytes) (task : ℕ) : Prop where
  stack : stackOf m' task = stackOf m task
  above : ∀ k, stackOf m task ≤ k → k < task + PAGE_SIZE → m' k = m k

/-- What the code of the running task does to the processor and the memory from one call of the
kernel to another: it is on its stack and leaves the stacks of the others alone. -/
structure Minds (s : State) (c : Cpu) : Prop where
  cs : c.cs = KERNEL_CODE_SELECTOR
  stack : OnStack s.current c
  kept : ∀ q ∈ s.tasks, q ≠ s.current → Kept s.cpu.mem c.mem q
  same : ∀ q ∈ s.tasks, SameTask s.cpu.mem c.mem q

/-- `task_activate` -/
def State.activate (s : State) (task : ℕ) : State :=
  let pde := s.cpu.mem.rdWord (task + TaskT.pde)
  { s with
    cr3 := if pde ≠ s.cr3 then pde else s.cr3
    esp0 := if s.cpu.mem.rdWord (task + TaskT.uid) ≠ KERNEL_USER then BitVec.ofNat 32 (task + PAGE_SIZE)
      else s.esp0 }

inductive Act where
  | code
  | switch (next : ℕ)
  | create (task : ℕ) (a : Creation)
  | fork (child : ℕ) (a : Forking)
  /-- `task_to_user_mode` stores the new page directory. -/
  | map (pde : BitVec 32)
  /-- `task_exit` and `task_waitpid` are through with a task. -/
  | reap (task : ℕ)

/-- The page of a new task. -/
structure NewPage (s : State) (task : ℕ) : Prop where
  fresh : task ∉ s.tasks
  aligned : PAGE_SIZE ∣ task
  bound : task + PAGE_SIZE < 2 ^ 32

inductive Step (l : Labels) : State → Act → State → Prop where
  | code {s : State} {c : Cpu} (h : Minds s c) : Step l s .code { s with cpu := c }
  /-- The end of `schedule`: `task_switch(next)` has been called. -/
  | switch {s : State} {next : ℕ} {back : BitVec 32} (hn : next ∈ s.tasks) (hne : next ≠ s.current)
      (hmagic : s.cpu.mem.rdWord (next + TaskT.magic) = ONIX_MAGIC)
      (hargs : s.cpu.Holds [back, BitVec.ofNat 32 next])
      (hroom : s.current + TaskT.size + 16 ≤ s.cpu.sp ∧ s.cpu.sp + 8 ≤ s.current + PAGE_SIZE) :
      Step l s (.switch next) { s.activate next with cpu := s.cpu.exec taskSwitch, current := next }
  | create {s : State} {task : ℕ} {a : Creation} (hp : NewPage s task) (hname : a.name.length < 16) :
      Step l s (.create task a)
        { s with cpu := { s.cpu with mem := taskCreate s.cpu.mem task a }, tasks := insert task s.tasks }
  | fork {s : State} {child : ℕ} {a : Forking} (hp : NewPage s child) :
      Step l s (.fork child a)
        { s with cpu := { s.cpu with mem := taskFork l s.cpu.mem s.current child a },
                 tasks := insert child s.tasks }
  | map {s : State} {pde : BitVec 32} :
      Step l s (.map pde)
        { s with cpu := { s.cpu with mem := storeFields s.cpu.mem s.current [(TaskT.pde, pde)] }, cr3 := pde }
  | reap {s : State} {task : ℕ} (h : task ≠ s.current) :
      Step l s (.reap task) { s with tasks := s.tasks.erase task }

end Onix.Context
