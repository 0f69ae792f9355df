import Onix.Lib.Code
import Onix.Spec.Bitmap

/-! `kernel/memory.c` from paging on, with what `kernel/task.c` does to address
spaces. Memory is kept by frames of 1024 words, a word as the fields of a
`page_entry_t`. The kernel's own pages are mapped one to one, so an address below
`KERNEL_MEMORY_SIZE` other than page 0 is its physical address; user pages and
page tables are reached through the current tables. `kmalloc` is left out: the
pages it takes are taken by `Act.kalloc`. -/

namespace Onix.Memory

open Function Code

def PAGE_SIZE : ℕ := 0x1000

def MEMORY_BASE : ℕ := 0x100000

def KERNEL_MEMORY_SIZE : ℕ := 0x1000000

def USER_STACK_TOP : ℕ := 0x8000000

def USER_STACK_BOTTOM : ℕ := USER_STACK_TOP - 0x200000

def KERNEL_PAGE_DIR : ℕ := 0x1000

def KERNEL_PAGE_TABLE : List ℕ := [0x2000, 0x3000, 0x4000, 0x5000]

def PDE_MASK : ℕ := 0xffc00000

def NR_TASKS : ℕ := 64

def KERNEL_USER : ℕ := 0

/-- `IDX(addr)`. -/
def idx (addr : ℕ) : ℕ := addr / PAGE_SIZE

/-- `DIDX(addr)`. -/
def didx (addr : ℕ) : ℕ := addr / 2 ^ 22 % 1024

/-- `TIDX(addr)`. -/
def tidx (addr : ℕ) : ℕ := addr / 2 ^ 12 % 1024

/-- `PAGE(idx)`. -/
def pageAddr (idx : ℕ) : ℕ := idx * PAGE_SIZE % 2 ^ 32

/-- `PDE_MASK | (didx << 12)`; the two have no bit in common. -/
def tableAddr (didx : ℕ) : ℕ := PDE_MASK + didx * PAGE_SIZE

/-- `page_entry_t`: a word of memory. -/
structure PageEntryT where
  present : Bool
  write : Bool
  user : Bool
  pwt : Bool
  pcd : Bool
  accessed : Bool
  dirty : Bool
  pat : Bool
  global : Bool
  ignored : BitVec 3
  index : BitVec 20
  deriving DecidableEq

/-- The word 0. -/
def zeroEntry : PageEntryT := ⟨false, false, false, false, false, false, false, false, false, 0, 0⟩

/-- `entry_init`. -/
def entryInit (index : ℕ) : PageEntryT :=
  { zeroEntry with present := true, write := true, user := true, index := BitVec.ofNat 20 index }

abbrev Page := ℕ → PageEntryT

/-- The fields of `task_t` that are about memory; `vmap` is `none` where it is
`&kernel_map`. -/
structure TaskT where
  uid : ℕ
  pde : ℕ
  brk : ℕ
  vmap : Option BitmapT

structure State where
  page : ℕ → Page
  memoryMap : ℕ → ℕ
  startPage : ℕ
  totalPages : ℕ
  freePages : ℕ
  kernelMap : BitmapT
  cr3 : ℕ
  tasks : ℕ → Option TaskT
  running : ℕ

namespace State

variable (s : State)

def setPage (frame : ℕ) (p : Page) : State := { s with page := update s.page frame p }

def setEntry (frame i : ℕ) (e : PageEntryT) : State :=
  s.setPage frame (update (s.page frame) i e)

def setCount (i v : ℕ) : State := { s with memoryMap := update s.memoryMap i v }

def setTask (t : ℕ) (task : TaskT) : State := { s with tasks := update s.tasks t (some task) }

/-- The frame that the processor finds for an address in the current tables. -/
def walk (vaddr : ℕ) : Option ℕ :=
  let dentry := s.page (idx s.cr3) (didx vaddr)
  if dentry.present then
    let entry := s.page dentry.index.toNat (tidx vaddr)
    if entry.present then some entry.index.toNat else none
  else none

end State

/-- The frame of an address that the kernel goes on to use; a page fault there
ends in the assertions of `page_fault`. -/
def frame (vaddr : ℕ) : Code State ℕ := fun s => lift (s.walk vaddr) s

/-- `running_task()`. -/
def runningTask : Code State TaskT := fun s =>
  match s.tasks s.running with
  | some task => .next (task, s)
  | none => .refused

section Frames

/-- The search of `get_one_page`: `n` frames from `i` on. -/
def scanFrames (memoryMap : ℕ → ℕ) : ℕ → ℕ → Option ℕ
  | 0, _ => none
  | n + 1, i => if memoryMap i = 0 then some i else scanFrames memoryMap n (i + 1)

/-- `get_one_page`; `free_pages >= 0` holds of any `u32`. -/
def getOnePage : Code State ℕ := do
  let s ← peek id
  match scanFrames s.memoryMap (s.totalPages - s.startPage) s.startPage with
  | none => panic
  | some i => do
    poke fun s => { s.setCount i 1 with freePages := sub32 s.freePages 1 }
    return pageAddr i

/-- `put_page(addr)`. -/
def putPage (addr : ℕ) : Code State Unit := do
  assert (addr % PAGE_SIZE = 0)
  let s ← peek id
  assert (s.startPage ≤ idx addr && idx addr < s.totalPages)
  assert (1 ≤ s.memoryMap (idx addr))
  poke fun s => s.setCount (idx addr) (s.memoryMap (idx addr) - 1)
  poke fun s =>
    if s.memoryMap (idx addr) = 0 then { s with freePages := (s.freePages + 1) % 2 ^ 32 } else s
  let s ← peek id
  assert (0 < s.freePages && s.freePages < s.totalPages)

/-- `get_pte(vaddr, create)`: the frame of the table. -/
def getPte (vaddr : ℕ) (create : Bool) : Code State ℕ := do
  let pde ← frame 0xfffff000
  let entry ← peek fun s => s.page pde (didx vaddr)
  assert (create || entry.present)
  if entry.present then frame (tableAddr (didx vaddr))
  else do
    let page ← getOnePage
    poke fun s => s.setEntry pde (didx vaddr) (entryInit (idx page))
    let table ← frame (tableAddr (didx vaddr))
    poke fun s => s.setPage table fun _ => zeroEntry
    return table

end Frames

section KernelPages

/-- `alloc_kpage(count)`. -/
def allocKpage (count : ℕ) : Code State ℕ := do
  assert (0 < count)
  let s ← peek id
  let (index, map) ← lift (bitmapScan s.kernelMap count)
  if index = EOF then panic
  else do
    poke fun s => { s with kernelMap := map }
    return pageAddr index

/-- The loop of `reset_page`. -/
def resetPages (map : BitmapT) (index : ℕ) : (count i : ℕ) → Option BitmapT
  | 0, _ => some map
  | n + 1, i =>
    match bitmapTest map (index + i) with
    | some true =>
      match bitmapSet map (index + i) false with
      | some map => resetPages map index n (i + 1)
      | none => none
    | _ => none

/-- `free_kpage(vaddr, count)`. -/
def freeKpage (vaddr count : ℕ) : Code State Unit := do
  assert (vaddr % PAGE_SIZE = 0)
  assert (0 < count)
  let s ← peek id
  let map ← lift (resetPages s.kernelMap (idx vaddr) count 0)
  poke fun s => { s with kernelMap := map }

end KernelPages

section Mapping

/-- The bitmap that `task->vmap` points to. -/
def State.vmap (s : State) (task : TaskT) : BitmapT := task.vmap.getD s.kernelMap

/-- `bitmap_test(task->vmap, index)` for the running task. -/
def vmapTest (index : ℕ) : Code State Bool := do
  let task ← runningTask
  let map ← peek fun s => s.vmap task
  lift (bitmapTest map index)

/-- `bitmap_set(task->vmap, index, value)` for the running task. -/
def vmapSet (index : ℕ) (value : Bool) : Code State Unit := do
  let task ← runningTask
  match task.vmap with
  | none => do
    let map ← peek State.kernelMap
    let map ← lift (bitmapSet map index value)
    poke fun s => { s with kernelMap := map }
  | some map => do
    let map ← lift (bitmapSet map index value)
    poke fun s => s.setTask s.running { task with vmap := some map }

/-- `link_page(vaddr)`. -/
def linkPage (vaddr : ℕ) : Code State Unit := do
  assert (vaddr % PAGE_SIZE = 0)
  let pte ← getPte vaddr true
  let entry ← peek fun s => s.page pte (tidx vaddr)
  let b ← vmapTest (idx vaddr)
  if entry.present then assert b
  else do
    assert (!b)
    vmapSet (idx vaddr) true
    let paddr ← getOnePage
    poke fun s => s.setEntry pte (tidx vaddr) (entryInit (idx paddr))

/-- `unlink_page(vaddr)`. -/
def unlinkPage (vaddr : ℕ) : Code State Unit := do
  assert (vaddr % PAGE_SIZE = 0)
  let pte ← getPte vaddr true
  let entry ← peek fun s => s.page pte (tidx vaddr)
  let b ← vmapTest (idx vaddr)
  if !entry.present then assert (!b)
  else do
    assert b
    poke fun s => s.setEntry pte (tidx vaddr) { entry with present := false }
    vmapSet (idx vaddr) false
    putPage (pageAddr entry.index.toNat)

end Mapping

section Copy

/-- `copy_page(page)`. -/
def copyPage (page : ℕ) : Code State ℕ := do
  let paddr ← getOnePage
  let pte ← getPte 0 false
  poke fun s => s.setEntry pte (tidx 0) (entryInit (idx paddr))
  let dst ← frame 0
  let src ← frame page
  poke fun s => s.setPage dst (s.page src)
  poke fun s => s.setEntry pte (tidx 0) { s.page pte (tidx 0) with present := false }
  return paddr

/-- The body of the inner loop of `copy_pde`. -/
def shareEntry (table tidx : ℕ) : Code State Unit := do
  let entry ← peek fun s => s.page table tidx
  if entry.present then do
    let count ← peek fun s => s.memoryMap entry.index.toNat
    assert (0 < count)
    poke fun s => s.setEntry table tidx { entry with write := false }
    poke fun s => s.setCount entry.index.toNat ((count + 1) % 2 ^ 8)
    assert ((count + 1) % 2 ^ 8 < 255)
  else pure ()

/-- The body of the outer loop of `copy_pde`. -/
def copyTable (pde didx : ℕ) : Code State Unit := do
  let dentry ← peek fun s => s.page (idx pde) didx
  if dentry.present then do
    let table ← frame (tableAddr didx)
    loop (shareEntry table) 1024 0
    let paddr ← copyPage (tableAddr didx)
    poke fun s => s.setEntry (idx pde) didx
      { s.page (idx pde) didx with index := BitVec.ofNat 20 (idx paddr) }
  else pure ()

/-- `copy_pde`. -/
def copyPde : Code State ℕ := do
  let task ← runningTask
  let pde ← allocKpage 1
  poke fun s => s.setPage (idx pde) (s.page (idx task.pde))
  poke fun s => s.setEntry (idx pde) 1023 (entryInit (idx pde))
  loop (copyTable pde) (1023 - KERNEL_PAGE_TABLE.length) KERNEL_PAGE_TABLE.length
  poke fun s => { s with cr3 := task.pde }
  return pde

end Copy

section Free

/-- The body of the inner loop of `free_pde`. -/
def freeEntry (table tidx : ℕ) : Code State Unit := do
  let entry ← peek fun s => s.page table tidx
  if entry.present then do
    let count ← peek fun s => s.memoryMap entry.index.toNat
    assert (0 < count)
    putPage (pageAddr entry.index.toNat)
  else pure ()

/-- The body of the outer loop of `free_pde`. -/
def freeTable (pde didx : ℕ) : Code State Unit := do
  let dentry ← peek fun s => s.page pde didx
  if dentry.present then do
    let table ← frame (tableAddr didx)
    loop (freeEntry table) 1024 0
    putPage (pageAddr dentry.index.toNat)
  else pure ()

/-- `free_pde`. -/
def freePde : Code State Unit := do
  let task ← runningTask
  assert (task.uid ≠ KERNEL_USER)
  let pde ← frame 0xfffff000
  loop (freeTable pde) (KERNEL_PAGE_TABLE.length - 2) 2
  freeKpage task.pde 1

end Free

/-- `page_fault` with the fault address and the bits `present` and `write` of
the error code. -/
def pageFault (vaddr : ℕ) (present write : Bool) : Code State Unit := do
  let task ← runningTask
  assert (KERNEL_MEMORY_SIZE ≤ vaddr && vaddr < USER_STACK_TOP)
  if present then do
    assert write
    let pte ← getPte vaddr false
    let entry ← peek fun s => s.page pte (tidx vaddr)
    assert entry.present
    let count ← peek fun s => s.memoryMap entry.index.toNat
    assert (0 < count)
    if count = 1 then poke fun s => s.setEntry pte (tidx vaddr) { entry with write := true }
    else do
      let paddr ← copyPage (pageAddr (idx vaddr))
      poke fun s => s.setCount entry.index.toNat (s.memoryMap entry.index.toNat - 1)
      poke fun s => s.setEntry pte (tidx vaddr) (entryInit (idx paddr))
  else if vaddr < task.brk || USER_STACK_BOTTOM ≤ vaddr then linkPage (pageAddr (idx vaddr))
  else panic

/-- The loop of `sys_brk`, whose `page == PAGE_SIZE` leaves `page` as it is: it
never ends, whatever the fuel. -/
def brkLoop (page oldBrk : ℕ) : ℕ → Code State Unit
  | 0 => panic
  | fuel + 1 => do
    if page < oldBrk then do
      unlinkPage page
      brkLoop page oldBrk fuel
    else pure ()

/-- `sys_brk(addr)`. -/
def sysBrk (brk fuel : ℕ) : Code State ℤ := do
  assert (brk % PAGE_SIZE = 0)
  let task ← runningTask
  assert (task.uid ≠ KERNEL_USER)
  assert (KERNEL_MEMORY_SIZE ≤ brk && brk < USER_STACK_BOTTOM)
  let setBrk : Code State ℤ := do
    let task ← runningTask
    poke fun s => s.setTask s.running { task with brk := brk }
    return 0
  if brk < task.brk then do
    brkLoop brk task.brk fuel
    setBrk
  else do
    let free ← peek State.freePages
    if free < idx (brk - task.brk) then return -1 else setBrk

section Task

/-- The free slot that `get_free_task` finds among `n` from `i` on. -/
def scanTasks (tasks : ℕ → Option TaskT) : ℕ → ℕ → Option ℕ
  | 0, _ => none
  | n + 1, i => if (tasks i).isNone then some i else scanTasks tasks n (i + 1)

/-- `get_free_task`: the slot; its page is taken. -/
def getFreeTask : Code State ℕ := do
  let s ← peek id
  match scanTasks s.tasks NR_TASKS 0 with
  | none => panic
  | some i => do
    let _ ← allocKpage 1
    return i

/-- `task_create`. -/
def taskCreate (uid : ℕ) : Code State Unit := do
  let i ← getFreeTask
  poke fun s => s.setTask i ⟨uid, KERNEL_PAGE_DIR, KERNEL_MEMORY_SIZE, none⟩
  let _ ← allocKpage 1

/-- `task_to_user_mode`. -/
def taskToUserMode : Code State Unit := do
  let task ← runningTask
  let _ ← allocKpage 1
  let map := bitmapMake (fun _ => 0) PAGE_SIZE PAGE_SIZE (KERNEL_MEMORY_SIZE / PAGE_SIZE)
  poke fun s => s.setTask s.running { task with vmap := some map }
  let pde ← copyPde
  poke fun s => s.setTask s.running { task with vmap := some map, pde := pde }
  poke fun s => { s with cr3 := pde }

/-- `task_fork`: the child's slot. -/
def taskFork : Code State ℕ := do
  let task ← runningTask
  let i ← getFreeTask
  let _ ← allocKpage 1
  let pde ← copyPde
  let _ ← allocKpage 1
  poke fun s => s.setTask i { task with vmap := some (s.vmap task), pde := pde }
  return i

/-- The part of `task_exit` up to `free_pde`. -/
def taskExit : Code State Unit := freePde

/-- The part of `schedule` and `task_activate` that is about memory. -/
def dispatch (t : ℕ) : Code State Unit := do
  poke fun s => { s with running := t }
  let task ← runningTask
  poke fun s => { s with cr3 := task.pde }

end Task

section User

/-- The entry that the processor uses for a user's access under a directory. -/
def State.lookup (s : State) (pde vaddr : ℕ) : Option (PageEntryT × PageEntryT) :=
  let dentry := s.page (idx pde) (didx vaddr)
  if dentry.present then
    let entry := s.page dentry.index.toNat (tidx vaddr)
    if entry.present then some (dentry, entry) else none
  else none

/-- The word that the task's user code reads at an address without a fault. -/
def State.read (s : State) (t vaddr : ℕ) : Option PageEntryT := do
  let task ← s.tasks t
  let (dentry, entry) ← s.lookup task.pde vaddr
  if dentry.user && entry.user then some (s.page entry.index.toNat (vaddr / 4 % 1024)) else none

/-- A load by user code: nothing, or a page fault. -/
def load (vaddr : ℕ) : Code State Unit := fun s =>
  match s.lookup s.cr3 vaddr with
  | none => pageFault vaddr false false s
  | some (dentry, entry) =>
    if dentry.user && entry.user then .next ((), s) else pageFault vaddr true false s

/-- A store by user code, or the page fault after which it is tried again. -/
def store (vaddr : ℕ) (word : PageEntryT) : Code State Unit := fun s =>
  match s.lookup s.cr3 vaddr with
  | none => pageFault vaddr false true s
  | some (dentry, entry) =>
    if dentry.user && entry.user && dentry.write && entry.write then
      .next ((), s.setEntry entry.index.toNat (vaddr / 4 % 1024) word)
    else pageFault vaddr true true s

end User

/-- `kernel_map` after `memory_map_init`. -/
def kernelMapInit (mapPages : ℕ) : BitmapT :=
  let length := (idx KERNEL_MEMORY_SIZE - idx MEMORY_BASE) / 8
  let map := bitmapMake (fun _ => 0) length length (idx MEMORY_BASE)
  match bitmapScan map mapPages with
  | some (_, map) => map
  | none => map

/-- The state that `memory_init` (with this much memory), `memory_map_init` and
`mapping_init` leave. The contents of free frames are whatever they were. -/
def boot (memorySize : ℕ) (garbage : ℕ → Page) : State :=
  let totalPages := idx memorySize + idx MEMORY_BASE
  let mapPages := (totalPages + PAGE_SIZE - 1) / PAGE_SIZE
  let startPage := idx MEMORY_BASE + mapPages
  { page := fun f i =>
      if f = idx KERNEL_PAGE_DIR then
        if i < KERNEL_PAGE_TABLE.length then entryInit (2 + i)
        else if i = 1023 then entryInit (idx KERNEL_PAGE_DIR)
        else zeroEntry
      else if 2 ≤ f ∧ f < 2 + KERNEL_PAGE_TABLE.length then
        if f = 2 ∧ i = 0 then zeroEntry else entryInit ((f - 2) * 1024 + i)
      else garbage f i
    memoryMap := fun i => if i < startPage ∨ i < 4096 then 1 else 0
    startPage := startPage
    totalPages := totalPages
    freePages := idx memorySize - mapPages
    kernelMap := kernelMapInit mapPages
    cr3 := KERNEL_PAGE_DIR
    tasks := fun _ => none
    running := 0 }

/-- What happens in the system, as far as memory is concerned. `kalloc` and
`kfree` are kernel pages of other parts of the kernel. -/
inductive Act where
  | create (uid : ℕ)
  | toUser
  | dispatch (t : ℕ)
  | fork
  | link (vaddr : ℕ)
  | unlink (vaddr : ℕ)
  | load (vaddr : ℕ)
  | store (vaddr : ℕ) (word : PageEntryT)
  | brk (addr fuel : ℕ)
  | kalloc (count : ℕ)
  | kfree (vaddr count : ℕ)

/-- One action; the result of a call does not matter here. -/
def run {α : Type} (m : Code State α) (s : State) : Outcome State := (m s).andThen fun r => .next r.2

def exec (s : State) : Act → Outcome State
  | .create uid => run (taskCreate uid) s
  | .toUser => run taskToUserMode s
  | .dispatch t => run (Memory.dispatch t) s
  | .fork => run taskFork s
  | .link vaddr => run (linkPage vaddr) s
  | .unlink vaddr => run (unlinkPage vaddr) s
  | .load vaddr => run (Memory.load vaddr) s
  | .store vaddr word => run (Memory.store vaddr word) s
  | .brk addr fuel => run (sysBrk addr fuel) s
  | .kalloc count => run (allocKpage count) s
  | .kfree vaddr count => run (freeKpage vaddr count) s

def Step (s : State) (a : Act) (t : State) : Prop := exec s a = .next t

end Onix.Memory
