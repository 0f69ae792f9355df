import Onix.Spec.Memory
import Onix.Spec.Mutex

/-! `kernel/arena.c`: `kmalloc` and `kfree` on the pages of `alloc_kpage`. Of the memory there
is what can be read as an `arena_t` at the start of a page, and which blocks the free lists
hold; the node of a block on a list is the start of the block itself. -/

namespace Onix.Arena

open Function Code
open Memory (PAGE_SIZE idx allocKpage freeKpage)
open Mutex (ONIX_MAGIC)

def DESC_COUNT : ℕ := 7

/-- `sizeof(arena_t)`. -/
def ARENA_SIZE : ℕ := 16

/-- `sizeof(block_t)`. -/
def NODE_SIZE : ℕ := 8

/-- `block_size` of descriptor `i`, as `arena_init` leaves it. -/
def blockSize (i : ℕ) : ℕ := 16 * 2 ^ i

/-- `total_block` of descriptor `i`. -/
def totalBlock (i : ℕ) : ℕ := (PAGE_SIZE - ARENA_SIZE) / blockSize i

/-- `arena_t`; `desc` is a place in `descriptors`, `none` the NULL pointer. -/
structure ArenaT where
  desc : Option ℕ
  count : ℕ
  large : ℕ
  magic : ℕ
  deriving DecidableEq

/-- Sixteen 0 bytes. -/
def zeroArena : ArenaT := ⟨none, 0, 0, 0⟩

/-- `live` are the pointers handed out and not yet freed, with the sizes asked for; the code
does not read it. -/
structure State where
  m : Memory.State
  arena : ℕ → ArenaT
  freeList : ℕ → List ℕ
  live : List (ℕ × ℕ)

namespace State

variable (s : State)

def setArena (p : ℕ) (a : ArenaT) : State := { s with arena := update s.arena p a }

def setList (i : ℕ) (l : List ℕ) : State := { s with freeList := update s.freeList i l }

end State

/-- A function of `kernel/memory.c`. -/
def inMemory {α : Type} (c : Code Memory.State α) : Code State α := fun s =>
  (c s.m).andThen fun r => .next (r.1, { s with m := r.2 })

/-- The bytes from `lo` to `hi` change: `f` is what can then be read at the start of each page.
A list that loses a node so counts as a failure. -/
def store (lo hi : ℕ) (f : ℕ → ArenaT) : Code State Unit := do
  let lists ← peek State.freeList
  assert (!(List.range DESC_COUNT).any fun i =>
    (lists i).any fun b => decide (b < hi) && decide (lo < b + NODE_SIZE))
  poke fun s => { s with
    arena := fun p =>
      if p * PAGE_SIZE < hi ∧ lo < p * PAGE_SIZE + ARENA_SIZE then f p else s.arena p }

section Blocks

/-- `get_arena_block(arena, i)`. -/
def getArenaBlock (arena i : ℕ) : Code State ℕ := do
  let a ← peek fun s => s.arena (idx arena)
  let desc ← lift a.desc
  assert (i < totalBlock desc)
  return arena + ARENA_SIZE + i * blockSize desc

/-- `get_block_arena(block)`. -/
def getBlockArena (block : ℕ) : ℕ := block - block % PAGE_SIZE

/-- `list_push(&descriptors[i].free_list, block)`. -/
def listPush (i block : ℕ) : Code State Unit := do
  let l ← peek fun s => s.freeList i
  assert (!l.contains block)
  poke fun s => s.setList i (block :: l)

/-- `list_pop(&descriptors[i].free_list)`. -/
def listPop (i : ℕ) : Code State ℕ := do
  let l ← peek fun s => s.freeList i
  match l with
  | [] => assert false >>= fun _ => panic
  | block :: l => do
    poke fun s => s.setList i l
    return block

/-- The body of the loop of `kmalloc` that makes the blocks of a new page. -/
def pushBlock (arena i : ℕ) : Code State Unit := do
  let block ← getArenaBlock arena i
  let a ← peek fun s => s.arena (idx arena)
  let desc ← lift a.desc
  let l ← peek fun s => s.freeList desc
  assert (!l.contains block)
  listPush desc block
  let l ← peek fun s => s.freeList desc
  assert (l.contains block)

/-- The body of the loop of `kfree` that takes the blocks of a page off their list. -/
def removeBlock (arena i : ℕ) : Code State Unit := do
  let block ← getArenaBlock arena i
  let a ← peek fun s => s.arena (idx arena)
  let desc ← lift a.desc
  let l ← peek fun s => s.freeList desc
  assert (l.contains block)
  poke fun s => s.setList desc (l.erase block)
  let l ← peek fun s => s.freeList desc
  assert (!l.contains block)

end Blocks

/-- `div_round_up(num, size)`. -/
def divRoundUp (num size : ℕ) : ℕ := (num + size - 1) % 2 ^ 32 / size

/-- `memset(arena, 0, count * PAGE_SIZE)`. -/
def clearPages (arena count : ℕ) : Code State Unit :=
  store arena (arena + count * PAGE_SIZE % 2 ^ 32) fun _ => zeroArena

/-- The descriptor at which the loop of `kmalloc` stops. -/
def descFor (size : ℕ) : ℕ :=
  ((List.range DESC_COUNT).find? fun i => size ≤ blockSize i).getD (DESC_COUNT - 1)

/-- `kmalloc` of more than 1024 bytes. -/
def kmallocLarge (size : ℕ) : Code State ℕ := do
  let asize := (size + ARENA_SIZE) % 2 ^ 32
  let count := divRoundUp asize PAGE_SIZE
  let arena ← inMemory (allocKpage count)
  clearPages arena count
  poke fun s => s.setArena (idx arena) ⟨none, count, 1, ONIX_MAGIC⟩
  return arena + ARENA_SIZE

/-- A new page of blocks for descriptor `desc`. -/
def newArena (desc : ℕ) : Code State Unit := do
  let arena ← inMemory (allocKpage 1)
  clearPages arena 1
  poke fun s => s.setArena (idx arena) ⟨some desc, totalBlock desc, 0, ONIX_MAGIC⟩
  loop (pushBlock arena) (totalBlock desc) 0

/-- `list_pop` in `kmalloc`, and the count. -/
def takeBlock (desc : ℕ) : Code State ℕ := do
  let block ← listPop desc
  let arena := getBlockArena block
  let a ← peek fun s => s.arena (idx arena)
  assert (a.magic == ONIX_MAGIC && a.large == 0)
  poke fun s => s.setArena (idx arena) { a with count := sub32 a.count 1 }
  return block

/-- `kmalloc(size)`. -/
def kmalloc (size : ℕ) : Code State ℕ := do
  if 1024 < size then kmallocLarge size
  else do
    let desc := descFor size
    let l ← peek fun s => s.freeList desc
    if l = [] then do
      newArena desc
      takeBlock desc
    else takeBlock desc

/-- `kfree` of a block: its page is freed with its last block. -/
def kfreeSmall (arena ptr : ℕ) : Code State Unit := do
  let a ← peek fun s => s.arena (idx arena)
  let desc ← lift a.desc
  listPush desc ptr
  poke fun s => s.setArena (idx arena) { a with count := (a.count + 1) % 2 ^ 32 }
  if (a.count + 1) % 2 ^ 32 = totalBlock desc then do
    loop (removeBlock arena) (totalBlock desc) 0
    inMemory (freeKpage arena 1)
  else return ()

/-- `kfree(ptr)`. -/
def kfree (ptr : ℕ) : Code State Unit := do
  assert (ptr ≠ 0)
  let arena := getBlockArena ptr
  let a ← peek fun s => s.arena (idx arena)
  assert (a.large == 1 || a.large == 0)
  assert (a.magic == ONIX_MAGIC)
  if a.large ≠ 0 then inMemory (freeKpage arena a.count)
  else kfreeSmall arena ptr

inductive Act where
  | malloc (size : ℕ)
  | free (ptr : ℕ)
  /-- The owner of the memory at `ptr` fills it; `f` says what could be read there. -/
  | fill (ptr : ℕ) (f : ℕ → ArenaT)

/-- A call or a store by the rest of the kernel, which keeps to the memory it has. -/
def exec (s : State) : Act → Outcome State
  | .malloc size => .guard (size ≤ 2 ^ 31) <|
      (kmalloc size s).andThen fun (ptr, s) => .next { s with live := (ptr, size) :: s.live }
  | .free ptr =>
    match s.live.find? fun e => e.1 == ptr with
    | some e => (kfree ptr s).andThen fun (_, s') => .next { s' with live := s.live.erase e }
    | none => .refused
  | .fill ptr f =>
    match s.live.find? fun e => e.1 == ptr with
    | some (ptr, size) => (store ptr (ptr + size) f s).andThen fun (_, s) => .next s
    | none => .refused

def Step (s : State) (a : Act) (s' : State) : Prop := exec s a = .next s'

/-- The same, with a `malloc` of any `u32`. -/
def Call (s : State) (a : Act) (s' : State) : Prop :=
  match a with
  | .malloc size => size < 2 ^ 32 ∧
      ∃ ptr t, kmalloc size s = .next (ptr, t) ∧ s' = { t with live := (ptr, size) :: t.live }
  | a => Step s a s'

/-- Between `s` and `t` the memory from `lo` to `hi` is reserved: pages that become taken, or a
block that is in no list then, from the list it was in or from a page that becomes taken. -/
inductive Reserved (s t : State) : (lo hi : ℕ) → Prop where
  | pages {lo hi : ℕ}
    (clear : ∀ a, lo ≤ a → a < hi → bitmapTest s.m.kernelMap (idx a) = some false)
    (taken : ∀ a, lo ≤ a → a < hi → bitmapTest t.m.kernelMap (idx a) = some true) :
    Reserved s t lo hi
  | block {b d : ℕ} (desc : d < DESC_COUNT)
    (free : b ∈ s.freeList d ∨ bitmapTest s.m.kernelMap (idx b) = some false)
    (page : ∀ a, b ≤ a → a < b + blockSize d → bitmapTest t.m.kernelMap (idx a) = some true)
    (gone : ∀ d, b ∉ t.freeList d) : Reserved s t b (b + blockSize d)

/-- The `size` bytes from `p` lie in memory reserved between `s` and `t`. -/
def Within (s t : State) (p size : ℕ) : Prop :=
  ∃ lo hi, Reserved s t lo hi ∧ lo ≤ p ∧ p + size ≤ hi

/-- After `arena_init`, whatever else is in `kernel_map`, which covers 1 MB to 16 MB. -/
structure Init (s : State) : Prop where
  size : 480 ≤ s.m.kernelMap.size
  length : s.m.kernelMap.length = 480
  offset : s.m.kernelMap.offset = 256
  lists : ∀ i, s.freeList i = []
  live : s.live = []

end Onix.Arena
