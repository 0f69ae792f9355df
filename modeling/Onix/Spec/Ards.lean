import Onix.Spec.Memory
import Onix.Spec.Mutex

/-! `memory_init` of `kernel/memory.c`: the memory that the kernel will manage, from the
regions that the boot loader found. -/

namespace Onix.Ards

open Memory (PAGE_SIZE MEMORY_BASE KERNEL_MEMORY_SIZE idx)
open Mutex (ONIX_MAGIC)

def ZONE_VALID : ℕ := 1

def MULTIBOOT2_MAGIC : ℕ := 0x36d76289

def MULTIBOOT_TAG_TYPE_END : ℕ := 0

def MULTIBOOT_TAG_TYPE_MMAP : ℕ := 6

/-- No walk over the addresses of a 32-bit machine that moves on each time takes more turns. -/
def TURNS : ℕ := 2 ^ 32

def rd64 (m : Bytes) (i : ℕ) : ℕ := m.rd32 i + 2 ^ 32 * m.rd32 (i + 4)

/-- `memory_base` and `memory_size`. -/
structure Selected where
  memoryBase : ℕ
  memorySize : ℕ
  deriving DecidableEq

/-- The loop over the `ards_t` at `ptr`, `n` of them to go. -/
def ardsLoop (m : Bytes) : (n ptr : ℕ) → Selected → Selected
  | 0, _, s => s
  | n + 1, ptr, s =>
    let s :=
      if m.rd32 (ptr + 16) = ZONE_VALID ∧ s.memorySize < rd64 m (ptr + 8) then
        ⟨rd64 m ptr % 2 ^ 32, rd64 m (ptr + 8) % 2 ^ 32⟩
      else s
    ardsLoop m n ((ptr + 20) % 2 ^ 32) s

/-- The loop over the tags; `none` if it has not ended. -/
def tagLoop (m : Bytes) : (turns tag : ℕ) → Option ℕ
  | 0, _ => none
  | n + 1, tag =>
    if m.rd32 tag = MULTIBOOT_TAG_TYPE_END then some tag
    else if m.rd32 tag = MULTIBOOT_TAG_TYPE_MMAP then some tag
    else tagLoop m n ((tag + (m.rd32 (tag + 4) + 7) % 2 ^ 32 / 8 * 8) % 2 ^ 32)

/-- The loop over the entries of the tag; `none` if it has not ended. -/
def mmapLoop (m : Bytes) (tag : ℕ) : (turns entry : ℕ) → Selected → Option Selected
  | 0, _, _ => none
  | n + 1, entry, s =>
    if entry < (tag + m.rd32 (tag + 4)) % 2 ^ 32 then
      let s :=
        if m.rd32 (entry + 16) = ZONE_VALID ∧ s.memorySize < rd64 m (entry + 8) then
          ⟨rd64 m entry % 2 ^ 32, rd64 m (entry + 8) % 2 ^ 32⟩
        else s
      mmapLoop m tag n ((entry + m.rd32 (tag + 8)) % 2 ^ 32) s
    else some s

variable (m : Bytes) (magic addr : ℕ)

/-- `memory_init` up to the end of the loops; `none` is a panic, or no end. -/
def select : Option Selected :=
  if magic = ONIX_MAGIC then some (ardsLoop m (m.rd32 addr) ((addr + 4) % 2 ^ 32) ⟨0, 0⟩)
  else if magic = MULTIBOOT2_MAGIC then
    match tagLoop m TURNS ((addr + 8) % 2 ^ 32) with
    | none => none
    | some tag => mmapLoop m tag TURNS ((tag + 16) % 2 ^ 32) ⟨0, 0⟩
  else none

/-- `total_pages` and `free_pages` beside what was selected. -/
structure Pages extends Selected where
  totalPages : ℕ
  freePages : ℕ
  deriving DecidableEq

/-- `memory_init`; `none` is a failed assertion too. -/
def memoryInit : Option Pages :=
  match select m magic addr with
  | none => none
  | some s =>
    if s.memoryBase ≠ MEMORY_BASE then none
    else if s.memorySize % PAGE_SIZE ≠ 0 then none
    else if s.memorySize < KERNEL_MEMORY_SIZE then none
    else some ⟨s, idx s.memorySize + idx MEMORY_BASE, idx s.memorySize⟩

section Regions

/-- A region of memory, as the boot loader describes it. -/
structure Region where
  base : BitVec 64
  size : BitVec 64
  type : BitVec 32
  deriving DecidableEq

def Region.Valid (r : Region) : Prop := r.type.toNat = ZONE_VALID

/-- The bytes at `ptr` are those of an `ards_t` or of a `multi_mmap_entry_t` for the region. -/
structure Region.At (r : Region) (m : Bytes) (ptr : ℕ) : Prop where
  base : rd64 m ptr = r.base.toNat
  size : rd64 m (ptr + 8) = r.size.toNat
  type : m.rd32 (ptr + 16) = r.type.toNat

/-- The regions one behind the other from `ptr` on, `step` bytes each. -/
def Listed (m : Bytes) (step : ℕ) : (ptr : ℕ) → List Region → Prop
  | _, [] => True
  | ptr, r :: l => r.At m ptr ∧ Listed m step (ptr + step) l

/-- The loader's count and array at `addr`. -/
structure ArdsAt (m : Bytes) (addr : ℕ) (l : List Region) : Prop where
  count : m.rd32 addr = l.length
  regions : Listed m 20 (addr + 4) l
  fits : addr + 4 + 20 * l.length ≤ 2 ^ 32

/-- From the tag at `tag` on, other tags and then a memory map at `mmap`. -/
inductive Tags (m : Bytes) (mmap : ℕ) : (tag : ℕ) → Prop where
  | mmap (type : m.rd32 mmap = MULTIBOOT_TAG_TYPE_MMAP) : Tags m mmap mmap
  | other {tag : ℕ} (type : m.rd32 tag ≠ MULTIBOOT_TAG_TYPE_MMAP)
    (more : m.rd32 tag ≠ MULTIBOOT_TAG_TYPE_END) (size : 8 ≤ m.rd32 (tag + 4))
    (fits : tag + (m.rd32 (tag + 4) + 7) / 8 * 8 < 2 ^ 32)
    (rest : Tags m mmap (tag + (m.rd32 (tag + 4) + 7) / 8 * 8)) : Tags m mmap tag

/-- A Multiboot2 information structure at `addr` with a memory map. -/
structure MmapAt (m : Bytes) (addr tag : ℕ) (l : List Region) : Prop where
  start : addr + 8 < 2 ^ 32
  tags : Tags m tag (addr + 8)
  entry : 24 ≤ m.rd32 (tag + 8)
  size : m.rd32 (tag + 4) = 16 + m.rd32 (tag + 8) * l.length
  regions : Listed m (m.rd32 (tag + 8)) (tag + 16) l
  fits : tag + 16 + m.rd32 (tag + 8) * l.length < 2 ^ 32

/-- `r` is the first of the valid regions of `l` with the largest size. -/
def Largest (l : List Region) (r : Region) : Prop :=
  ∃ xs ys, l = xs ++ r :: ys ∧ r.Valid ∧ (∀ x ∈ xs, x.Valid → x.size < r.size) ∧
    ∀ y ∈ ys, y.Valid → y.size ≤ r.size

end Regions

end Onix.Ards
