import Onix.Spec.Memory

/-! `copy_page` on a processor that keeps the translations it has made: one stays
in use until `flush_tlb` of its address or `set_cr3`. -/

namespace Onix.Tlb

open Function Code Memory

/-- What a call of `copy_page` was given and what it returned. -/
structure Copy where
  source : Page
  result : Page

/-- The memory, the translations that are in use, by page, and the copies made so far. -/
structure State where
  mem : Memory.State
  tlb : ℕ → Option ℕ
  copies : List Copy

def start (m : Memory.State) : State := ⟨m, fun _ => none, []⟩

namespace State

variable (s : State)

/-- The frame that the processor uses for an address. -/
def translate (vaddr : ℕ) : Option ℕ := (s.tlb (idx vaddr)).or (s.mem.walk vaddr)

def withMem (m : Memory.State) : State := { s with mem := m }

def keep (vaddr frame : ℕ) : State := { s with tlb := update s.tlb (idx vaddr) (some frame) }

end State

/-- The frame of an address that the kernel goes on to use. -/
def frame (vaddr : ℕ) : Code State ℕ := do
  let found ← peek fun s => s.translate vaddr
  let f ← lift found
  poke fun s => s.keep vaddr f
  return f

/-- Code that goes through no address of its own. -/
def onMem {α : Type} (m : Code Memory.State α) : Code State α := fun s =>
  (m s.mem).andThen fun r => .next (r.1, s.withMem r.2)

/-- `get_pte(vaddr, false)`: the frame of the table. -/
def getPte (vaddr : ℕ) : Code State ℕ := do
  let pde ← frame 0xfffff000
  let entry ← peek fun s => s.mem.page pde (didx vaddr)
  assert entry.present
  frame (tableAddr (didx vaddr))

/-- `copy_page(page)`. -/
def copyPage (page : ℕ) : Code State ℕ := do
  let paddr ← onMem getOnePage
  let pte ← getPte 0
  onMem (poke fun m => m.setEntry pte (tidx 0) (entryInit (idx paddr)))
  let dst ← frame 0
  let src ← frame page
  onMem (poke fun m => m.setPage dst (m.page src))
  onMem (poke fun m => m.setEntry pte (tidx 0) { m.page pte (tidx 0) with present := false })
  return paddr

/-- The contents of the page at an address. -/
def contents (page : ℕ) : Code State Page := do
  let found ← peek fun s => (s.translate page).map s.mem.page
  lift found

/-- A call of `copy_page` that is put on record. -/
def copyCall (page : ℕ) : Code State Unit := do
  let source ← contents page
  let paddr ← copyPage page
  poke fun s => { s with copies := ⟨source, s.mem.page (idx paddr)⟩ :: s.copies }

/-- The pages that `copy_pde` and `page_fault` pass: page tables, and pages of
user memory. -/
def Source (page : ℕ) : Prop :=
  page % PAGE_SIZE = 0 ∧ (KERNEL_MEMORY_SIZE ≤ page ∧ page < USER_STACK_TOP ∨
    tableAddr KERNEL_PAGE_TABLE.length ≤ page ∧ page < tableAddr 1023)

instance : DecidablePred Source := fun page => inferInstanceAs (Decidable
  (page % PAGE_SIZE = 0 ∧ (KERNEL_MEMORY_SIZE ≤ page ∧ page < USER_STACK_TOP ∨
    tableAddr KERNEL_PAGE_TABLE.length ≤ page ∧ page < tableAddr 1023)))

/-- What happens: a call of `copy_page`, a flush, a new directory, the translation
of an address that is used, or a change of memory by the rest of the kernel. -/
inductive Act where
  | copy (page : ℕ)
  | flushTlb (vaddr : ℕ)
  | setCr3 (pde : ℕ)
  | access (vaddr : ℕ)
  | other (mem : Memory.State)

end Onix.Tlb
