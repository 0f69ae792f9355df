import Onix.Spec.Memory

/-! Stores of the kernel into user memory, such as the `memcpy` of `inode_read` into the
buffer of `sys_read`: they run in ring 0, where the processor heeds the write bit of an
entry only if `CR0.WP` is set. -/

namespace Onix.Memory

open Code

/-- `CR0` with the bits that `loader.s` and `enable_page` set. -/
def cr0 : ℕ := 1 ||| 0x80000000

/-- `CR0.WP`. -/
def writeProtect : Bool := cr0.testBit 16

/-- A store by the kernel to a user address, or the page fault after which it is tried
again. -/
def kernelStore (vaddr : ℕ) (word : PageEntryT) : Code State Unit := fun s =>
  match s.lookup s.cr3 vaddr with
  | none => pageFault vaddr false true s
  | some (dentry, entry) =>
    if writeProtect && !(dentry.write && entry.write) then pageFault vaddr true true s
    else .next ((), s.setEntry entry.index.toNat (vaddr / 4 % 1024) word)

/-- What happens in the system with the copies of system calls into a user buffer. -/
inductive CallAct where
  | act (a : Act)
  /-- A word of the copy. -/
  | copy (vaddr : ℕ) (word : PageEntryT)

def execCall (s : State) : CallAct → Outcome State
  | .act a => exec s a
  | .copy vaddr word => run (kernelStore vaddr word) s

def CallStep (s : State) (a : CallAct) (t : State) : Prop := execCall s a = .next t

end Onix.Memory
