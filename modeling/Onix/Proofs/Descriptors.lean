import Onix.Sanity.FileOps
import Onix.Spec.Image

/-! The descriptor and the count as a process passes them, 32 bits each: which of them
`sys_read`, `sys_write`, `sys_lseek`, `sys_close` and `sys_readdir` come back from. -/

namespace Onix.Fs

open Function Prog Cstr

section Entry

def STDIN : ℤ := 0

def STDOUT : ℤ := 1

def STDERR : ℤ := 2

/-- `keyboard_read` and `console_write`, which take the count as a `u32`: from 2 ^ 31 on they
run out of user memory. -/
def deviceChars (count ret : ℤ) : Prog State ℤ := do
  assert (0 ≤ count)
  return ret

/-- `sys_read`. An index outside `task->files` reads what lies there, and the rest of the call
says nothing. -/
def readFd (fd count : ℤ) : Prog State ℤ := do
  if fd = STDIN then deviceChars count count
  else do
    let bytes ← sysRead fd.toNat count.toNat
    return bytes.elim (-1) fun bytes => i32 bytes.length

/-- `sys_write` of the bytes at `buf`; `console_write` counts one too many. -/
def writeFd (fd : ℤ) (buf : ℕ → Byte) (count : ℤ) : Prog State ℤ := do
  if fd = STDOUT ∨ fd = STDERR then deviceChars count (count + 1)
  else do
    let len ← sysWrite fd.toNat ((List.range count.toNat).map buf)
    return i32 len

/-- The calls with their arguments as the process passes them; `sys_write` alone takes its
descriptor as an `unsigned int`. -/
inductive FdCall where
  | read (fd count : BitVec 32)
  | write (fd : BitVec 32) (buf : ℕ → Byte) (count : BitVec 32)
  | lseek (fd offset whence : BitVec 32)
  | close (fd : BitVec 32)
  | readdir (fd count : BitVec 32)

namespace FdCall

/-- The descriptor as the call takes it. -/
def fd : FdCall → ℤ
  | .read fd _ | .lseek fd _ _ | .close fd | .readdir fd _ => fd.toInt
  | .write fd _ _ => fd.toNat

/-- How many bytes the call asks for. -/
def count : FdCall → ℤ
  | .read _ count | .write _ _ count => count.toInt
  | .lseek _ _ _ | .close _ | .readdir _ _ => DENTRY_SIZE

/-- Whether the call reads `task->files[fd]`. -/
def reads : FdCall → Bool
  | .read fd _ | .readdir fd _ => fd.toInt ≠ STDIN
  | .write fd _ _ => ¬ ((fd.toNat : ℤ) = STDOUT ∨ (fd.toNat : ℤ) = STDERR)
  | .lseek fd _ _ | .close fd => fd.toInt < TASK_FILE_NR

def run : FdCall → Prog State ℤ
  | .read fd count => readFd fd.toInt count.toInt
  | .write fd buf count => writeFd fd.toNat buf count.toInt
  | .lseek fd offset whence => do
    assert (fd.toInt < TASK_FILE_NR)
    sysLseek fd.toInt.toNat offset.toInt whence.toNat
  | .close fd => do
    assert (fd.toInt < TASK_FILE_NR)
    sysClose fd.toInt.toNat
    return 0
  | .readdir fd _ => readFd fd.toInt DENTRY_SIZE

end FdCall

end Entry

section Returns

variable {s t : State} {fd file inode n whence : ℕ} {offset : ℤ}

end Returns

section Calls

variable {s t : State} {fd count r : ℤ}

/-- What a call on a descriptor has to come back from and with, as `ComesBack` says it. -/
def Back (s : State) (fd count : ℤ) (reads : Prop) (m : Prog State ℤ) : Prop :=
  (reads → 0 ≤ fd ∧ fd < TASK_FILE_NR) ∧ ∃ r t, m s = some (r, t) ∧
    ((reads ∧ s.task.files fd.toNat = none) ∨ count ≤ 0 → r < 0)

end Calls

end Onix.Fs
