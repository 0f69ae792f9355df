import Onix.Lib.Run
import Onix.Spec.File

/-! The calls of `syscall_table` in `kernel/gate.c` that use the file system, made by any of the
tasks. A call runs to its end. -/

namespace Onix.Fs

open Function Prog Cstr

/-- `child` is the slot that `get_free_task` finds. -/
inductive SysCall where
  | open (filename : Str) (flags mode : ℕ)
  | creat (filename : Str) (mode : ℕ)
  | close (fd : ℕ)
  | read (fd count : ℕ)
  | write (fd : ℕ) (bytes : List Byte)
  | readdir (fd : ℕ)
  | lseek (fd : ℕ) (offset : ℤ) (whence : ℕ)
  | mkdir (pathname : Str) (mode : ℕ)
  | rmdir (pathname : Str)
  | link (oldname newname : Str)
  | unlink (filename : Str)
  | chdir (pathname : Str)
  | chroot (pathname : Str)
  | umask (mask : ℕ)
  | fork (child : ℕ)
  | exit

/-- `sys_umask(mask)`. -/
def sysUmask (mask : ℕ) : Prog State ℕ := do
  let old ← peek fun s => s.task.umask
  poke fun s => s.modTask fun t => { t with umask := mask &&& 0o777 }
  return old

/-- The call with its result put aside. -/
def SysCall.run : SysCall → Prog State Unit
  | .open filename flags mode => quietly (sysOpen filename flags mode)
  | creat filename mode => quietly (sysCreat filename mode)
  | close fd => sysClose fd
  | read fd count => quietly (sysRead fd count)
  | write fd bytes => quietly (sysWrite fd bytes)
  | readdir fd => quietly (sysReaddir fd)
  | lseek fd offset whence => quietly (sysLseek fd offset whence)
  | mkdir pathname mode => quietly (sysMkdir pathname mode)
  | rmdir pathname => quietly (sysRmdir pathname)
  | link oldname newname => quietly (sysLink oldname newname)
  | unlink filename => quietly (sysUnlink filename)
  | chdir pathname => quietly (sysChdir pathname)
  | chroot pathname => quietly (sysChroot pathname)
  | umask mask => quietly (sysUmask mask)
  | fork child => forkRefs child
  | exit => exitRefs
where
  quietly {α : Type} (m : Prog State α) : Prog State Unit := do
    let _ ← m
    return ()

/-- The descriptor is neither the keyboard's nor the console's and an index of `task->files`. -/
def SysCall.Checked : SysCall → Prop
  | read fd _ | write fd _ | readdir fd => 3 ≤ fd ∧ fd < TASK_FILE_NR
  | _ => True

/-- The task in slot `i` is running. -/
def State.enter (s : State) (i : ℕ) : State := { s with running := i }

end Onix.Fs
