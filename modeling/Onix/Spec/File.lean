import Onix.Spec.Namei

/-! `fs/file.c`: the table of open files, the system calls on descriptors, and what
`fork` and `exit` of `kernel/task.c` do with the references of a task. -/

namespace Onix.Fs

open Function Prog Cstr

def FILE_NR : ℕ := 128

def TASK_FILE_NR : ℕ := 16

def State.modFile (s : State) (file : ℕ) (f : FileT → FileT) : State :=
  { s with fileTable := update s.fileTable file (f (s.fileTable file)) }

def TaskT.setFd (task : TaskT) (fd : ℕ) (file : Option ℕ) : TaskT :=
  { task with files := update task.files fd file }

/-- `get_file()`. -/
def getFile : Prog State ℕ := do
  let table ← peek State.fileTable
  let file ← lift ((List.range' 3 (FILE_NR - 3)).find? fun i => (table i).count = 0)
  poke fun s => s.modFile file fun f => { f with count := 1 }
  return file

/-- `put_file(file)`. -/
def putFile (file : ℕ) : Prog State Unit := do
  assert (0 < (← peek fun s => (s.fileTable file).count))
  poke fun s => s.modFile file fun f => { f with count := f.count - 1 }
  when ((← peek fun s => (s.fileTable file).count) = 0)
    (do iput (← peek fun s => (s.fileTable file).inode))

/-- `task_get_fd(task)`. -/
def taskGetFd : Prog State ℕ := do
  let task ← peek State.task
  lift ((List.range' 3 (TASK_FILE_NR - 3)).find? fun fd => (task.files fd).isNone)

/-- `task_put_fd(task, fd)`. -/
def taskPutFd (fd : ℕ) : Prog State Unit :=
  if fd < 3 then pure ()
  else do
    assert (fd < TASK_FILE_NR)
    poke fun s => s.modTask fun t => t.setFd fd none

/-- The value of an `int32`. -/
def i32 (n : ℤ) : ℤ := n.bmod (2 ^ 32)

/-- What `sys_open` does with the inode that `inode_open` has returned. -/
def openFile (inode flags : ℕ) : Prog State ℕ := do
  let fd ← taskGetFd
  let file ← getFile
  assert ((← peek fun s => s.task.files fd) = none)
  poke fun s => s.modTask fun t => t.setFd fd (some file)
  poke fun s => s.modFile file fun _ => ⟨some inode, 1, 0, flags, s.mode inode⟩
  when (flags &&& O_APPEND ≠ 0)
    (poke fun s => s.modFile file fun f => { f with offset := i32 (s.size inode) })
  return fd

/-- `sys_open(filename, flags, mode)`. -/
def sysOpen (filename : Str) (flags mode : ℕ) : Prog State ℕ := do
  match ← inodeOpen filename flags mode with
  | none => return EOF
  | some inode => openFile inode flags

/-- `sys_creat(filename, mode)`. -/
def sysCreat (filename : Str) (mode : ℕ) : Prog State ℕ := sysOpen filename (O_CREAT ||| O_TRUNC) mode

/-- `sys_close(fd)`. -/
def sysClose (fd : ℕ) : Prog State Unit := do
  assert (fd < TASK_FILE_NR)
  match ← peek fun s => s.task.files fd with
  | none => return ()
  | some file => do
    assert ((← peek fun s => (s.fileTable file).inode) ≠ none)
    putFile file
    taskPutFd fd

/-- `task->files[fd]` with the `assert(file)` its callers make. -/
def fdFile (fd : ℕ) : Prog State ℕ := do
  lift (← peek fun s => s.task.files fd)

/-- `file->inode`. -/
def fileInode (file : ℕ) : Prog State ℕ := do
  lift (← peek fun s => (s.fileTable file).inode)

/-- `file->offset += len`. -/
def State.advance (s : State) (file len : ℕ) : State :=
  s.modFile file fun f => { f with offset := i32 (f.offset + len) }

/-- `sys_read(fd, buf, count)` of a descriptor that is not the keyboard: the bytes
read, `none` for `EOF`. -/
def sysRead (fd count : ℕ) : Prog State (Option (List Byte)) := do
  let file ← fdFile fd
  assert (0 < count)
  if (← peek fun s => (s.fileTable file).flags &&& O_ACCMODE) = O_WRONLY then return none
  else do
    let inode ← fileInode file
    match ← inodeRead inode count (← peek fun s => (s.fileTable file).offset) with
    | none => return none
    | some bytes => do
      poke fun s => s.advance file bytes.length
      return some bytes

/-- `sys_write(fd, buf, count)` of a descriptor that is not the console. -/
def sysWrite (fd : ℕ) (bytes : List Byte) : Prog State ℕ := do
  let file ← fdFile fd
  assert (0 < bytes.length)
  if (← peek fun s => (s.fileTable file).flags &&& O_ACCMODE) = O_RDONLY then return EOF
  else do
    let inode ← fileInode file
    let len ← inodeWrite inode bytes (← peek fun s => (s.fileTable file).offset)
    poke fun s => s.advance file len
    return len

/-- `sys_readdir(fd, dir, count)`, which reads one entry whatever `count` is. -/
def sysReaddir (fd : ℕ) : Prog State (Option (List Byte)) := sysRead fd DENTRY_SIZE

def SEEK_SET : ℕ := 1

def SEEK_CUR : ℕ := 2

def SEEK_END : ℕ := 3

/-- The offset that `sys_lseek` stores. The sum with the unsigned `desc->size` is never
below 0, so `SEEK_END` passes its assertion with any offset. -/
def seekOffset (file inode : ℕ) (offset : ℤ) (whence : ℕ) : Prog State ℤ := do
  if whence = SEEK_SET then do
    assert (0 ≤ offset)
    return offset
  else if whence = SEEK_CUR then do
    let sum ← peek fun s => i32 ((s.fileTable file).offset + offset)
    assert (0 ≤ sum)
    return sum
  else if whence = SEEK_END then do
    let sum ← peek fun s => u32 (s.size inode + offset)
    assert (0 ≤ sum)
    return i32 sum
  else stop

/-- `sys_lseek(fd, offset, whence)`. -/
def sysLseek (fd : ℕ) (offset : ℤ) (whence : ℕ) : Prog State ℤ := do
  assert (fd < TASK_FILE_NR)
  let file ← fdFile fd
  let inode ← fileInode file
  let offset ← seekOffset file inode offset whence
  poke fun s => s.modFile file fun f => { f with offset := offset }
  return offset

/-- `file->count++` for each file of the running task. -/
def shareFiles : Prog State Unit := loop shareFile TASK_FILE_NR 0
where
  shareFile (i : ℕ) : Prog State Unit := do
    match ← peek fun s => s.task.files i with
    | none => return ()
    | some file => poke fun s => s.modFile file fun f => { f with count := (f.count + 1) % 2 ^ 32 }

/-- `inode->count++`. -/
def refInode (inode : ℕ) : Prog State Unit :=
  poke fun s => s.modInode inode fun n => { n with count := (n.count + 1) % 2 ^ 32 }

/-- The references of `task_fork`: those of slot `child` are copies of the parent's. -/
def forkRefs (child : ℕ) : Prog State Unit := do
  poke fun s => { s with tasks := update s.tasks child s.task }
  refInode (← peek fun s => s.task.ipwd)
  refInode (← peek fun s => s.task.iroot)
  shareFiles

/-- The references of `task_exit`. -/
def exitRefs : Prog State Unit := do
  iput (some (← peek fun s => s.task.ipwd))
  iput (some (← peek fun s => s.task.iroot))
  loop sysClose TASK_FILE_NR 0

end Onix.Fs
