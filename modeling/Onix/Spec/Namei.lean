import Onix.Spec.Inode
import Onix.Spec.Path

/-! `fs/namei.c`: directories, the walk along a path, and the system calls on names. -/

namespace Onix.Fs

open Function Prog Cstr

def KERNEL_USER : ℕ := 0

def P_EXEC : ℕ := 0o1

def P_WRITE : ℕ := 0o2

def P_READ : ℕ := 0o4

def ISVTX : ℕ := 0o1000

def O_RDONLY : ℕ := 0o0

def O_WRONLY : ℕ := 0o1

def O_RDWR : ℕ := 0o2

def O_ACCMODE : ℕ := 0o3

def O_CREAT : ℕ := 0o100

def O_TRUNC : ℕ := 0o1000

def O_APPEND : ℕ := 0o2000

/-- `sizeof(dentry_t)`. -/
def DENTRY_SIZE : ℕ := 16

def BLOCK_DENTRIES : ℕ := BLOCK_SIZE / DENTRY_SIZE

/-- The mode bits that `permission` looks at, in its lowest three. -/
def State.rights (s : State) (inode : ℕ) : ℕ :=
  let mode := s.mode inode
  if s.task.uid = s.uid inode then mode >>> 6
  else if s.task.gid = s.gid inode then mode >>> 3
  else mode

/-- `permission(inode, mask)`. -/
def State.permission (s : State) (inode mask : ℕ) : Bool :=
  if s.nlinks inode = 0 then false
  else if s.task.uid = KERNEL_USER then true
  else s.rights inode &&& mask &&& 0b111 == mask

/-- A `dentry_t *`: the buffer it points into and its address there. -/
structure Entry where
  buf : ℕ
  addr : ℕ
  deriving DecidableEq

/-- `entry->nr`. -/
def State.entryNr (s : State) (e : Entry) : ℕ := (s.data e.buf).rd16 e.addr

/-- `entry->nr = nr`. -/
def State.setEntryNr (s : State) (e : Entry) (nr : ℕ) : State :=
  s.setData e.buf ((s.data e.buf).wr16 e.addr nr)

/-- The step of the loops over a directory that turns `entry` into entry `i`: the
next block is read where there is no buffer yet or `entry` has left it. -/
def entryAt (dir i : ℕ) (create : Bool) : Option Entry → Prog State Entry
  | some entry =>
    if entry.addr < BLOCK_SIZE then pure entry
    else do
      brelse (some entry.buf)
      load
  | none => load
where
  load : Prog State Entry := do
    let block ← bmap dir (i / BLOCK_DENTRIES) create
    assert (block ≠ 0)
    let buf ← bread (← peek fun s => (s.inodeTable dir).dev) block
    return ⟨buf, 0⟩

/-- `entry++`. -/
def Entry.next (e : Entry) : Entry := { e with addr := e.addr + DENTRY_SIZE }

/-- The loop of `find_entry` for `n` entries from entry `i` on. -/
def findLoop (dir : ℕ) (name : Str) : (n i : ℕ) → Option Entry → Prog State (Option (Entry × Str))
  | 0, _, entry => do
    brelse (entry.map Entry.buf)
    return none
  | n + 1, i, entry => do
    let e ← entryAt dir i false entry
    let data ← peek fun s => s.data e.buf
    match matchName name data (e.addr + 2) with
    | some next => return some (e, next)
    | none => findLoop dir name n (i + 1) (some e.next)

/-- `find_entry(&dir, name, &next, &result)`: the entry, in a buffer that is held,
and `next`. -/
def findEntry (dir : ℕ) (name : Str) : Prog State (Option (Entry × Str)) := do
  assert (isDir (← peek fun s => s.mode dir))
  let entries ← peek fun s => s.size dir / DENTRY_SIZE
  findLoop dir name entries 0 none

/-- What `add_entry` does with a slot beyond the end of the directory. -/
def growDir (dir i : ℕ) (e : Entry) : Prog State Unit := do
  when ((← peek fun s => s.size dir) ≤ i * DENTRY_SIZE)
    (poke fun s => ((s.setEntryNr e 0).setSize dir ((i + 1) * DENTRY_SIZE)).dirtyInode dir)

/-- What `add_entry` does with the slot it has found. -/
def fillEntry (dir : ℕ) (name : Str) (e : Entry) : Prog State Unit := do
  poke fun s => (s.setData e.buf (strncpy (s.data e.buf) (e.addr + 2) name NAME_LEN)).setDirty e.buf
  let t ← time
  poke fun s => (s.setMtime dir t).dirtyInode dir

/-- The loop of `add_entry` from slot `i` on. -/
def addLoop (dir : ℕ) (name : Str) : (n i : ℕ) → Option Entry → Prog State Entry
  | 0, _, _ => stop
  | n + 1, i, entry => do
    let e ← entryAt dir i true entry
    growDir dir i e
    if (← peek fun s => s.entryNr e) ≠ 0 then addLoop dir name n (i + 1) (some e.next)
    else do
      fillEntry dir name e
      return e

/-- `add_entry(dir, name, &result)`. The loop ends before `bmap` would be asked for
a block beyond the largest file. -/
def addEntry (dir : ℕ) (name : Str) : Prog State Entry := do
  match ← findEntry dir name with
  | some (e, _) => return e
  | none => do
    assert (((chars name).take NAME_LEN).all fun c => !isSeparator c)
    addLoop dir name (TOTAL_BLOCK * BLOCK_DENTRIES + 1) 0 none

/-- The loop of `named`; `right` follows the last separator of the path. -/
def namedLoop (right : Str) : (n inode : ℕ) → (left : Str) → (buf : Option ℕ) →
    Prog State (Option (ℕ × Str))
  | 0, _, _, _ => stop
  | n + 1, inode, left, buf => do
    brelse buf
    match ← findEntry inode left with
    | none => do
      iput (some inode)
      return none
    | some (entry, next) => do
      let dev ← peek fun s => (s.inodeTable inode).dev
      iput (some inode)
      let inode ← iget dev (← peek fun s => s.entryNr entry)
      if !(← peek fun s => isDir (s.mode inode) && s.permission inode P_EXEC) then do
        brelse (some entry.buf)
        iput (some inode)
        return none
      else if right.length = next.length then do
        brelse (some entry.buf)
        return some (inode, next)
      else namedLoop right n inode next (some entry.buf)

/-- More turns than there are inode numbers and characters: the loop of `named`
runs for ever. -/
def namedTurns (pathname : Str) : ℕ := pathname.length + 2 ^ 16 + 1

/-- What `named` does from the directory `inode` on. -/
def namedFrom (inode : ℕ) (left : Str) : Prog State (Option (ℕ × Str)) := do
  poke fun s => s.modInode inode fun n => { n with count := (n.count + 1) % 2 ^ 32 }
  if deref left = EOS then return some (inode, left)
  else
    match strrsep left with
    | none => return some (inode, left)
    | some right => namedLoop right.tail (namedTurns left) inode left none

/-- `named(pathname, &next)`: the directory and `next`, `none` for `NULL`. -/
def named (pathname : Str) : Prog State (Option (ℕ × Str)) := do
  let task ← peek State.task
  if isSeparator (deref pathname) then namedFrom task.iroot pathname.tail
  else if deref pathname ≠ EOS then namedFrom task.ipwd pathname
  else return none

/-- `namei(pathname)`. -/
def namei (pathname : Str) : Prog State (Option ℕ) := do
  match ← named pathname with
  | none => return none
  | some (dir, next) =>
    if deref next = EOS then return some dir
    else do
      match ← findEntry dir next with
      | none => do
        iput (some dir)
        return none
      | some (entry, _) => do
        let dev ← peek fun s => (s.inodeTable dir).dev
        let inode ← iget dev (← peek fun s => s.entryNr entry)
        iput (some dir)
        brelse (some entry.buf)
        return some inode

/-- `a & ~b`. -/
def andNot (a b : ℕ) : ℕ := a ^^^ (a &&& b)

/-- The mode of a file or directory that the running task makes. -/
def State.newMode (s : State) (mode type : ℕ) : ℕ := andNot (mode &&& 0o777) s.task.umask ||| type

/-- The part of `sys_mkdir` that writes the entries `.` and `..`: the buffer. -/
def mkdirEntries (dir inode : ℕ) : Prog State ℕ := do
  let dev ← peek fun s => (s.inodeTable inode).dev
  let zbuf ← bread dev (← bmap inode 0 true)
  poke fun s => s.setDirty zbuf
  poke fun s => s.setData zbuf (strcpy (s.data zbuf) 2 [DOT])
  poke fun s => s.setEntryNr ⟨zbuf, 0⟩ (s.inodeTable inode).nr
  poke fun s => s.setData zbuf (strcpy (s.data zbuf) (DENTRY_SIZE + 2) [DOT, DOT])
  poke fun s => s.setEntryNr ⟨zbuf, DENTRY_SIZE⟩ (s.inodeTable dir).nr
  return zbuf

/-- The part of `sys_mkdir` that fills in the new directory. -/
def mkdirInode (inode mode : ℕ) : Prog State Unit := do
  poke fun s => s.dirtyInode inode
  poke fun s => s.setGid inode s.task.gid
  poke fun s => s.setUid inode s.task.uid
  poke fun s => s.setMode inode (s.newMode mode IFDIR)
  poke fun s => s.setSize inode (DENTRY_SIZE * 2)
  let t ← time
  poke fun s => s.setMtime inode t
  poke fun s => s.setNlinks inode 2

/-- The part of `sys_mkdir` that makes the directory. -/
def mkdirIn (dir : ℕ) (name : Str) (mode : ℕ) : Prog State ℕ := do
  let entry ← addEntry dir name
  poke fun s => s.setDirty entry.buf
  let dev ← peek fun s => (s.inodeTable dir).dev
  let nr ← ialloc dev
  poke fun s => s.setEntryNr entry nr
  let inode ← iget dev (← peek fun s => s.entryNr entry)
  mkdirInode inode mode
  poke fun s => s.dirtyInode dir
  poke fun s => s.setNlinks dir (s.nlinks dir + 1)
  let zbuf ← mkdirEntries dir inode
  iput (some inode)
  iput (some dir)
  brelse (some entry.buf)
  brelse (some zbuf)
  return 0

/-- `rollback` of `sys_mkdir`. -/
def mkdirRollback (ebuf : Option ℕ) (dir : Option ℕ) : Prog State ℕ := do
  brelse ebuf
  iput dir
  return EOF

/-- `sys_mkdir(pathname, mode)`. -/
def sysMkdir (pathname : Str) (mode : ℕ) : Prog State ℕ := do
  match ← named pathname with
  | none => mkdirRollback none none
  | some (dir, name) => do
    if deref name = EOS then mkdirRollback none (some dir)
    else if !(← peek fun s => s.permission dir P_WRITE) then mkdirRollback none (some dir)
    else do
      match ← findEntry dir name with
      | some (entry, _) => mkdirRollback (some entry.buf) (some dir)
      | none => mkdirIn dir name mode

/-- The loop of `is_empty` for `n` entries from entry `i` on: how many are in use. -/
def countLoop (dir : ℕ) : (n i : ℕ) → Option Entry → ℕ → Prog State ℕ
  | 0, _, entry, count => do
    brelse (entry.map Entry.buf)
    return count
  | n + 1, i, entry, count => do
    let e ← entryAt dir i false entry
    let nr ← peek fun s => s.entryNr e
    countLoop dir n (i + 1) (some e.next) (if nr ≠ 0 then count + 1 else count)

/-- `is_empty(inode)`. -/
def isEmpty (inode : ℕ) : Prog State Bool := do
  assert (isDir (← peek fun s => s.mode inode))
  let entries ← peek fun s => s.size inode / DENTRY_SIZE
  if entries < 2 ∨ (← peek fun s => (s.data (s.ibuf inode)).rd16 (s.izone inode)) = 0 then
    return false
  else do
    let count ← countLoop inode entries 0 none 0
    return count = 2

/-- `inode_truncate(inode); ifree(inode->dev, inode->nr)`. -/
def freeInode (inode : ℕ) : Prog State Unit := do
  inodeTruncate inode
  ifree (← peek fun s => (s.inodeTable inode).dev) (← peek fun s => (s.inodeTable inode).nr)

/-- The part of `sys_rmdir` that removes the directory. -/
def rmdirIn (dir inode : ℕ) (entry : Entry) : Prog State Unit := do
  assert ((← peek fun s => s.nlinks inode) = 2)
  freeInode inode
  poke fun s => (s.setNlinks inode 0).dirtyInode inode
  poke fun s => s.modInode inode fun n => { n with nr := 0 }
  poke fun s => s.setNlinks dir (sub32 (s.nlinks dir) 1)
  let t ← time
  poke fun s => (s.setMtime dir t).modInode dir fun n => { n with atime := t, ctime := t }
  poke fun s => s.dirtyInode dir
  assert (0 < (← peek fun s => s.nlinks dir))
  poke fun s => (s.setEntryNr entry 0).setDirty entry.buf

/-- `rollback` of `sys_rmdir`. -/
def rmdirRollback (inode dir ebuf : Option ℕ) (ret : ℕ) : Prog State ℕ := do
  iput inode
  iput dir
  brelse ebuf
  return ret

/-- The tests of `sys_rmdir` on the inode that the entry names. -/
def State.removable (s : State) (dir inode : ℕ) : Bool :=
  inode ≠ dir && isDir (s.mode inode) &&
    !(s.mode dir &&& ISVTX ≠ 0 && s.task.uid ≠ s.uid inode) &&
    !((s.inodeTable dir).dev ≠ (s.inodeTable inode).dev || 1 < (s.inodeTable inode).count)

/-- `sys_rmdir(pathname)`. -/
def sysRmdir (pathname : Str) : Prog State ℕ := do
  match ← named pathname with
  | none => rmdirRollback none none none EOF
  | some (dir, name) => do
    if deref name = EOS then rmdirRollback none (some dir) none EOF
    else if !(← peek fun s => s.permission dir P_WRITE) then rmdirRollback none (some dir) none EOF
    else do
      match ← findEntry dir name with
      | none => rmdirRollback none (some dir) none EOF
      | some (entry, _) => do
        let dev ← peek fun s => (s.inodeTable dir).dev
        let inode ← iget dev (← peek fun s => s.entryNr entry)
        if !(← peek fun s => s.removable dir inode) then
          rmdirRollback (some inode) (some dir) (some entry.buf) EOF
        else if !(← isEmpty inode) then
          rmdirRollback (some inode) (some dir) (some entry.buf) EOF
        else do
          rmdirIn dir inode entry
          rmdirRollback (some inode) (some dir) (some entry.buf) 0

/-- `rollback` of `sys_link` and `sys_unlink`. -/
def linkRollback (buf inode dir : Option ℕ) (ret : ℕ) : Prog State ℕ := do
  brelse buf
  iput inode
  iput dir
  return ret

/-- The part of `sys_link` that adds the entry. -/
def linkIn (dir : ℕ) (name : Str) (inode : ℕ) : Prog State Entry := do
  let entry ← addEntry dir name
  poke fun s => (s.setEntryNr entry (s.inodeTable inode).nr).setDirty entry.buf
  poke fun s => s.setNlinks inode (s.nlinks inode + 1)
  let t ← time
  poke fun s => (s.modInode inode fun n => { n with ctime := t }).dirtyInode inode
  return entry

/-- `sys_link(oldname, newname)`. Its test of `permission(dir, P_WRITE)` has an
empty body. -/
def sysLink (oldname newname : Str) : Prog State ℕ := do
  match ← namei oldname with
  | none => linkRollback none none none EOF
  | some inode => do
    if isDir (← peek fun s => s.mode inode) then linkRollback none (some inode) none EOF
    else do
      match ← named newname with
      | none => linkRollback none (some inode) none EOF
      | some (dir, name) => do
        if deref name = EOS then linkRollback none (some inode) (some dir) EOF
        else if (← peek fun s => (s.inodeTable dir).dev) ≠
            (← peek fun s => (s.inodeTable inode).dev) then
          linkRollback none (some inode) (some dir) EOF
        else do
          match ← findEntry dir name with
          | some (entry, _) => linkRollback (some entry.buf) (some inode) (some dir) EOF
          | none => do
            let entry ← linkIn dir name inode
            linkRollback (some entry.buf) (some inode) (some dir) 0

/-- The part of `sys_unlink` that removes the entry. -/
def unlinkIn (inode : ℕ) (entry : Entry) : Prog State Unit := do
  poke fun s => (s.setEntryNr entry 0).setDirty entry.buf
  poke fun s => (s.setNlinks inode (sub32 (s.nlinks inode) 1)).dirtyInode inode
  when ((← peek fun s => s.nlinks inode) = 0) (freeInode inode)

/-- `sys_unlink(filename)`. -/
def sysUnlink (filename : Str) : Prog State ℕ := do
  match ← named filename with
  | none => linkRollback none none none EOF
  | some (dir, name) => do
    if deref name = EOS then linkRollback none none (some dir) EOF
    else if !(← peek fun s => s.permission dir P_WRITE) then linkRollback none none (some dir) EOF
    else do
      match ← findEntry dir name with
      | none => linkRollback none none (some dir) EOF
      | some (entry, _) => do
        let dev ← peek fun s => (s.inodeTable dir).dev
        let inode ← iget dev (← peek fun s => s.entryNr entry)
        if isDir (← peek fun s => s.mode inode) then
          linkRollback (some entry.buf) (some inode) (some dir) EOF
        else if (← peek fun s => s.mode inode &&& ISVTX ≠ 0 && s.task.uid ≠ s.uid inode) then
          linkRollback (some entry.buf) (some inode) (some dir) EOF
        else do
          unlinkIn inode entry
          linkRollback (some entry.buf) (some inode) (some dir) 0

/-- `flag` of `inode_open` after `O_TRUNC` has been looked at. -/
def openFlag (flag : ℕ) : ℕ :=
  if flag &&& O_TRUNC ≠ 0 ∧ flag &&& O_ACCMODE = O_RDONLY then flag ||| O_RDWR else flag

/-- `rollback` of `inode_open`. -/
def openRollback (buf dir inode : Option ℕ) : Prog State (Option ℕ) := do
  brelse buf
  iput dir
  iput inode
  return none

/-- `makeup` of `inode_open`. -/
def makeup (dir inode buf flag : ℕ) : Prog State (Option ℕ) := do
  if !(← peek fun s => s.permission inode (flag &&& O_ACCMODE)) then
    openRollback (some buf) (some dir) (some inode)
  else if isDir (← peek fun s => s.mode inode) ∧ flag &&& O_ACCMODE ≠ O_RDONLY then
    openRollback (some buf) (some dir) (some inode)
  else do
    touch inode
    when (flag &&& O_TRUNC ≠ 0) (inodeTruncate inode)
    brelse (some buf)
    iput (some dir)
    return some inode

/-- The part of `inode_open` that fills in the new file. -/
def openInode (inode mode : ℕ) : Prog State Unit := do
  poke fun s => s.setUid inode s.task.uid
  poke fun s => s.setGid inode s.task.gid
  poke fun s => s.setMode inode (s.newMode mode IFREG)
  let t ← time
  poke fun s => s.setMtime inode t
  poke fun s => s.setSize inode 0
  poke fun s => s.setNlinks inode 1
  poke fun s => s.dirtyInode inode

/-- The part of `inode_open` that makes the file: its entry and its inode. -/
def openIn (dir : ℕ) (name : Str) (mode : ℕ) : Prog State (Entry × ℕ) := do
  let entry ← addEntry dir name
  let dev ← peek fun s => (s.inodeTable dir).dev
  let nr ← ialloc dev
  poke fun s => s.setEntryNr entry nr
  let inode ← iget dev (← peek fun s => s.entryNr entry)
  openInode inode mode
  return (entry, inode)

/-- `inode_open(pathname, flag, mode)`. -/
def inodeOpen (pathname : Str) (flag mode : ℕ) : Prog State (Option ℕ) := do
  match ← named pathname with
  | none => openRollback none none none
  | some (dir, name) => do
    if deref name = EOS then return some dir
    else do
      let flag := openFlag flag
      match ← findEntry dir name with
      | some (entry, _) => do
        let dev ← peek fun s => (s.inodeTable dir).dev
        let inode ← iget dev (← peek fun s => s.entryNr entry)
        makeup dir inode entry.buf flag
      | none => do
        if flag &&& O_CREAT = 0 then openRollback none (some dir) none
        else if !(← peek fun s => s.permission dir P_WRITE) then openRollback none (some dir) none
        else do
          let (entry, inode) ← openIn dir name mode
          makeup dir inode entry.buf flag

def State.modTask (s : State) (f : TaskT → TaskT) : State :=
  { s with tasks := update s.tasks s.running (f s.task) }

/-- `sys_chdir(pathname)`. -/
def sysChdir (pathname : Str) : Prog State ℕ := do
  let task ← peek State.task
  match ← namei pathname with
  | none => return EOF
  | some inode => do
    if !isDir (← peek fun s => s.mode inode) || inode = task.ipwd then do
      iput (some inode)
      return EOF
    else do
      let pwd ← lift (abspath task.pwd pathname)
      poke fun s => s.modTask fun t => { t with pwd := pwd }
      iput (some task.ipwd)
      poke fun s => s.modTask fun t => { t with ipwd := inode }
      return 0

/-- `sys_chroot(pathname)`. -/
def sysChroot (pathname : Str) : Prog State ℕ := do
  let task ← peek State.task
  match ← namei pathname with
  | none => return EOF
  | some inode => do
    if !isDir (← peek fun s => s.mode inode) || inode = task.iroot then do
      iput (some inode)
      return EOF
    else do
      iput (some task.iroot)
      poke fun s => s.modTask fun t => { t with iroot := inode }
      return 0

end Onix.Fs
