import Onix.Lib.Trace
import Onix.Spec.Namei

/-! The calls of `fs/namei.c` on names, with their calls of `iput` noted. -/

namespace Onix.Fs

open Prog Cstr

/-- A call of `iput`: the inode and its `count` at the time. -/
structure Put where
  inode : ℕ
  count : ℕ
  deriving DecidableEq

/-- `iput(inode)`, noted. -/
def iputNoted : Option ℕ → Noted State Put Unit
  | none => pure ()
  | some i => do
    let count ← still (peek fun s => (s.inodeTable i).count)
    note ⟨i, count⟩ (iputInode i)

/-- The loop of `named`, noted. -/
def namedLoopNoted (right : Str) : (n inode : ℕ) → (left : Str) → (buf : Option ℕ) →
    Noted State Put (Option (ℕ × Str))
  | 0, _, _, _ => still stop
  | n + 1, inode, left, buf => do
    still (brelse buf)
    match ← still (findEntry inode left) with
    | none => do
      iputNoted (some inode)
      return none
    | some (entry, next) => do
      let dev ← still (peek fun s => (s.inodeTable inode).dev)
      iputNoted (some inode)
      let inode ← still (iget dev (← still (peek fun s => s.entryNr entry)))
      if !(← still (peek fun s => isDir (s.mode inode) && s.permission inode P_EXEC)) then do
        still (brelse (some entry.buf))
        iputNoted (some inode)
        return none
      else if right.length = next.length then do
        still (brelse (some entry.buf))
        return some (inode, next)
      else namedLoopNoted right n inode next (some entry.buf)

/-- What `named` does from the directory `inode` on, noted. -/
def namedFromNoted (inode : ℕ) (left : Str) : Noted State Put (Option (ℕ × Str)) := do
  still (poke fun s => s.modInode inode fun n => { n with count := (n.count + 1) % 2 ^ 32 })
  if deref left = EOS then return some (inode, left)
  else
    match strrsep left with
    | none => return some (inode, left)
    | some right => namedLoopNoted right.tail (namedTurns left) inode left none

/-- `named(pathname, &next)`, noted. -/
def namedNoted (pathname : Str) : Noted State Put (Option (ℕ × Str)) := do
  let task ← still (peek State.task)
  if isSeparator (deref pathname) then namedFromNoted task.iroot pathname.tail
  else if deref pathname ≠ EOS then namedFromNoted task.ipwd pathname
  else return none

/-- `namei(pathname)`, noted. -/
def nameiNoted (pathname : Str) : Noted State Put (Option ℕ) := do
  match ← namedNoted pathname with
  | none => return none
  | some (dir, next) =>
    if deref next = EOS then return some dir
    else do
      match ← still (findEntry dir next) with
      | none => do
        iputNoted (some dir)
        return none
      | some (entry, _) => do
        let dev ← still (peek fun s => (s.inodeTable dir).dev)
        let inode ← still (iget dev (← still (peek fun s => s.entryNr entry)))
        iputNoted (some dir)
        still (brelse (some entry.buf))
        return some inode

/-- `mkdirIn`, noted. -/
def mkdirInNoted (dir : ℕ) (name : Str) (mode : ℕ) : Noted State Put ℕ := do
  let entry ← still (addEntry dir name)
  still (poke fun s => s.setDirty entry.buf)
  let dev ← still (peek fun s => (s.inodeTable dir).dev)
  let nr ← still (ialloc dev)
  still (poke fun s => s.setEntryNr entry nr)
  let inode ← still (iget dev (← still (peek fun s => s.entryNr entry)))
  still (mkdirInode inode mode)
  still (poke fun s => s.dirtyInode dir)
  still (poke fun s => s.setNlinks dir (s.nlinks dir + 1))
  let zbuf ← still (mkdirEntries dir inode)
  iputNoted (some inode)
  iputNoted (some dir)
  still (brelse (some entry.buf))
  still (brelse (some zbuf))
  return 0

/-- `rollback` of `sys_mkdir`, noted. -/
def mkdirRollbackNoted (ebuf : Option ℕ) (dir : Option ℕ) : Noted State Put ℕ := do
  still (brelse ebuf)
  iputNoted dir
  return EOF

/-- `sys_mkdir(pathname, mode)`, noted. -/
def sysMkdirNoted (pathname : Str) (mode : ℕ) : Noted State Put ℕ := do
  match ← namedNoted pathname with
  | none => mkdirRollbackNoted none none
  | some (dir, name) => do
    if deref name = EOS then mkdirRollbackNoted none (some dir)
    else if !(← still (peek fun s => s.permission dir P_WRITE)) then mkdirRollbackNoted none (some dir)
    else do
      match ← still (findEntry dir name) with
      | some (entry, _) => mkdirRollbackNoted (some entry.buf) (some dir)
      | none => mkdirInNoted dir name mode

/-- `rollback` of `sys_rmdir`, noted. -/
def rmdirRollbackNoted (inode dir ebuf : Option ℕ) (ret : ℕ) : Noted State Put ℕ := do
  iputNoted inode
  iputNoted dir
  still (brelse ebuf)
  return ret

/-- `sys_rmdir(pathname)`, noted. -/
def sysRmdirNoted (pathname : Str) : Noted State Put ℕ := do
  match ← namedNoted pathname with
  | none => rmdirRollbackNoted none none none EOF
  | some (dir, name) => do
    if deref name = EOS then rmdirRollbackNoted none (some dir) none EOF
    else if !(← still (peek fun s => s.permission dir P_WRITE)) then
      rmdirRollbackNoted none (some dir) none EOF
    else do
      match ← still (findEntry dir name) with
      | none => rmdirRollbackNoted none (some dir) none EOF
      | some (entry, _) => do
        let dev ← still (peek fun s => (s.inodeTable dir).dev)
        let inode ← still (iget dev (← still (peek fun s => s.entryNr entry)))
        if !(← still (peek fun s => s.removable dir inode)) then
          rmdirRollbackNoted (some inode) (some dir) (some entry.buf) EOF
        else if !(← still (isEmpty inode)) then
          rmdirRollbackNoted (some inode) (some dir) (some entry.buf) EOF
        else do
          still (rmdirIn dir inode entry)
          rmdirRollbackNoted (some inode) (some dir) (some entry.buf) 0

/-- `rollback` of `sys_link` and `sys_unlink`, noted. -/
def linkRollbackNoted (buf inode dir : Option ℕ) (ret : ℕ) : Noted State Put ℕ := do
  still (brelse buf)
  iputNoted inode
  iputNoted dir
  return ret

/-- `sys_link(oldname, newname)`, noted. -/
def sysLinkNoted (oldname newname : Str) : Noted State Put ℕ := do
  match ← nameiNoted oldname with
  | none => linkRollbackNoted none none none EOF
  | some inode => do
    if isDir (← still (peek fun s => s.mode inode)) then linkRollbackNoted none (some inode) none EOF
    else do
      match ← namedNoted newname with
      | none => linkRollbackNoted none (some inode) none EOF
      | some (dir, name) => do
        if deref name = EOS then linkRollbackNoted none (some inode) (some dir) EOF
        else if (← still (peek fun s => (s.inodeTable dir).dev)) ≠
            (← still (peek fun s => (s.inodeTable inode).dev)) then
          linkRollbackNoted none (some inode) (some dir) EOF
        else do
          match ← still (findEntry dir name) with
          | some (entry, _) => linkRollbackNoted (some entry.buf) (some inode) (some dir) EOF
          | none => do
            let entry ← still (linkIn dir name inode)
            linkRollbackNoted (some entry.buf) (some inode) (some dir) 0

/-- `sys_unlink(filename)`, noted. -/
def sysUnlinkNoted (filename : Str) : Noted State Put ℕ := do
  match ← namedNoted filename with
  | none => linkRollbackNoted none none none EOF
  | some (dir, name) => do
    if deref name = EOS then linkRollbackNoted none none (some dir) EOF
    else if !(← still (peek fun s => s.permission dir P_WRITE)) then
      linkRollbackNoted none none (some dir) EOF
    else do
      match ← still (findEntry dir name) with
      | none => linkRollbackNoted none none (some dir) EOF
      | some (entry, _) => do
        let dev ← still (peek fun s => (s.inodeTable dir).dev)
        let inode ← still (iget dev (← still (peek fun s => s.entryNr entry)))
        if isDir (← still (peek fun s => s.mode inode)) then
          linkRollbackNoted (some entry.buf) (some inode) (some dir) EOF
        else if (← still (peek fun s => s.mode inode &&& ISVTX ≠ 0 && s.task.uid ≠ s.uid inode)) then
          linkRollbackNoted (some entry.buf) (some inode) (some dir) EOF
        else do
          still (unlinkIn inode entry)
          linkRollbackNoted (some entry.buf) (some inode) (some dir) 0

/-- `rollback` of `inode_open`, noted. -/
def openRollbackNoted (buf dir inode : Option ℕ) : Noted State Put (Option ℕ) := do
  still (brelse buf)
  iputNoted dir
  iputNoted inode
  return none

/-- `makeup` of `inode_open`, noted. -/
def makeupNoted (dir inode buf flag : ℕ) : Noted State Put (Option ℕ) := do
  if !(← still (peek fun s => s.permission inode (flag &&& O_ACCMODE))) then
    openRollbackNoted (some buf) (some dir) (some inode)
  else if isDir (← still (peek fun s => s.mode inode)) ∧ flag &&& O_ACCMODE ≠ O_RDONLY then
    openRollbackNoted (some buf) (some dir) (some inode)
  else do
    still (touch inode)
    still (when (flag &&& O_TRUNC ≠ 0) (inodeTruncate inode))
    still (brelse (some buf))
    iputNoted (some dir)
    return some inode

/-- `inode_open(pathname, flag, mode)`, noted. -/
def inodeOpenNoted (pathname : Str) (flag mode : ℕ) : Noted State Put (Option ℕ) := do
  match ← namedNoted pathname with
  | none => openRollbackNoted none none none
  | some (dir, name) => do
    if deref name = EOS then return some dir
    else do
      let flag := openFlag flag
      match ← still (findEntry dir name) with
      | some (entry, _) => do
        let dev ← still (peek fun s => (s.inodeTable dir).dev)
        let inode ← still (iget dev (← still (peek fun s => s.entryNr entry)))
        makeupNoted dir inode entry.buf flag
      | none => do
        if flag &&& O_CREAT = 0 then openRollbackNoted none (some dir) none
        else if !(← still (peek fun s => s.permission dir P_WRITE)) then
          openRollbackNoted none (some dir) none
        else do
          let (entry, inode) ← still (openIn dir name mode)
          makeupNoted dir inode entry.buf flag

/-- `sys_chdir(pathname)`, noted. -/
def sysChdirNoted (pathname : Str) : Noted State Put ℕ := do
  let task ← still (peek State.task)
  match ← nameiNoted pathname with
  | none => return EOF
  | some inode => do
    if !isDir (← still (peek fun s => s.mode inode)) || inode = task.ipwd then do
      iputNoted (some inode)
      return EOF
    else do
      let pwd ← still (lift (abspath task.pwd pathname))
      still (poke fun s => s.modTask fun t => { t with pwd := pwd })
      iputNoted (some task.ipwd)
      still (poke fun s => s.modTask fun t => { t with ipwd := inode })
      return 0

/-- `sys_chroot(pathname)`, noted. -/
def sysChrootNoted (pathname : Str) : Noted State Put ℕ := do
  let task ← still (peek State.task)
  match ← nameiNoted pathname with
  | none => return EOF
  | some inode => do
    if !isDir (← still (peek fun s => s.mode inode)) || inode = task.iroot then do
      iputNoted (some inode)
      return EOF
    else do
      iputNoted (some task.iroot)
      still (poke fun s => s.modTask fun t => { t with iroot := inode })
      return 0

/-- A call on names. -/
inductive NameCall where
  | mkdir (pathname : Str) (mode : ℕ)
  | rmdir (pathname : Str)
  | link (oldname newname : Str)
  | unlink (filename : Str)
  | open (pathname : Str) (flag mode : ℕ)
  | chdir (pathname : Str)
  | chroot (pathname : Str)

/-- The call, and the inode it returns, if any. -/
def NameCall.run : NameCall → Prog State (Option ℕ)
  | mkdir pathname mode => do
    let _ ← sysMkdir pathname mode
    return none
  | rmdir pathname => do
    let _ ← sysRmdir pathname
    return none
  | link oldname newname => do
    let _ ← sysLink oldname newname
    return none
  | unlink filename => do
    let _ ← sysUnlink filename
    return none
  | .open pathname flag mode => inodeOpen pathname flag mode
  | chdir pathname => do
    let _ ← sysChdir pathname
    return none
  | chroot pathname => do
    let _ ← sysChroot pathname
    return none

/-- The call, noted. -/
def NameCall.noted : NameCall → Noted State Put (Option ℕ)
  | mkdir pathname mode => do
    let _ ← sysMkdirNoted pathname mode
    return none
  | rmdir pathname => do
    let _ ← sysRmdirNoted pathname
    return none
  | link oldname newname => do
    let _ ← sysLinkNoted oldname newname
    return none
  | unlink filename => do
    let _ ← sysUnlinkNoted filename
    return none
  | .open pathname flag mode => inodeOpenNoted pathname flag mode
  | chdir pathname => do
    let _ ← sysChdirNoted pathname
    return none
  | chroot pathname => do
    let _ ← sysChrootNoted pathname
    return none

section Erases

theorem iputNoted_erases (o : Option ℕ) : Erases (iputNoted o) (iput o) := by
  cases o with
  | none => exact erases_pure ()
  | some i => exact (erases_still _).bind fun _ => erases_note _ _

theorem namedLoopNoted_erases (right : Str) (n inode : ℕ) (left : Str) (buf : Option ℕ) :
    Erases (namedLoopNoted right n inode left buf) (namedLoop right n inode left buf) := by
  induction n generalizing inode left buf with
  | zero => exact erases_still _
  | succ n ih =>
    refine (erases_still _).bind fun _ => (erases_still _).bind fun o => ?_
    cases o with
    | none => exact (iputNoted_erases _).bind fun _ => erases_pure _
    | some r =>
      exact (erases_still _).bind fun _ => (iputNoted_erases _).bind fun _ =>
        (erases_still _).bind fun _ => (erases_still _).bind fun _ => (erases_still _).bind fun _ =>
        .ite ((erases_still _).bind fun _ => (iputNoted_erases _).bind fun _ => erases_pure _)
          (.ite ((erases_still _).bind fun _ => erases_pure _) (ih _ _ _))

theorem namedFromNoted_erases (inode : ℕ) (left : Str) :
    Erases (namedFromNoted inode left) (namedFrom inode left) := by
  refine (erases_still _).bind fun _ => .ite (erases_pure _) ?_
  cases strrsep left with
  | none => exact erases_pure _
  | some right => exact namedLoopNoted_erases _ _ _ _ _

theorem namedNoted_erases (pathname : Str) : Erases (namedNoted pathname) (named pathname) :=
  (erases_still _).bind fun _ => .ite (namedFromNoted_erases _ _)
    (.ite (namedFromNoted_erases _ _) (erases_pure _))

theorem nameiNoted_erases (pathname : Str) : Erases (nameiNoted pathname) (namei pathname) := by
  refine (namedNoted_erases _).bind fun o => ?_
  cases o with
  | none => exact erases_pure _
  | some r =>
    refine .ite (erases_pure _) ((erases_still _).bind fun o => ?_)
    cases o with
    | none => exact (iputNoted_erases _).bind fun _ => erases_pure _
    | some r =>
      exact (erases_still _).bind fun _ => (erases_still _).bind fun _ => (erases_still _).bind fun _ =>
        (iputNoted_erases _).bind fun _ => (erases_still _).bind fun _ => erases_pure _

theorem mkdirInNoted_erases (dir : ℕ) (name : Str) (mode : ℕ) :
    Erases (mkdirInNoted dir name mode) (mkdirIn dir name mode) :=
  (erases_still _).bind fun _ => (erases_still _).bind fun _ => (erases_still _).bind fun _ =>
    (erases_still _).bind fun _ => (erases_still _).bind fun _ => (erases_still _).bind fun _ =>
    (erases_still _).bind fun _ => (erases_still _).bind fun _ => (erases_still _).bind fun _ =>
    (erases_still _).bind fun _ => (erases_still _).bind fun _ => (iputNoted_erases _).bind fun _ =>
    (iputNoted_erases _).bind fun _ => (erases_still _).bind fun _ => (erases_still _).bind fun _ =>
    erases_pure _

theorem mkdirRollbackNoted_erases (ebuf dir : Option ℕ) :
    Erases (mkdirRollbackNoted ebuf dir) (mkdirRollback ebuf dir) :=
  (erases_still _).bind fun _ => (iputNoted_erases _).bind fun _ => erases_pure _

theorem sysMkdirNoted_erases (pathname : Str) (mode : ℕ) :
    Erases (sysMkdirNoted pathname mode) (sysMkdir pathname mode) := by
  refine (namedNoted_erases _).bind fun o => ?_
  cases o with
  | none => exact mkdirRollbackNoted_erases _ _
  | some r =>
    refine .ite (mkdirRollbackNoted_erases _ _) ((erases_still _).bind fun _ =>
      .ite (mkdirRollbackNoted_erases _ _) ((erases_still _).bind fun o => ?_))
    cases o with
    | none => exact mkdirInNoted_erases _ _ _
    | some r => exact mkdirRollbackNoted_erases _ _

theorem rmdirRollbackNoted_erases (inode dir ebuf : Option ℕ) (ret : ℕ) :
    Erases (rmdirRollbackNoted inode dir ebuf ret) (rmdirRollback inode dir ebuf ret) :=
  (iputNoted_erases _).bind fun _ => (iputNoted_erases _).bind fun _ =>
    (erases_still _).bind fun _ => erases_pure _

theorem sysRmdirNoted_erases (pathname : Str) : Erases (sysRmdirNoted pathname) (sysRmdir pathname) := by
  refine (namedNoted_erases _).bind fun o => ?_
  cases o with
  | none => exact rmdirRollbackNoted_erases _ _ _ _
  | some r =>
    refine .ite (rmdirRollbackNoted_erases _ _ _ _) ((erases_still _).bind fun _ =>
      .ite (rmdirRollbackNoted_erases _ _ _ _) ((erases_still _).bind fun o => ?_))
    cases o with
    | none => exact rmdirRollbackNoted_erases _ _ _ _
    | some r =>
      exact (erases_still _).bind fun _ => (erases_still _).bind fun _ => (erases_still _).bind fun _ =>
        (erases_still _).bind fun _ => .ite (rmdirRollbackNoted_erases _ _ _ _)
          ((erases_still _).bind fun _ => .ite (rmdirRollbackNoted_erases _ _ _ _)
            ((erases_still _).bind fun _ => rmdirRollbackNoted_erases _ _ _ _))

theorem linkRollbackNoted_erases (buf inode dir : Option ℕ) (ret : ℕ) :
    Erases (linkRollbackNoted buf inode dir ret) (linkRollback buf inode dir ret) :=
  (erases_still _).bind fun _ => (iputNoted_erases _).bind fun _ =>
    (iputNoted_erases _).bind fun _ => erases_pure _

theorem sysLinkNoted_erases (oldname newname : Str) :
    Erases (sysLinkNoted oldname newname) (sysLink oldname newname) := by
  refine (nameiNoted_erases _).bind fun o => ?_
  cases o with
  | none => exact linkRollbackNoted_erases _ _ _ _
  | some inode =>
    refine (erases_still _).bind fun _ => .ite (linkRollbackNoted_erases _ _ _ _)
      ((namedNoted_erases _).bind fun o => ?_)
    cases o with
    | none => exact linkRollbackNoted_erases _ _ _ _
    | some r =>
      refine .ite (linkRollbackNoted_erases _ _ _ _) ((erases_still _).bind fun _ =>
        (erases_still _).bind fun _ => .ite (linkRollbackNoted_erases _ _ _ _)
          ((erases_still _).bind fun o => ?_))
      cases o with
      | none => exact (erases_still _).bind fun _ => linkRollbackNoted_erases _ _ _ _
      | some r => exact linkRollbackNoted_erases _ _ _ _

theorem sysUnlinkNoted_erases (filename : Str) :
    Erases (sysUnlinkNoted filename) (sysUnlink filename) := by
  refine (namedNoted_erases _).bind fun o => ?_
  cases o with
  | none => exact linkRollbackNoted_erases _ _ _ _
  | some r =>
    refine .ite (linkRollbackNoted_erases _ _ _ _) ((erases_still _).bind fun _ =>
      .ite (linkRollbackNoted_erases _ _ _ _) ((erases_still _).bind fun o => ?_))
    cases o with
    | none => exact linkRollbackNoted_erases _ _ _ _
    | some r =>
      exact (erases_still _).bind fun _ => (erases_still _).bind fun _ => (erases_still _).bind fun _ =>
        (erases_still _).bind fun _ => .ite (linkRollbackNoted_erases _ _ _ _)
          ((erases_still _).bind fun _ => .ite (linkRollbackNoted_erases _ _ _ _)
            ((erases_still _).bind fun _ => linkRollbackNoted_erases _ _ _ _))

theorem openRollbackNoted_erases (buf dir inode : Option ℕ) :
    Erases (openRollbackNoted buf dir inode) (openRollback buf dir inode) :=
  (erases_still _).bind fun _ => (iputNoted_erases _).bind fun _ =>
    (iputNoted_erases _).bind fun _ => erases_pure _

theorem makeupNoted_erases (dir inode buf flag : ℕ) :
    Erases (makeupNoted dir inode buf flag) (makeup dir inode buf flag) :=
  (erases_still _).bind fun _ => .ite (openRollbackNoted_erases _ _ _) ((erases_still _).bind fun _ =>
    .ite (openRollbackNoted_erases _ _ _) ((erases_still _).bind fun _ => (erases_still _).bind fun _ =>
      (erases_still _).bind fun _ => (iputNoted_erases _).bind fun _ => erases_pure _))

theorem inodeOpenNoted_erases (pathname : Str) (flag mode : ℕ) :
    Erases (inodeOpenNoted pathname flag mode) (inodeOpen pathname flag mode) := by
  refine (namedNoted_erases _).bind fun o => ?_
  cases o with
  | none => exact openRollbackNoted_erases _ _ _
  | some r =>
    refine .ite (erases_pure _) ((erases_still _).bind fun o => ?_)
    cases o with
    | none =>
      exact .ite (openRollbackNoted_erases _ _ _) ((erases_still _).bind fun _ =>
        .ite (openRollbackNoted_erases _ _ _) ((erases_still _).bind fun _ => makeupNoted_erases _ _ _ _))
    | some r =>
      exact (erases_still _).bind fun _ => (erases_still _).bind fun _ => (erases_still _).bind fun _ =>
        makeupNoted_erases _ _ _ _

theorem sysChdirNoted_erases (pathname : Str) : Erases (sysChdirNoted pathname) (sysChdir pathname) := by
  refine (erases_still _).bind fun task => (nameiNoted_erases _).bind fun o => ?_
  cases o with
  | none => exact erases_pure _
  | some inode =>
    exact (erases_still _).bind fun _ => .ite ((iputNoted_erases _).bind fun _ => erases_pure _)
      ((erases_still _).bind fun _ => (erases_still _).bind fun _ => (iputNoted_erases _).bind fun _ =>
        (erases_still _).bind fun _ => erases_pure _)

theorem sysChrootNoted_erases (pathname : Str) :
    Erases (sysChrootNoted pathname) (sysChroot pathname) := by
  refine (erases_still _).bind fun task => (nameiNoted_erases _).bind fun o => ?_
  cases o with
  | none => exact erases_pure _
  | some inode =>
    exact (erases_still _).bind fun _ => .ite ((iputNoted_erases _).bind fun _ => erases_pure _)
      ((iputNoted_erases _).bind fun _ => (erases_still _).bind fun _ => erases_pure _)

/-- Without the notes it is the call. -/
theorem NameCall.noted_erases (c : NameCall) : Erases c.noted c.run := by
  cases c with
  | mkdir pathname mode => exact (sysMkdirNoted_erases _ _).bind fun _ => erases_pure none
  | rmdir pathname => exact (sysRmdirNoted_erases _).bind fun _ => erases_pure none
  | link oldname newname => exact (sysLinkNoted_erases _ _).bind fun _ => erases_pure none
  | unlink filename => exact (sysUnlinkNoted_erases _).bind fun _ => erases_pure none
  | «open» pathname flag mode => exact inodeOpenNoted_erases _ _ _
  | chdir pathname => exact (sysChdirNoted_erases _).bind fun _ => erases_pure none
  | chroot pathname => exact (sysChrootNoted_erases _).bind fun _ => erases_pure none

end Erases

end Onix.Fs
