import Onix.Sanity.FileOps
import Onix.Spec.Image

/-! What an open of an existing file allows: `inode_open` reads the access mode, 1 for
writing and 2 for both, as rights, where 1 is the right to execute and 2 that to write. -/

namespace Onix.Fs

open Function Prog Cstr

/-- The path leads to the file `inode`, which `inode_open` finds in state `w`. -/
def PathTo (s : State) (path : Str) (inode : ℕ) (w : State) : Prop :=
  ∃ dir name u v entry next, named path s = some (some (dir, name), u) ∧ deref name ≠ EOS ∧
    findEntry dir name u = some (some (entry, next), v) ∧
    iget (v.inodeTable dir).dev (v.entryNr entry) v = some (inode, w) ∧ isFile (w.mode inode) = true

/-- `sys_read` takes descriptors opened with this flag. -/
def Readable (flag : ℕ) : Prop := flag &&& O_ACCMODE ≠ O_WRONLY

/-- `sys_write` takes descriptors opened with this flag. -/
def Writable (flag : ℕ) : Prop := flag &&& O_ACCMODE ≠ O_RDONLY

/-- The descriptor of the running task is open on `inode` with these flags. -/
def Descriptor (s : State) (fd flag inode : ℕ) : Prop :=
  ∃ file, s.task.files fd = some file ∧ (s.fileTable file).flags = flag ∧
    (s.fileTable file).inode = some inode

/-- The rights at open time, in state `w`, bound what the open gives: the descriptor
`fd`, used in any state where it is still open. -/
structure OpenRule (w : State) (inode flag fd : ℕ) : Prop where
  read : fd ≠ EOF → ∀ t u n bytes, Descriptor t fd flag inode →
    sysRead fd n t = some (some bytes, u) → w.permission inode P_READ = true
  write : fd ≠ EOF → ∀ t u n bytes, Descriptor t fd flag inode →
    sysWrite fd bytes t = some (n, u) → n ≠ EOF → w.permission inode P_WRITE = true
  truncate : fd ≠ EOF → flag &&& O_TRUNC ≠ 0 → w.permission inode P_WRITE = true
  grant : (Readable flag → w.permission inode P_READ = true) →
    (Writable flag ∨ flag &&& O_TRUNC ≠ 0 → w.permission inode P_WRITE = true) → fd ≠ EOF

/-- The rights that the mode asks for and those that `inode_open` tests are had alike. -/
def Agree (w : State) (inode flag : ℕ) : Prop :=
  let r := w.permission inode P_READ
  let wr := w.permission inode P_WRITE
  let x := w.permission inode P_EXEC
  w.nlinks inode = 0 ∨
    (flag &&& O_ACCMODE = 0 ∧ flag &&& O_TRUNC = 0 ∧ r) ∨
    (flag &&& O_ACCMODE = 0 ∧ flag &&& O_TRUNC ≠ 0 ∧ (wr → r)) ∨
    (flag &&& O_ACCMODE = 1 ∧ (x ↔ wr)) ∨
    (flag &&& O_ACCMODE = 2 ∧ (wr → r)) ∨
    (flag &&& O_ACCMODE = 3 ∧ (wr → (x ↔ r)))

variable {s t u w : State} {inode fd flag mode dir file : ℕ} {path : Str}

theorem accmode_cases (flag : ℕ) : flag &&& O_ACCMODE = 0 ∨ flag &&& O_ACCMODE = 1 ∨
    flag &&& O_ACCMODE = 2 ∨ flag &&& O_ACCMODE = 3 := by
  have h : flag &&& O_ACCMODE ≤ 3 := Nat.and_le_right
  omega

/-- A file whose links are gone is open to nobody. -/
theorem permission_nlinks {mask : ℕ} (h : w.nlinks inode = 0) : w.permission inode mask = false := by
  unfold State.permission
  rw [if_pos h]

theorem permission_eq {mask : ℕ} (hk : w.task.uid ≠ KERNEL_USER) (hl : w.nlinks inode ≠ 0) :
    w.permission inode mask = (w.rights inode % 8 &&& mask == mask) := by
  unfold State.permission
  rw [if_neg hl, if_neg hk, Nat.and_right_comm, Nat.and_two_pow_sub_one_eq_mod _ 3]

theorem permission_zero (hk : w.task.uid ≠ KERNEL_USER) (hl : w.nlinks inode ≠ 0) :
    w.permission inode 0 = true := by
  rw [permission_eq hk hl, Nat.and_zero]
  rfl

theorem permission_three (hk : w.task.uid ≠ KERNEL_USER) (hl : w.nlinks inode ≠ 0) :
    w.permission inode 3 = (w.permission inode P_EXEC && w.permission inode P_WRITE) := by
  have h : ∀ m < 8, (m &&& 3 == 3) = ((m &&& P_EXEC == P_EXEC) && (m &&& P_WRITE == P_WRITE)) := by
    decide
  rw [permission_eq hk hl, permission_eq hk hl, permission_eq hk hl]
  exact h _ (Nat.mod_lt _ (by decide))

theorem openFlag_acc (flag : ℕ) : openFlag flag &&& O_ACCMODE =
    if flag &&& O_TRUNC ≠ 0 ∧ flag &&& O_ACCMODE = 0 then 2 else flag &&& O_ACCMODE := by
  change (if flag &&& O_TRUNC ≠ 0 ∧ flag &&& O_ACCMODE = 0 then flag ||| O_RDWR else flag) &&&
    O_ACCMODE = _
  by_cases h : flag &&& O_TRUNC ≠ 0 ∧ flag &&& O_ACCMODE = 0
  · rw [if_pos h, if_pos h, Nat.and_or_distrib_right, h.2]
    rfl
  · rw [if_neg h, if_neg h]

theorem isFile_not_dir {m : ℕ} (h : isFile m = true) : isDir m = false := by
  rw [isFile, beq_iff_eq] at h
  rw [isDir, h]
  rfl

/-- A descriptor that `sys_open` returns is open on the inode, with the flags given. -/
theorem openFile_descriptor (h : openFile inode flag s = some (fd, t)) :
    fd ≠ EOF ∧ Descriptor t fd flag inode := by
  obtain ⟨file, ⟨-, hlt, -⟩, -, rfl⟩ := openFile_eq h
  refine ⟨fun he => ?_, file, ?_, ?_, ?_⟩
  · rw [he] at hlt
    exact absurd hlt (by decide)
  all_goals simp [State.modFile, State.modTask, State.task, TaskT.setFd]

/-- The open succeeds exactly where `permission` grants the access mode as a mask. -/
theorem open_succeeds (hp : PathTo s path inode w) (h : sysOpen path flag mode s = some (fd, t)) :
    fd ≠ EOF ↔ w.permission inode (openFlag flag &&& O_ACCMODE) = true := by
  obtain ⟨dir, name, u, v, entry, next, hn, hname, hf, hi, hfile⟩ := hp
  obtain ⟨o, x, ho, h'⟩ := bind_eq_some.mp h
  rw [inodeOpen_old hn hname hf hi] at ho
  have hallows : w.allows inode (openFlag flag) =
      w.permission inode (openFlag flag &&& O_ACCMODE) := by
    rw [State.allows, isFile_not_dir hfile]
    exact Bool.and_true _
  rcases makeup_cases ho with ⟨rfl, -, hno⟩ | ⟨rfl, hyes, -⟩
  · simp only [pure_apply, Option.some.injEq, Prod.mk.injEq] at h'
    obtain ⟨rfl, rfl⟩ := h'
    simp [← hallows, hno]
  · exact iff_of_true (openFile_descriptor h').1 (hallows ▸ hyes)

/-- `sys_read` refuses a descriptor open for writing only. -/
theorem sysRead_readable {n : ℕ} {bytes : List Byte} (hd : Descriptor t fd flag inode)
    (h : sysRead fd n t = some (some bytes, u)) : Readable flag := by
  obtain ⟨file, hfile, rfl, -⟩ := hd
  obtain ⟨file', hfile', hr⟩ := sysRead_cases h
  obtain rfl : file = file' := by simpa [hfile] using hfile'
  rcases hr with ⟨-, hnone, -⟩ | ⟨hread, -⟩
  · cases hnone
  · exact hread

/-- `sys_write` refuses a descriptor open for reading only. -/
theorem sysWrite_writable {n : ℕ} {bytes : List Byte} (hd : Descriptor t fd flag inode)
    (h : sysWrite fd bytes t = some (n, u)) (hn : n ≠ EOF) : Writable flag := by
  obtain ⟨file, hfile, rfl, -⟩ := hd
  obtain ⟨file', hfile', hr⟩ := sysWrite_cases h
  obtain rfl : file = file' := by simpa [hfile] using hfile'
  rcases hr with ⟨-, he, -⟩ | ⟨hwrite, -⟩
  · exact absurd he hn
  · exact hwrite

def oneByteBlock : Block := blockOf (Desc.bytes ⟨IFREG, 0, 1, 1, [5]⟩)

theorem oneByteBlock_size : oneByteBlock.rd32 4 = 1 := by decide +kernel

theorem oneByteBlock_mode : oneByteBlock.rd16 0 = IFREG := by decide +kernel

/-- A state in which any descriptor is open, with these flags, on a file of one byte. -/
def oneByte (flag inode : ℕ) : State where
  cache := {
    data _ := oneByteBlock
    count _ := 0
    dirty _ := false
    disk _ := blockOf [] }
  dev := 1
  sb := {
    desc := { inodes := BLOCK_INODES, zones := 64, imapBlocks := 1, zmapBlocks := 1,
              firstdatazone := 5 }
    imaps _ := none
    zmaps _ := none
    inodeList := [] }
  inodeTable _ := { freeInodeT with buf := 4, dev := 1 }
  fileTable _ := { inode := some inode, count := 1, offset := 0, flags := flag, mode := IFREG }
  tasks _ := { uid := 0, gid := 0, ipwd := 0, iroot := 0, umask := 0, files := fun _ => some 3 }
  running := 0
  clock _ := 0
  ticks := 0

theorem oneByte_mode (flag inode : ℕ) : (oneByte flag inode).mode inode = IFREG := oneByteBlock_mode

theorem oneByte_size (flag inode : ℕ) : (oneByte flag inode).size inode = 1 := oneByteBlock_size

theorem oneByte_loop (flag inode : ℕ) :
    ∃ bytes u, readLoop inode (chunks 1 1 0) (oneByte flag inode) = some (bytes, u) := ⟨_, _, rfl⟩

theorem oneByte_inodeRead (flag inode : ℕ) :
    ∃ bytes u, inodeRead inode 1 0 (oneByte flag inode) = some (some bytes, u) := by
  obtain ⟨bytes, u, h⟩ := oneByte_loop flag inode
  unfold inodeRead
  rw [peek_bind, oneByte_mode, assert_bind (by decide), peek_bind, oneByte_size, if_neg (by decide)]
  exact ⟨bytes, _, bind_of_eq h⟩

theorem oneByte_descriptor (fd flag inode : ℕ) : Descriptor (oneByte flag inode) fd flag inode :=
  ⟨3, rfl, rfl, rfl⟩

theorem oneByte_inodeWrite (flag inode : ℕ) :
    ∃ u, inodeWrite inode [0] 0 (oneByte flag inode) = some (1, u) := ⟨_, rfl⟩

theorem oneByte_read (fd inode : ℕ) (hf : Readable flag) :
    ∃ bytes u, sysRead fd 1 (oneByte flag inode) = some (some bytes, u) := by
  obtain ⟨bytes, u, h⟩ := oneByte_inodeRead flag inode
  refine ⟨bytes, u.advance 3 bytes.length, ?_⟩
  unfold sysRead
  rw [bind_of_eq (fdFile_eq.mpr ⟨rfl, rfl⟩), assert_bind (by decide), peek_bind,
    if_neg (by exact hf), bind_of_eq (fileInode_eq.mpr ⟨rfl, rfl⟩), peek_bind]
  exact bind_of_eq h

theorem oneByte_write (fd inode : ℕ) (hf : Writable flag) :
    ∃ u, sysWrite fd [0] (oneByte flag inode) = some (1, u) := by
  obtain ⟨u, h⟩ := oneByte_inodeWrite flag inode
  refine ⟨u.advance 3 1, ?_⟩
  unfold sysWrite
  rw [bind_of_eq (fdFile_eq.mpr ⟨rfl, rfl⟩), assert_bind (by decide), peek_bind,
    if_neg (by exact hf), bind_of_eq (fileInode_eq.mpr ⟨rfl, rfl⟩), peek_bind]
  exact bind_of_eq h

/-- In words of the rights alone. -/
theorem openRule_iff (h : fd ≠ EOF ↔ w.permission inode (openFlag flag &&& O_ACCMODE) = true) :
    OpenRule w inode flag fd ↔ (w.permission inode (openFlag flag &&& O_ACCMODE) = true ↔
      (Readable flag → w.permission inode P_READ = true) ∧
      (Writable flag ∨ flag &&& O_TRUNC ≠ 0 → w.permission inode P_WRITE = true)) := by
  rw [← h]
  constructor
  · intro hr
    refine ⟨fun hfd => ⟨fun hread => ?_, fun hwrite => ?_⟩, fun hneed => hr.grant hneed.1 hneed.2⟩
    · obtain ⟨bytes, u, hu⟩ := oneByte_read fd inode hread
      exact hr.read hfd _ _ _ _ (oneByte_descriptor fd flag inode) hu
    · rcases hwrite with hwrite | htrunc
      · obtain ⟨u, hu⟩ := oneByte_write fd inode hwrite
        exact hr.write hfd _ _ _ _ (oneByte_descriptor fd flag inode) hu (by decide)
      · exact hr.truncate hfd htrunc
  · intro hiff
    refine ⟨fun hfd t u n bytes hd hu => (hiff.mp hfd).1 (sysRead_readable hd hu),
      fun hfd t u n bytes hd hu hn => (hiff.mp hfd).2 (.inl (sysWrite_writable hd hu hn)),
      fun hfd htrunc => (hiff.mp hfd).2 (.inr htrunc), fun hread hwrite => hiff.mpr ⟨hread, hwrite⟩⟩

theorem agree_iff (hk : w.task.uid ≠ KERNEL_USER) :
    Agree w inode flag ↔ (w.permission inode (openFlag flag &&& O_ACCMODE) = true ↔
      (Readable flag → w.permission inode P_READ = true) ∧
      (Writable flag ∨ flag &&& O_TRUNC ≠ 0 → w.permission inode P_WRITE = true)) := by
  unfold Agree Readable Writable
  rw [openFlag_acc]
  by_cases hl : w.nlinks inode = 0
  · simp only [permission_nlinks hl, hl]
    rcases accmode_cases flag with h | h | h | h <;> simp [h, O_WRONLY, O_RDONLY]
  have h0 : w.permission inode 0 = true := permission_zero hk hl
  have h3 : w.permission inode 3 = (w.permission inode P_EXEC && w.permission inode P_WRITE) :=
    permission_three hk hl
  rcases accmode_cases flag with h | h | h | h <;>
    by_cases ht : flag &&& O_TRUNC = 0 <;>
    simp [h, ht, hl, O_WRONLY, O_RDONLY, h0, h3, P_EXEC, P_WRITE]

/-- An open gives the access the rights allow, no more and no less, exactly where the
rights that the code tests for its access mode agree with those the mode needs. -/
theorem open_rule (hk : w.task.uid ≠ KERNEL_USER) (hp : PathTo s path inode w)
    (h : sysOpen path flag mode s = some (fd, t)) : OpenRule w inode flag fd ↔ Agree w inode flag :=
  (openRule_iff (open_succeeds hp h)).trans (agree_iff hk).symm

/-- The way of `inode_open` to the inode that a path names. -/
def walkTo (pathname : Str) : Prog State (Option ℕ) := do
  match ← named pathname with
  | none => return none
  | some (dir, name) =>
    if deref name = EOS then return none
    else do
      match ← findEntry dir name with
      | none => return none
      | some (entry, _) => do
        let dev ← peek fun s => (s.inodeTable dir).dev
        let inode ← iget dev (← peek fun s => s.entryNr entry)
        return some inode

theorem pathTo_of_walk (h : walkTo path s = some (some inode, w)) (hf : isFile (w.mode inode) = true) :
    PathTo s path inode w := by
  unfold walkTo at h
  obtain ⟨p, u, hn, h⟩ := bind_eq_some.mp h
  rcases p with - | ⟨dir, name⟩
  · simp at h
  dsimp only at h
  split_ifs at h with hname
  · simp at h
  obtain ⟨e, v, he, h⟩ := bind_eq_some.mp h
  rcases e with - | ⟨entry, next⟩
  · simp at h
  dsimp only at h
  rw [peek_bind, peek_bind] at h
  obtain ⟨i, x, hi, h⟩ := bind_eq_some.mp h
  simp only [pure_apply, Option.some.injEq, Prod.mk.injEq] at h
  obtain ⟨rfl, rfl⟩ := h
  exact ⟨dir, name, u, v, entry, next, hn, hname, he, hi, hf⟩

/-- The root holds the file `a` with mode 0644, which belongs to the task. -/
def ownFile : Image where
  descs := [⟨0o040755, 0, 48, 2, [5]⟩, ⟨0o100644, 1000, 0, 1, []⟩]
  blocks := [dentry 1 [DOT] ++ dentry 1 [DOT, DOT] ++ dentry 2 [0x61]]
  uid := 1000

theorem ownFile_walk : (walkTo fileA ownFile.mount).any (fun r => r.2.task.uid ≠ KERNEL_USER &&
    r.1.any fun i => isFile (r.2.mode i) && r.2.permission i P_WRITE) = true := by decide +kernel

theorem ownFile_open :
    (sysOpen fileA O_WRONLY 0 ownFile.mount).any (fun r => r.1 = EOF) = true := by decide +kernel

theorem ownFile_pathTo : ∃ inode w, PathTo ownFile.mount fileA inode w ∧
    w.task.uid ≠ KERNEL_USER ∧ w.permission inode P_WRITE = true := by
  obtain ⟨⟨o, w⟩, hr, hp⟩ := (Option.any_eq_true _ _).mp ownFile_walk
  simp only [Bool.and_eq_true, decide_eq_true_eq] at hp
  obtain ⟨hk, ho⟩ := hp
  obtain ⟨inode, rfl, hi⟩ := (Option.any_eq_true _ _).mp ho
  simp only [Bool.and_eq_true] at hi
  exact ⟨inode, w, pathTo_of_walk hr hi.1, hk, hi.2⟩

/-- The owner may write the file and is refused `O_WRONLY`. -/
theorem wronly_refused : ∃ (s t w : State) (path : Str) (inode flag mode fd : ℕ),
    w.task.uid ≠ KERNEL_USER ∧ PathTo s path inode w ∧ sysOpen path flag mode s = some (fd, t) ∧
      ¬ OpenRule w inode flag fd := by
  obtain ⟨inode, w, hp, hk, hw⟩ := ownFile_pathTo
  obtain ⟨⟨fd, t⟩, hr, hfd⟩ := (Option.any_eq_true _ _).mp ownFile_open
  refine ⟨ownFile.mount, t, w, fileA, inode, O_WRONLY, 0, fd, hk, hp, hr, fun hrule => ?_⟩
  exact hrule.grant (fun h => absurd rfl h) (fun _ => hw) (by simpa using hfd)

theorem open_rule_ownFile : ∃ inode w fd t, PathTo ownFile.mount fileA inode w ∧
    sysOpen fileA O_WRONLY 0 ownFile.mount = some (fd, t) ∧
      (OpenRule w inode O_WRONLY fd ↔ Agree w inode O_WRONLY) := by
  obtain ⟨inode, w, hp, hk, -⟩ := ownFile_pathTo
  obtain ⟨⟨fd, t⟩, hr, -⟩ := (Option.any_eq_true _ _).mp ownFile_open
  exact ⟨inode, w, fd, t, hp, hr, open_rule hk hp hr⟩

end Onix.Fs
