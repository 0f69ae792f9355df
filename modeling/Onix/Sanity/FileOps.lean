import Onix.Sanity.NameiCases
import Onix.Spec.File

/-! What the calls on descriptors do to the table of open files. -/

namespace Onix.Fs

open Function Prog Cstr

variable {s t u : State} {inode fd flag mode file : ℕ}

theorem find_range' {p : ℕ → Bool} {i n k : ℕ} (h : (List.range' i n).find? p = some k) :
    i ≤ k ∧ k < i + n ∧ p k = true := by
  have hm := List.mem_of_find?_eq_some h
  have := List.mem_range'_1.mp hm
  exact ⟨this.1, this.2, List.find?_some h⟩

/-- Where a descriptor opened with these flags starts. -/
def State.openOffset (s : State) (inode flags : ℕ) : ℤ :=
  if flags &&& O_APPEND ≠ 0 then i32 (s.size inode) else 0

theorem taskGetFd_eq (h : taskGetFd s = some (fd, t)) :
    (3 ≤ fd ∧ fd < TASK_FILE_NR ∧ s.task.files fd = none) ∧ t = s := by
  unfold taskGetFd at h
  rw [peek_bind] at h
  obtain ⟨hf, rfl⟩ := lift_eq_some.mp h
  obtain ⟨hge, hlt, hp⟩ := find_range' hf
  exact ⟨⟨hge, by unfold TASK_FILE_NR at *; omega, by simpa using hp⟩, rfl⟩

theorem getFile_eq (h : getFile s = some (file, t)) :
    (3 ≤ file ∧ file < FILE_NR ∧ (s.fileTable file).count = 0) ∧
      t = s.modFile file fun f => { f with count := 1 } := by
  unfold getFile at h
  rw [peek_bind] at h
  obtain ⟨file', u, hl, hr⟩ := bind_eq_some.mp h
  obtain ⟨hf, rfl⟩ := lift_eq_some.mp hl
  simp only [poke_bind, pure_apply, Option.some.injEq, Prod.mk.injEq] at hr
  obtain ⟨rfl, rfl⟩ := hr
  obtain ⟨hge, hlt, hp⟩ := find_range' hf
  exact ⟨⟨hge, by unfold FILE_NR at *; omega, by simpa using hp⟩, rfl⟩

/-- `sys_open` puts an unused `file_t` into an unused descriptor. -/
theorem openFile_eq (h : openFile inode flag s = some (fd, t)) : ∃ file,
    (3 ≤ fd ∧ fd < TASK_FILE_NR ∧ s.task.files fd = none) ∧
    (3 ≤ file ∧ file < FILE_NR ∧ (s.fileTable file).count = 0) ∧
    t = (s.modTask fun t => t.setFd fd (some file)).modFile file
      fun _ => ⟨some inode, 1, s.openOffset inode flag, flag, s.mode inode⟩ := by
  unfold openFile at h
  obtain ⟨fd', s₁, h₁, k₁⟩ := bind_eq_some.mp h
  obtain ⟨hfd, rfl⟩ := taskGetFd_eq h₁
  obtain ⟨file, s₂, h₂, k₂⟩ := bind_eq_some.mp k₁
  obtain ⟨hfile, rfl⟩ := getFile_eq h₂
  rw [peek_bind] at k₂
  obtain ⟨⟨⟩, s₃, h₃, k₃⟩ := bind_eq_some.mp k₂
  obtain ⟨-, rfl⟩ := assert_eq_some.mp h₃
  rw [poke_bind, poke_bind] at k₃
  obtain ⟨⟨⟩, s₄, h₄, k₄⟩ := bind_eq_some.mp k₃
  simp only [pure_apply, Option.some.injEq, Prod.mk.injEq] at k₄
  obtain ⟨rfl, rfl⟩ := k₄
  refine ⟨file, hfd, hfile, ?_⟩
  unfold State.openOffset
  by_cases hap : flag &&& O_APPEND ≠ 0
  · rw [decide_eq_true hap, when_true] at h₄
    rw [if_pos hap]
    simp only [poke_apply, Option.some.injEq, Prod.mk.injEq, true_and] at h₄
    subst h₄
    simp [State.modFile, State.modTask, State.task, State.mode, State.size, State.ibuf,
      State.idesc, State.data]
  · rw [decide_eq_false hap, when_false] at h₄
    rw [if_neg hap]
    simp only [pure_apply, Option.some.injEq, Prod.mk.injEq, true_and] at h₄
    subst h₄
    simp [State.modFile, State.modTask, State.task, State.mode, State.ibuf, State.idesc, State.data]

theorem fdFile_eq : fdFile fd s = some (file, t) ↔ s.task.files fd = some file ∧ t = s := by
  unfold fdFile
  rw [peek_bind, lift_eq_some]

theorem fileInode_eq :
    fileInode file s = some (inode, t) ↔ (s.fileTable file).inode = some inode ∧ t = s := by
  unfold fileInode
  rw [peek_bind, lift_eq_some]

/-- The two ways through `sys_read`. -/
theorem sysRead_cases {n : ℕ} {r : Option (List Byte)} (h : sysRead fd n s = some (r, t)) :
    ∃ file, s.task.files fd = some file ∧
      (((s.fileTable file).flags &&& O_ACCMODE = O_WRONLY ∧ r = none ∧ t = s) ∨
      ((s.fileTable file).flags &&& O_ACCMODE ≠ O_WRONLY ∧ ∃ inode u,
        (s.fileTable file).inode = some inode ∧
        inodeRead inode n (s.fileTable file).offset s = some (r, u) ∧
        t = r.elim u fun bytes => u.advance file bytes.length)) := by
  unfold sysRead at h
  obtain ⟨file, s₁, h₁, k₁⟩ := bind_eq_some.mp h
  obtain ⟨hfile, rfl⟩ := fdFile_eq.mp h₁
  obtain ⟨⟨⟩, s₂, h₂, k₂⟩ := bind_eq_some.mp k₁
  obtain ⟨-, rfl⟩ := assert_eq_some.mp h₂
  rw [peek_bind] at k₂
  refine ⟨file, hfile, ?_⟩
  split_ifs at k₂ with hf
  · simp only [pure_apply, Option.some.injEq, Prod.mk.injEq] at k₂
    exact .inl ⟨hf, k₂.1.symm, k₂.2.symm⟩
  obtain ⟨inode, s₃, h₃, k₃⟩ := bind_eq_some.mp k₂
  obtain ⟨hi, rfl⟩ := fileInode_eq.mp h₃
  rw [peek_bind] at k₃
  obtain ⟨r', u, hr, k₄⟩ := bind_eq_some.mp k₃
  refine .inr ⟨hf, inode, u, hi, ?_⟩
  cases r' with
  | none =>
    simp only [pure_apply, Option.some.injEq, Prod.mk.injEq] at k₄
    obtain ⟨rfl, rfl⟩ := k₄
    exact ⟨hr, rfl⟩
  | some bytes =>
    simp only [poke_bind, pure_apply, Option.some.injEq, Prod.mk.injEq] at k₄
    obtain ⟨rfl, rfl⟩ := k₄
    exact ⟨hr, rfl⟩

/-- The two ways through `sys_write`. -/
theorem sysWrite_cases {n : ℕ} {bytes : List Byte} (h : sysWrite fd bytes s = some (n, t)) :
    ∃ file, s.task.files fd = some file ∧
      (((s.fileTable file).flags &&& O_ACCMODE = O_RDONLY ∧ n = EOF ∧ t = s) ∨
      ((s.fileTable file).flags &&& O_ACCMODE ≠ O_RDONLY ∧ ∃ inode u,
        (s.fileTable file).inode = some inode ∧
        inodeWrite inode bytes (s.fileTable file).offset s = some (n, u) ∧
        t = u.advance file n)) := by
  unfold sysWrite at h
  obtain ⟨file, s₁, h₁, k₁⟩ := bind_eq_some.mp h
  obtain ⟨hfile, rfl⟩ := fdFile_eq.mp h₁
  obtain ⟨⟨⟩, s₂, h₂, k₂⟩ := bind_eq_some.mp k₁
  obtain ⟨-, rfl⟩ := assert_eq_some.mp h₂
  rw [peek_bind] at k₂
  refine ⟨file, hfile, ?_⟩
  split_ifs at k₂ with hf
  · simp only [pure_apply, Option.some.injEq, Prod.mk.injEq] at k₂
    exact .inl ⟨hf, k₂.1.symm, k₂.2.symm⟩
  obtain ⟨inode, s₃, h₃, k₃⟩ := bind_eq_some.mp k₂
  obtain ⟨hi, rfl⟩ := fileInode_eq.mp h₃
  rw [peek_bind] at k₃
  obtain ⟨n', u, hr, k₄⟩ := bind_eq_some.mp k₃
  simp only [poke_bind, pure_apply, Option.some.injEq, Prod.mk.injEq] at k₄
  obtain ⟨rfl, rfl⟩ := k₄
  exact .inr ⟨hf, inode, u, hi, hr, rfl⟩
theorem i32_of_nonneg {n : ℤ} (h : 0 ≤ n) (hlt : n < 2 ^ 31) : i32 n = n :=
  Int.bmod_eq_of_le (by norm_num; omega) (by norm_num; omega)

theorem i32_lt (n : ℤ) : i32 n < 2 ^ 31 := by
  have h : i32 n < ((2 ^ 32 : ℕ) + 1) / 2 := Int.bmod_lt (by decide)
  norm_num at h
  omega

/-- What `sys_lseek` stores; only `SEEK_END` may store an offset below 0. -/
theorem sysLseek_cases {offset r : ℤ} {whence : ℕ} (h : sysLseek fd offset whence s = some (r, t)) :
    ∃ file inode, s.task.files fd = some file ∧ (s.fileTable file).inode = some inode ∧
      t = s.modFile file (fun f => { f with offset := r }) ∧
      ((0 ≤ r ∧ r = offset) ∨ (0 ≤ r ∧ ∃ n, r = i32 n) ∨
        (whence = SEEK_END ∧ r = i32 (u32 (s.size inode + offset)))) := by
  unfold sysLseek at h
  obtain ⟨⟨⟩, s₁, h₁, k₁⟩ := bind_eq_some.mp h
  obtain ⟨-, rfl⟩ := assert_eq_some.mp h₁
  obtain ⟨file, s₂, h₂, k₂⟩ := bind_eq_some.mp k₁
  obtain ⟨hfile, rfl⟩ := fdFile_eq.mp h₂
  obtain ⟨inode, s₃, h₃, k₃⟩ := bind_eq_some.mp k₂
  obtain ⟨hi, rfl⟩ := fileInode_eq.mp h₃
  obtain ⟨r', s₄, h₄, k₄⟩ := bind_eq_some.mp k₃
  simp only [poke_bind, pure_apply, Option.some.injEq, Prod.mk.injEq] at k₄
  obtain ⟨rfl, rfl⟩ := k₄
  unfold seekOffset at h₄
  split_ifs at h₄ with hset hcur hend
  · obtain ⟨⟨⟩, s₅, h₅, k₅⟩ := bind_eq_some.mp h₄
    obtain ⟨hpos, rfl⟩ := assert_eq_some.mp h₅
    simp only [pure_apply, Option.some.injEq, Prod.mk.injEq] at k₅
    obtain ⟨rfl, rfl⟩ := k₅
    exact ⟨file, inode, hfile, hi, rfl, .inl ⟨by simpa using hpos, rfl⟩⟩
  · rw [peek_bind] at h₄
    obtain ⟨⟨⟩, s₅, h₅, k₅⟩ := bind_eq_some.mp h₄
    obtain ⟨hpos, rfl⟩ := assert_eq_some.mp h₅
    simp only [pure_apply, Option.some.injEq, Prod.mk.injEq] at k₅
    obtain ⟨rfl, rfl⟩ := k₅
    exact ⟨file, inode, hfile, hi, rfl, .inr (.inl ⟨by simpa using hpos, _, rfl⟩)⟩
  · rw [peek_bind] at h₄
    obtain ⟨⟨⟩, s₅, h₅, k₅⟩ := bind_eq_some.mp h₄
    obtain ⟨-, rfl⟩ := assert_eq_some.mp h₅
    simp only [pure_apply, Option.some.injEq, Prod.mk.injEq] at k₅
    obtain ⟨rfl, rfl⟩ := k₅
    exact ⟨file, inode, hfile, hi, rfl, .inr (.inr ⟨hend, rfl⟩)⟩
  · simp at h₄

end Onix.Fs
