import Onix.Proofs.Permission
import Onix.Sanity.DescFields

/-! A call that fails changes no block, except an `inode_open` that may not open the
file it has just made. -/

namespace Onix.Fs

open Function Prog Cstr

/-- `permission(inode, mask)` for a file that the running task makes with `mode`. -/
def State.newPermission (s : State) (mode mask : ℕ) : Bool :=
  let bits := s.newMode mode IFREG % 2 ^ 16
  let rights :=
    if s.task.uid = s.task.uid % 2 ^ 16 then bits >>> 6
    else if s.task.gid = s.task.gid % 2 ^ 8 then bits >>> 3
    else bits
  s.task.uid = KERNEL_USER || rights &&& mask &&& 0b111 == mask

/-- An open makes the file, whose mode then denies the access it asks for. -/
def RefusedNew (s : State) (c : Call) : Prop :=
  ∃ path flag mode dir name u v, c = .open path flag mode ∧
    c.place s = some (some (dir, name), u) ∧ findEntry dir name u = some (none, v) ∧
    flag &&& O_CREAT ≠ 0 ∧ v.permission dir P_WRITE = true ∧
    s.newPermission mode (openFlag flag &&& O_ACCMODE) = false

variable {s t u v w : State} {c : Call} {ok : Bool} {i dir mode flag : ℕ} {name path : Str}

theorem permission_bits (x : ℕ) : andNot (x &&& 0o777) i &&& IFMT = 0 := by
  unfold andNot
  have h : x &&& 0o777 &&& IFMT = 0 := by
    rw [Nat.and_assoc]
    exact Nat.and_zero x
  rw [Nat.and_xor_distrib_right, h, Nat.and_right_comm, h, Nat.zero_and]
  rfl

/-- A file that `inode_open` has made is no directory. -/
theorem newMode_not_dir (s : State) (mode : ℕ) : isDir (s.newMode mode IFREG % 2 ^ 16) = false := by
  have h : s.newMode mode IFREG % 2 ^ 16 &&& IFMT = IFREG := by
    rw [← Nat.and_two_pow_sub_one_eq_mod, Nat.and_assoc]
    change _ &&& IFMT = IFREG
    rw [State.newMode, Nat.and_or_distrib_right, permission_bits, Nat.zero_or]
    rfl
  rw [isDir, h]
  rfl

/-- The last step of `openIn` fills in the inode; the running task is the same. -/
theorem openIn_last {entry : Entry} (h : openIn dir name mode v = some ((entry, i), w)) :
    ∃ x, Fixed v x ∧ openInode i mode x = some ((), w) := by
  obtain ⟨e, v₁, h₁, h⟩ := bind_eq_some.mp h
  obtain ⟨dev, v₂, h₂, h⟩ := bind_eq_some.mp h
  obtain ⟨nr, v₃, h₃, h⟩ := bind_eq_some.mp h
  obtain ⟨⟨⟩, v₄, h₄, h⟩ := bind_eq_some.mp h
  obtain ⟨nr', v₅, h₅, h⟩ := bind_eq_some.mp h
  obtain ⟨j, v₆, h₆, h⟩ := bind_eq_some.mp h
  obtain ⟨⟨⟩, v₇, h₇, h⟩ := bind_eq_some.mp h
  simp only [pure_apply, Option.some.injEq, Prod.mk.injEq] at h
  obtain ⟨⟨-, rfl⟩, rfl⟩ := h
  refine ⟨v₆, ?_, h₇⟩
  have f₁ : Fixed v v₁ := (addEntry_same dir name v _ _ h₁).fixed
  have f₂ : Fixed v₁ v₂ := leads_peek _ v₁ _ _ h₂
  have f₃ : Fixed v₂ v₃ := (ialloc_same dev v₂ _ _ h₃).fixed
  have f₄ : Fixed v₃ v₄ := fixed_of_same (poke_same fun _ => rfl) v₃ _ _ h₄
  have f₅ : Fixed v₄ v₅ := leads_peek _ v₄ _ _ h₅
  have f₆ : Fixed v₅ v₆ := (iget_quiet dev nr' v₅ _ _ h₆).fixed
  exact trans_of Fixed f₁ (trans_of Fixed f₂ (trans_of Fixed f₃ (trans_of Fixed f₄
    (trans_of Fixed f₅ f₆))))

/-- What the new file allows its maker follows from the mode asked for. -/
theorem openIn_allows {entry : Entry} (h : openIn dir name mode v = some ((entry, i), w)) :
    w.allows i flag = v.newPermission mode (flag &&& O_ACCMODE) := by
  obtain ⟨x, hx, ho⟩ := openIn_last h
  obtain ⟨hmode, huid, hgid, hlinks, -⟩ := openInode_fields ho
  have htask : w.task = x.task := (openInode_same i mode x _ _ ho).fixed.task
  have hnew : x.newMode mode IFREG = v.newMode mode IFREG := by
    unfold State.newMode
    rw [hx.task]
  have hdir : isDir (w.mode i) = false := by
    rw [hmode]
    exact newMode_not_dir x mode
  rw [State.allows, hdir, State.permission, State.rights, hlinks, hmode, huid, hgid, htask, hnew,
    hx.task]
  unfold State.newPermission
  by_cases hk : v.task.uid = KERNEL_USER <;> simp [hk]

theorem newPermission_congr {mask : ℕ} (h : Fixed s v) :
    v.newPermission mode mask = s.newPermission mode mask := by
  unfold State.newPermission State.newMode
  rw [h.task]

/-- `inode_open` has changed no block where it fails, unless it had to make the file. -/
theorem open_unchanged (h : inodeOpen path flag mode s = some (none, t))
    (hn : ¬ RefusedNew s (.open path flag mode)) : t.data = s.data := by
  cases inodeOpen_cases h with
  | quiet ho hq => exact hq.data
  | parent dir name hn' hname ho => cases ho
  | old dir name next u v w entry inode hn' hname hf hi hm =>
    rcases makeup_cases hm with ⟨-, hq, -⟩ | ⟨ho, -⟩
    · exact (trans_of Quiet (named_quiet path s _ _ hn') (trans_of Quiet
        (findEntry_quiet dir name u _ _ hf) (trans_of Quiet (iget_quiet _ _ v _ _ hi) hq))).data
    · cases ho
  | new dir name u v w entry inode hn' hname hf hcreat hp hi hm =>
    rcases makeup_cases hm with ⟨-, -, hno⟩ | ⟨ho, -⟩
    · have hsv : Fixed s v := trans_of Fixed (named_quiet path s _ _ hn').fixed
        (findEntry_same dir name u _ _ hf).fixed
      rw [openIn_allows hi, newPermission_congr hsv] at hno
      exact absurd ⟨path, flag, mode, dir, name, u, v, rfl, lookup_of_named hn' hname, hf, hcreat,
        hp, hno⟩ hn
    · cases ho

theorem failed_unchanged (c : Call) (h : c.run s = some (false, t)) (hn : ¬ RefusedNew s c) :
    t.data = s.data := by
  cases c with
  | mkdir path mode =>
    obtain ⟨r, hr, hf⟩ := run_eq h
    rcases sysMkdir_cases hr with ⟨-, hq⟩ | ⟨dir, name, u, v, -, -, hm⟩
    · exact hq.data
    · obtain rfl := mkdirIn_returns v r t hm
      exact absurd hf (by decide)
  | rmdir path =>
    obtain ⟨r, hr, hf⟩ := run_eq h
    rcases sysRmdir_cases hr with ⟨-, hq⟩ | ⟨dir, inode, entry, u, v, w, -, -, -, -, rfl, -⟩
    · exact hq.data
    · exact absurd hf (by decide)
  | link old new =>
    obtain ⟨r, hr, hf⟩ := run_eq h
    rcases sysLink_cases hr with ⟨-, hq⟩ | ⟨inode, dir, name, v, w, entry, -, -, rfl, -⟩
    · exact hq.data
    · exact absurd hf (by decide)
  | unlink path =>
    obtain ⟨r, hr, hf⟩ := run_eq h
    rcases sysUnlink_cases hr with ⟨-, hq⟩ | ⟨dir, inode, entry, u, w, -, -, -, rfl, -⟩
    · exact hq.data
    · exact absurd hf (by decide)
  | «open» path flag mode =>
    obtain ⟨o, hr, hf⟩ := run_eq h
    obtain rfl : o = none := by simpa using hf.symm
    exact open_unchanged hr hn

/-- The blocks after the call are those of a volume on which the file has been made. -/
def MadeFile (s : State) (c : Call) (t : State) : Prop :=
  ∃ path flag mode dir name u v entry inode w, c = .open path flag mode ∧ Quiet s u ∧
    findEntry dir name u = some (none, v) ∧ openIn dir name mode v = some ((entry, inode), w) ∧
    Quiet w t

/-- The refused open fails and leaves what it has made. -/
theorem refused_made (h : c.run s = some (ok, t)) (hr : RefusedNew s c) :
    ok = false ∧ MadeFile s c t := by
  obtain ⟨path, flag, mode, dir, name, u, v, rfl, hl, hf, hcreat, hp, hno⟩ := hr
  obtain ⟨hn, hname⟩ := named_of_lookup hl
  obtain ⟨o, ho, rfl⟩ := run_eq h
  rw [inodeOpen_new hn hname hf hcreat hp] at ho
  obtain ⟨⟨entry, inode⟩, w, hi, hm⟩ := bind_eq_some.mp ho
  have hsu : Quiet s u := named_quiet path s _ _ hn
  have hsv : Fixed s v := trans_of Fixed hsu.fixed (findEntry_same dir name u _ _ hf).fixed
  have hallows : w.allows inode (openFlag flag) =
      v.newPermission mode (openFlag flag &&& O_ACCMODE) := openIn_allows hi
  rw [newPermission_congr hsv, hno] at hallows
  rcases makeup_cases hm with ⟨rfl, hq, -⟩ | ⟨-, hyes, -⟩
  · exact ⟨rfl, path, flag, mode, dir, name, u, v, entry, inode, w, rfl, hsu, hf, hi, hq⟩
  · rw [hallows] at hyes
    cases hyes

/-- A failed call changes no block, unless it is an `inode_open` that makes a file and
is then refused; that one always fails and leaves the file. -/
theorem failure_atomic (c : Call) (h : c.run s = some (ok, t)) :
    (¬ RefusedNew s c → ok = false → t.data = s.data) ∧
      (RefusedNew s c → ok = false ∧ MadeFile s c t) :=
  ⟨fun hn hok => failed_unchanged c (hok ▸ h) hn, refused_made h⟩

/-- An empty root that everyone may write, and a task that is not the kernel's. -/
def sharedRoot : Image where
  descs := [⟨0o040777, 0, 32, 2, [5]⟩]
  blocks := [dentry 1 [DOT] ++ dentry 1 [DOT, DOT]]
  uid := 1000

/-- `open("/b", O_CREAT | O_RDWR, 0)`. -/
def openB : Call := .open nameB (O_CREAT ||| O_RDWR) 0

theorem openB_fails : (openB.run sharedRoot.mount).any
    (fun r => !r.1 && r.2.size 0 ≠ sharedRoot.mount.size 0) = true := by decide +kernel

/-- The failing open leaves the root one entry larger. -/
theorem openB_grows : ∃ (s t : State) (c : Call), c.run s = some (false, t) ∧ t.size 0 ≠ s.size 0 := by
  obtain ⟨⟨ok, t⟩, hr, hok⟩ := (Option.any_eq_true _ _).mp openB_fails
  simp only [Bool.and_eq_true, Bool.not_eq_true', decide_eq_true_eq] at hok
  exact ⟨sharedRoot.mount, t, openB, hok.1 ▸ hr, hok.2⟩

theorem failure_atomic_openB : ∃ ok t, openB.run sharedRoot.mount = some (ok, t) ∧
    (¬ RefusedNew sharedRoot.mount openB → ok = false → t.data = sharedRoot.mount.data) ∧
      (RefusedNew sharedRoot.mount openB → ok = false ∧ MadeFile sharedRoot.mount openB t) := by
  obtain ⟨⟨ok, t⟩, hr, -⟩ := (Option.any_eq_true _ _).mp openB_fails
  exact ⟨ok, t, hr, failure_atomic openB hr⟩

end Onix.Fs
