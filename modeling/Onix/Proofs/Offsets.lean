import Onix.Lib.Run
import Onix.Sanity.Chunks
import Onix.Sanity.DescFields
import Onix.Spec.Image

/-! Offsets of open files over any run of calls on descriptors: they stay at or above 0
as long as `SEEK_END` is not used to go before the start of a file. -/

namespace Onix.Fs

open Function Prog Cstr

/-- The calls, each by a task of its own choice. -/
inductive FileAct where
  | open (filename : Str) (flags mode : ℕ)
  | lseek (fd : ℕ) (offset : ℤ) (whence : ℕ)
  | read (fd count : ℕ)
  | write (fd : ℕ) (bytes : List Byte)

/-- Task `p` runs. -/
def State.runs (s : State) (p : ℕ) : State := { s with running := p }

/-- A call that returns; an `off_t` argument has 32 bits. -/
inductive FileStep : State → ℕ × FileAct → State → Prop where
  | open {s t : State} {p fd flags mode : ℕ} {filename : Str} :
      sysOpen filename flags mode (s.runs p) = some (fd, t) →
      FileStep s (p, .open filename flags mode) t
  | lseek {s t : State} {p fd whence : ℕ} {offset r : ℤ} :
      sysLseek fd (i32 offset) whence (s.runs p) = some (r, t) →
      FileStep s (p, .lseek fd offset whence) t
  | read {s t : State} {p fd count : ℕ} {r : Option (List Byte)} :
      sysRead fd count (s.runs p) = some (r, t) → FileStep s (p, .read fd count) t
  | write {s t : State} {p fd r : ℕ} {bytes : List Byte} :
      sysWrite fd bytes (s.runs p) = some (r, t) → FileStep s (p, .write fd bytes) t

/-- No offset is negative, and no copy of any length that starts at one leaves the block
it uses. -/
def OffsetsSafe (s : State) : Prop := ∀ file, 0 ≤ (s.fileTable file).offset ∧
  ∀ left, ∀ c ∈ chunks left left (s.fileTable file).offset, c.Inside

/-- The inode that `inode_open` finds at the end of a path, before it opens it. -/
def openTarget (pathname : Str) : Prog State (Option ℕ) := do
  match ← named pathname with
  | none => return none
  | some (dir, name) =>
    if deref name = EOS then return some dir
    else do
      match ← findEntry dir name with
      | none => return none
      | some (entry, _) => do
        let dev ← peek fun s => (s.inodeTable dir).dev
        let inode ← iget dev (← peek fun s => s.entryNr entry)
        return some inode

/-- `SEEK_END` goes to an offset from 0 on, and a file opened to append to has a size
that is one. -/
def WithinFile (s : State) : ℕ × FileAct → Prop
  | (p, .lseek fd offset whence) => whence = SEEK_END → ∀ file inode,
      (s.tasks p).files fd = some file → (s.fileTable file).inode = some inode →
      u32 (s.size inode + i32 offset) < 2 ^ 31
  | (p, .open filename flags _) => flags &&& O_APPEND ≠ 0 → ∀ inode w,
      openTarget filename (s.runs p) = some (some inode, w) → w.size inode < 2 ^ 31
  | _ => True

/-- Offsets as an `off_t` can hold them. -/
def OffsetsHeld (s : State) : Prop := ∀ file,
  0 ≤ (s.fileTable file).offset ∧ (s.fileTable file).offset < 2 ^ 31

variable {s t u : State} {p fd flag mode file inode : ℕ} {path : Str} {a : ℕ × FileAct}
  {as : List (ℕ × FileAct)}

theorem OffsetsHeld.safe (h : OffsetsHeld s) : OffsetsSafe s := by
  intro file
  refine ⟨(h file).1, fun left c hc => ?_⟩
  obtain ⟨n, hn⟩ := Int.eq_ofNat_of_zero_le (h file).1
  rw [hn] at hc
  exact chunks_inside c hc

theorem OffsetsHeld.congr (h : OffsetsHeld s) (ht : t.fileTable = s.fileTable) : OffsetsHeld t := by
  unfold OffsetsHeld
  rw [ht]
  exact h

/-- One `file_t` gets another offset. -/
theorem OffsetsHeld.modFile (h : OffsetsHeld s) {f : FileT → FileT}
    (hf : 0 ≤ (f (s.fileTable file)).offset ∧ (f (s.fileTable file)).offset < 2 ^ 31) :
    OffsetsHeld (s.modFile file f) := by
  intro file'
  by_cases hne : file' = file
  · subst hne
    simpa [State.modFile] using hf
  · simpa [State.modFile, hne] using h file'

theorem OffsetsHeld.advance (h : OffsetsHeld s) {len : ℕ} (hl : len = 0 ∨
    (s.fileTable file).offset + len ≤ TOTAL_BLOCK * BLOCK_SIZE) : OffsetsHeld (s.advance file len) := by
  have htotal : ((TOTAL_BLOCK * BLOCK_SIZE : ℕ) : ℤ) = 268966912 := rfl
  obtain ⟨hpos, hlt⟩ := h file
  have hin : 0 ≤ (s.fileTable file).offset + len ∧ (s.fileTable file).offset + len < 2 ^ 31 := by
    push_cast at htotal
    omega
  refine h.modFile ?_
  dsimp only
  rw [i32_of_nonneg hin.1 hin.2]
  exact hin

/-- The offset an opened file starts with. -/
theorem openOffset_held (h : flag &&& O_APPEND ≠ 0 → s.size inode < 2 ^ 31) :
    0 ≤ s.openOffset inode flag ∧ s.openOffset inode flag < 2 ^ 31 := by
  unfold State.openOffset
  split_ifs with hap
  · have hlt : (s.size inode : ℤ) < 2 ^ 31 := by exact_mod_cast h hap
    rw [i32_of_nonneg (by omega) hlt]
    exact ⟨by omega, hlt⟩
  · exact ⟨by decide, by decide⟩

/-- An open leaves the size that the file had, or 0. -/
theorem makeup_size {dir buf i : ℕ} (h : makeup dir inode buf flag s = some (some i, t)) :
    i = inode ∧ (t.size i = 0 ∨ t.size i = s.size i) := by
  rcases makeup_cases h with ⟨ho, -⟩ | ⟨ho, -, u, v, hu, hv, hq, hs⟩
  · cases ho
  obtain rfl : i = inode := by simpa using ho
  have htv : t.size i = v.size i := size_congr hq hs i
  have hus : u.size i = s.size i := size_congr (touch_quiet i s _ _ hu) (touch_seated i s _ _ hu) i
  refine ⟨rfl, ?_⟩
  rw [htv, ← hus]
  by_cases htrunc : flag &&& O_TRUNC ≠ 0
  · rw [decide_eq_true htrunc, when_true] at hv
    rcases inodeTruncate_size hv with h0 | rfl
    · exact .inl h0
    · exact .inr rfl
  · rw [decide_eq_false htrunc, when_false] at hv
    simp only [pure_apply, Option.some.injEq, Prod.mk.injEq, true_and] at hv
    exact .inr (by rw [hv])

theorem openIn_size {dir i : ℕ} {name : Str} {entry : Entry} {v w : State}
    (h : openIn dir name mode v = some ((entry, i), w)) : w.size i = 0 := by
  obtain ⟨e, v₁, -, k₁⟩ := bind_eq_some.mp h
  rw [peek_bind] at k₁
  obtain ⟨nr, v₂, -, k₂⟩ := bind_eq_some.mp k₁
  rw [poke_bind, peek_bind] at k₂
  obtain ⟨j, v₃, -, k₃⟩ := bind_eq_some.mp k₂
  obtain ⟨⟨⟩, v₄, h₄, k₄⟩ := bind_eq_some.mp k₃
  simp only [pure_apply, Option.some.injEq, Prod.mk.injEq] at k₄
  obtain ⟨⟨-, rfl⟩, rfl⟩ := k₄
  exact (openInode_fields h₄).2.2.2.2

/-- The size of an opened file is 0 or that of the target before. -/
theorem inodeOpen_size {i : ℕ} (h : inodeOpen path flag mode s = some (some i, t)) :
    t.size i = 0 ∨ ∃ w, openTarget path s = some (some i, w) ∧ t.size i = w.size i := by
  cases inodeOpen_cases h with
  | quiet ho hq => cases ho
  | parent dir name hn hname ho =>
    refine .inr ⟨t, ?_, rfl⟩
    unfold openTarget
    rw [bind_of_eq hn]
    dsimp only
    rw [if_pos hname, ho]
    rfl
  | old dir name next u v w entry inode hn hname hf hi hm =>
    obtain ⟨rfl, h0 | hsize⟩ := makeup_size hm
    · exact .inl h0
    refine .inr ⟨w, ?_, hsize⟩
    unfold openTarget
    rw [bind_of_eq hn]
    dsimp only
    rw [if_neg hname, bind_of_eq hf]
    dsimp only
    rw [peek_bind, peek_bind, bind_of_eq hi]
    rfl
  | new dir name u v w entry inode hn hname hf hcreat hp hi hm =>
    obtain ⟨rfl, h0 | hsize⟩ := makeup_size hm
    · exact .inl h0
    · exact .inl (hsize.trans (openIn_size hi))

theorem offsetsHeld_open (hs : OffsetsHeld s) (hc : WithinFile s (p, .open path flag mode))
    (h : sysOpen path flag mode (s.runs p) = some (fd, t)) : OffsetsHeld t := by
  obtain ⟨o, u, ho, hf⟩ := bind_eq_some.mp h
  have hu : OffsetsHeld u := hs.congr (inodeOpen_fixed path flag mode (s.runs p) _ _ ho).fileTable
  cases o with
  | none =>
    simp only [pure_apply, Option.some.injEq, Prod.mk.injEq] at hf
    exact hf.2 ▸ hu
  | some i =>
    obtain ⟨file, -, -, rfl⟩ := openFile_eq hf
    refine OffsetsHeld.modFile (s := u.modTask _) (fun f => hu f) (openOffset_held fun hap => ?_)
    rcases inodeOpen_size ho with h0 | ⟨w, hw, hsize⟩
    · rw [h0]
      norm_num
    · rw [hsize]
      exact hc hap i w hw

theorem offsetsHeld_lseek {offset r : ℤ} {whence : ℕ} (hs : OffsetsHeld s)
    (hc : WithinFile s (p, .lseek fd offset whence))
    (h : sysLseek fd (i32 offset) whence (s.runs p) = some (r, t)) : OffsetsHeld t := by
  obtain ⟨file, inode, hfile, hi, rfl, hr⟩ := sysLseek_cases h
  refine OffsetsHeld.modFile (s := s.runs p) hs ?_
  rcases hr with ⟨h0, rfl⟩ | ⟨h0, n, rfl⟩ | ⟨hend, he⟩
  · exact ⟨h0, i32_lt offset⟩
  · exact ⟨h0, i32_lt n⟩
  · have hlt : u32 (s.size inode + i32 offset) < 2 ^ 31 := hc hend file inode hfile hi
    have hsize : (s.runs p).size inode = s.size inode := rfl
    dsimp only
    rw [he, hsize, i32_of_nonneg (by omega) (by exact_mod_cast hlt)]
    exact ⟨by omega, by exact_mod_cast hlt⟩

theorem offsetsHeld_read {n : ℕ} {r : Option (List Byte)} (hs : OffsetsHeld s)
    (h : sysRead fd n s = some (r, t)) : OffsetsHeld t := by
  obtain ⟨file, -, ⟨-, -, rfl⟩ | ⟨-, inode, u, -, hr, rfl⟩⟩ := sysRead_cases h
  · exact hs
  have hfile : u.fileTable = s.fileTable := (inodeRead_quiet _ _ _ s _ _ hr).fixed.fileTable
  have hu : OffsetsHeld u := hs.congr hfile
  obtain ⟨m, hm⟩ := Int.eq_ofNat_of_zero_le (hs file).1
  rw [hm] at hr
  have hlt : m < 2 ^ 31 := by
    have := (hs file).2
    omega
  cases r with
  | none => exact hu
  | some bytes =>
    refine hu.advance ((inodeRead_end hr hlt).imp_right fun hend => ?_)
    rw [hfile, hm]
    exact_mod_cast hend

theorem offsetsHeld_write {n : ℕ} {bytes : List Byte} (hs : OffsetsHeld s)
    (h : sysWrite fd bytes s = some (n, t)) : OffsetsHeld t := by
  obtain ⟨file, -, ⟨-, -, rfl⟩ | ⟨-, inode, u, -, hr, rfl⟩⟩ := sysWrite_cases h
  · exact hs
  have hfile : u.fileTable = s.fileTable := (inodeWrite_fixed _ _ _ s _ _ hr).fileTable
  have hu : OffsetsHeld u := hs.congr hfile
  obtain ⟨m, hm⟩ := Int.eq_ofNat_of_zero_le (hs file).1
  rw [hm] at hr
  have hlt : m < 2 ^ 31 := by
    have := (hs file).2
    omega
  refine hu.advance ((inodeWrite_end hr hlt).2.imp_right fun hend => ?_)
  rw [hfile, hm]
  exact_mod_cast hend

theorem offsetsHeld_step (hs : OffsetsHeld s) (h : Guarded WithinFile FileStep s a t) :
    OffsetsHeld t := by
  obtain ⟨hc, hstep⟩ := h
  cases hstep with
  | «open» h => exact offsetsHeld_open hs hc h
  | lseek h => exact offsetsHeld_lseek hs hc h
  | read h => exact offsetsHeld_read (t := t) (by exact hs) h
  | write h => exact offsetsHeld_write (t := t) (by exact hs) h

/-- In every run in which no `SEEK_END` goes before the start of its file, offsets stay
at 0 or above and copies inside their block. -/
theorem offsets_safe (hs : OffsetsHeld s) (h : Run (Guarded WithinFile FileStep) s as t) :
    OffsetsSafe t :=
  (h.invariant (fun _ _ _ hs h => offsetsHeld_step hs h) hs).safe

/-- The root holds the empty file `a`, open to everyone. -/
def emptyFile : Image where
  descs := [⟨0o040755, 0, 48, 2, [5]⟩, ⟨0o100777, 1000, 0, 1, []⟩]
  blocks := [dentry 1 [DOT] ++ dentry 1 [DOT, DOT] ++ dentry 2 [0x61]]
  uid := 1000

theorem emptyFile_held : OffsetsHeld emptyFile.mount := fun _ => ⟨le_rfl, by norm_num [Image.mount]⟩

/-- A `SEEK_END` by `offset` bytes right after an open of `a`, with the state between. -/
def seekEnd (offset : ℤ) : Prog State (ℕ × State × ℤ) := do
  let fd ← sysOpen fileA O_RDWR 0
  let t ← peek id
  let r ← sysLseek fd (i32 offset) SEEK_END
  return (fd, t, r)

theorem seekEnd_eq {offset r : ℤ} (h : seekEnd offset s = some ((fd, t, r), u)) :
    sysOpen fileA O_RDWR 0 s = some (fd, t) ∧ sysLseek fd (i32 offset) SEEK_END t = some (r, u) := by
  obtain ⟨fd', t', ho, h₁⟩ := bind_eq_some.mp h
  rw [peek_bind] at h₁
  obtain ⟨r', u', hl, h₂⟩ := bind_eq_some.mp h₁
  simp only [pure_apply, Option.some.injEq, Prod.mk.injEq, id] at h₂
  obtain ⟨⟨rfl, rfl, rfl⟩, rfl⟩ := h₂
  exact ⟨ho, hl⟩

theorem emptyFile_before :
    (seekEnd (-5) emptyFile.mount).any (fun r => r.1.2.2 = -5) = true := by decide +kernel

theorem emptyFile_end : (seekEnd 0 emptyFile.mount).any (fun r =>
    (r.1.2.1.task.files r.1.1).all fun file => (r.1.2.1.fileTable file).inode.all fun inode =>
      u32 (r.1.2.1.size inode + i32 0) < 2 ^ 31) = true := by decide +kernel

/-- Five bytes before the end of an empty file. -/
theorem seek_before_start : ∃ (s t : State) (as : List (ℕ × FileAct)),
    OffsetsSafe s ∧ Run FileStep s as t ∧ ¬ OffsetsSafe t := by
  obtain ⟨⟨⟨fd, t, r⟩, u⟩, hr, hneg⟩ := (Option.any_eq_true _ _).mp emptyFile_before
  obtain ⟨ho, hl⟩ := seekEnd_eq hr
  refine ⟨emptyFile.mount, u, _, emptyFile_held.safe,
    (Run.single (FileStep.open (p := 0) ho)).snoc (FileStep.lseek (p := t.running) hl), fun hsafe => ?_⟩
  obtain ⟨file, inode, -, -, rfl, -⟩ := sysLseek_cases hl
  have hpos := (hsafe file).1
  simp [State.modFile] at hpos hneg
  omega

theorem offsets_safe_emptyFile : ∃ (t u : State) (fd : ℕ),
    Run (Guarded WithinFile FileStep) emptyFile.mount
      [(0, .open fileA O_RDWR 0), (t.running, .lseek fd 0 SEEK_END)] u ∧ OffsetsSafe u := by
  obtain ⟨⟨⟨fd, t, r⟩, u⟩, hr, hend⟩ := (Option.any_eq_true _ _).mp emptyFile_end
  obtain ⟨ho, hl⟩ := seekEnd_eq hr
  have hrun : Run (Guarded WithinFile FileStep) emptyFile.mount
      [(0, .open fileA O_RDWR 0), (t.running, .lseek fd 0 SEEK_END)] u := by
    have ho' : Guarded WithinFile FileStep emptyFile.mount (0, .open fileA O_RDWR 0) t :=
      ⟨fun hap => absurd rfl hap, FileStep.open ho⟩
    refine (Run.single ho').snoc ⟨fun _ file inode hf hi => ?_, FileStep.lseek hl⟩
    have hf' : t.task.files fd = some file := hf
    simpa [hf', hi] using hend
  exact ⟨t, u, fd, hrun, offsets_safe emptyFile_held hrun⟩

end Onix.Fs
