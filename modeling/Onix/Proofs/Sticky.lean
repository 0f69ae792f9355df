import Onix.Sanity.NameiCases
import Onix.Spec.Image

/-! The sticky bit: `sys_rmdir` reads it off the directory, `sys_unlink` off the file
itself. -/

namespace Onix.Fs

open Function Prog Cstr

variable {s t u : State} {r dir inode : ℕ} {path name : Str} {entry : Entry}

section Rules

/-- Which removals a sticky bit forbids, by directory and inode. -/
abbrev Rule := State → ℕ → ℕ → Bool

/-- The rule of `sys_rmdir`: the directory is sticky and the inode is another user's. -/
def State.sticky (s : State) (dir inode : ℕ) : Bool :=
  s.mode dir &&& ISVTX ≠ 0 && s.task.uid ≠ s.uid inode

/-- The rule of `sys_unlink`, which looks at the file's own bit. -/
def State.stickyFile (s : State) (_ inode : ℕ) : Bool :=
  s.mode inode &&& ISVTX ≠ 0 && s.task.uid ≠ s.uid inode

/-- No removal is forbidden. -/
def unguarded : Rule := fun _ _ _ => false

/-- `sys_rmdir` on the entry and its inode, with a rule of its own. -/
def rmdirLast (rule : Rule) (dir inode : ℕ) (entry : Entry) : Prog State ℕ := do
  if !(← peek fun s => inode ≠ dir && isDir (s.mode inode) && !rule s dir inode &&
      !((s.inodeTable dir).dev ≠ (s.inodeTable inode).dev || 1 < (s.inodeTable inode).count)) then
    rmdirRollback (some inode) (some dir) (some entry.buf) EOF
  else if !(← isEmpty inode) then
    rmdirRollback (some inode) (some dir) (some entry.buf) EOF
  else do
    rmdirIn dir inode entry
    rmdirRollback (some inode) (some dir) (some entry.buf) 0

def rmdirWith (rule : Rule) (path : Str) : Prog State ℕ := do
  match ← named path with
  | none => rmdirRollback none none none EOF
  | some (dir, name) => do
    if deref name = EOS then rmdirRollback none (some dir) none EOF
    else if !(← peek fun s => s.permission dir P_WRITE) then rmdirRollback none (some dir) none EOF
    else do
      match ← findEntry dir name with
      | none => rmdirRollback none (some dir) none EOF
      | some (entry, _) => do
        let dev ← peek fun s => (s.inodeTable dir).dev
        let inode ← iget dev (← peek fun s => s.entryNr entry)
        rmdirLast rule dir inode entry

/-- `sys_unlink` on the entry and its inode, with a rule of its own. -/
def unlinkLast (rule : Rule) (dir inode : ℕ) (entry : Entry) : Prog State ℕ := do
  if isDir (← peek fun s => s.mode inode) then
    linkRollback (some entry.buf) (some inode) (some dir) EOF
  else if (← peek fun s => rule s dir inode) then
    linkRollback (some entry.buf) (some inode) (some dir) EOF
  else do
    unlinkIn inode entry
    linkRollback (some entry.buf) (some inode) (some dir) 0

def unlinkWith (rule : Rule) (path : Str) : Prog State ℕ := do
  match ← named path with
  | none => linkRollback none none none EOF
  | some (dir, name) => do
    if deref name = EOS then linkRollback none none (some dir) EOF
    else if !(← peek fun s => s.permission dir P_WRITE) then linkRollback none none (some dir) EOF
    else do
      match ← findEntry dir name with
      | none => linkRollback none none (some dir) EOF
      | some (entry, _) => do
        let dev ← peek fun s => (s.inodeTable dir).dev
        let inode ← iget dev (← peek fun s => s.entryNr entry)
        unlinkLast rule dir inode entry

theorem sysRmdir_with : sysRmdir path = rmdirWith State.sticky path := rfl

theorem sysUnlink_with : sysUnlink path = unlinkWith State.stickyFile path := rfl

end Rules

section Found

variable {rule rule' : Rule}

theorem rmdirWith_found (rule : Rule) (h : Found s path dir inode entry u) :
    rmdirWith rule path s = rmdirLast rule dir inode entry u := by
  obtain ⟨name, next, v, w, ⟨hn, hne, hp⟩, hf, hg⟩ := h.parent
  unfold rmdirWith
  rw [bind_of_eq hn]
  dsimp only
  rw [if_neg hne, peek_bind, hp, if_neg (by decide), bind_of_eq hf]
  dsimp only
  rw [peek_bind, peek_bind, bind_of_eq hg]

theorem unlinkWith_found (rule : Rule) (h : Found s path dir inode entry u) :
    unlinkWith rule path s = unlinkLast rule dir inode entry u := by
  obtain ⟨name, next, v, w, ⟨hn, hne, hp⟩, hf, hg⟩ := h.parent
  unfold unlinkWith
  rw [bind_of_eq hn]
  dsimp only
  rw [if_neg hne, peek_bind, hp, if_neg (by decide), bind_of_eq hf]
  dsimp only
  rw [peek_bind, peek_bind, bind_of_eq hg]

/-- Where no entry is found the rule is not asked. -/
theorem unlinkWith_congr (h : ∀ dir inode entry u, Found s path dir inode entry u →
      unlinkLast rule dir inode entry u = unlinkLast rule' dir inode entry u) :
    unlinkWith rule path s = unlinkWith rule' path s := by
  unfold unlinkWith
  cases hn : named path s with
  | none => rw [bind_of_none hn, bind_of_none hn]
  | some pu =>
    obtain ⟨p, v⟩ := pu
    rw [bind_of_eq hn, bind_of_eq hn]
    cases p with
    | none => rfl
    | some q =>
      obtain ⟨dir, name⟩ := q
      dsimp only
      split_ifs with hne
      · rfl
      rw [peek_bind, peek_bind]
      split_ifs with hp
      · rfl
      cases hf : findEntry dir name v with
      | none => rw [bind_of_none hf, bind_of_none hf]
      | some ew =>
        obtain ⟨e, w⟩ := ew
        rw [bind_of_eq hf, bind_of_eq hf]
        cases e with
        | none => rfl
        | some en =>
          obtain ⟨entry, next⟩ := en
          dsimp only
          rw [peek_bind, peek_bind, peek_bind, peek_bind]
          cases hg : iget (w.inodeTable dir).dev (w.entryNr entry) w with
          | none => rw [bind_of_none hg, bind_of_none hg]
          | some iu =>
            obtain ⟨inode, u⟩ := iu
            rw [bind_of_eq hg, bind_of_eq hg]
            exact h dir inode entry u
              ⟨⟨name, next, v, w, ⟨hn, hne, by simpa using hp⟩, hf, hg⟩⟩

/-- The rule matters for what is not a directory, and nothing else of it does. -/
theorem unlinkLast_congr (h : isDir (u.mode inode) = false → rule u dir inode = rule' u dir inode) :
    unlinkLast rule dir inode entry u = unlinkLast rule' dir inode entry u := by
  unfold unlinkLast
  rw [peek_bind, peek_bind]
  split_ifs with hd
  · rfl
  · rw [peek_bind, peek_bind, h (by simpa using hd)]

/-- A removal that the rule forbids is refused. -/
theorem unlinkLast_refused (h : rule u dir inode = true)
    (he : unlinkLast rule dir inode entry u = some (r, t)) : r = EOF := by
  unfold unlinkLast at he
  rw [peek_bind] at he
  split_ifs at he
  · exact (linkRollback_cases he).1
  · rw [peek_bind, h] at he
    exact (linkRollback_cases he).1

theorem unlinkLast_removed (hd : isDir (u.mode inode) = false) (h : rule u dir inode = false)
    (he : unlinkLast rule dir inode entry u = some (r, t)) : r = 0 := by
  unfold unlinkLast at he
  rw [peek_bind, hd, if_neg (by decide), peek_bind, h, if_neg (by decide)] at he
  obtain ⟨⟨⟩, v, -, he⟩ := bind_eq_some.mp he
  exact (linkRollback_cases he).1

theorem rmdirLast_refused (h : rule u dir inode = true)
    (he : rmdirLast rule dir inode entry u = some (r, t)) : r = EOF := by
  unfold rmdirLast at he
  rw [peek_bind, h] at he
  simp only [Bool.not_true, Bool.and_false, Bool.false_and, Bool.not_false, if_true] at he
  exact (rmdirRollback_cases he).1

theorem rmdirLast_congr (h : rule u dir inode = rule' u dir inode) :
    rmdirLast rule dir inode entry u = rmdirLast rule' dir inode entry u := by
  unfold rmdirLast
  rw [peek_bind, peek_bind, h]

end Found

section Sticky

/-- In a sticky directory neither call removes another user's entry, in any other neither
refuses because of the bit, and both go by the rule of the directory. -/
structure StickyRule (path : Str) (s : State) : Prop where
  keeps : ∀ dir inode entry u, Found s path dir inode entry u → u.mode dir &&& ISVTX ≠ 0 →
    u.task.uid ≠ u.uid inode → ∀ t, sysRmdir path s ≠ some (0, t) ∧ sysUnlink path s ≠ some (0, t)
  allows : ∀ dir inode entry u, Found s path dir inode entry u → u.mode dir &&& ISVTX = 0 →
    sysRmdir path s = rmdirWith unguarded path s ∧ sysUnlink path s = unlinkWith unguarded path s
  same : sysRmdir path s = rmdirWith State.sticky path s ∧
    sysUnlink path s = unlinkWith State.sticky path s

/-- The file that the path names, if another user's, is as sticky as its directory. -/
def StickyAlike (path : Str) (s : State) : Prop :=
  ∀ dir inode entry u, Found s path dir inode entry u → isDir (u.mode inode) = false →
    u.task.uid ≠ u.uid inode → (u.mode inode &&& ISVTX ≠ 0 ↔ u.mode dir &&& ISVTX ≠ 0)

theorem sticky_eq_false (h : u.mode dir &&& ISVTX = 0) : u.sticky dir inode = false := by
  simp [State.sticky, h]

theorem sticky_eq_true (h : u.mode dir &&& ISVTX ≠ 0) (hu : u.task.uid ≠ u.uid inode) :
    u.sticky dir inode = true := by
  simp [State.sticky, h, hu]

theorem rules_agree : u.stickyFile dir inode = u.sticky dir inode ↔
    (u.task.uid ≠ u.uid inode → (u.mode inode &&& ISVTX ≠ 0 ↔ u.mode dir &&& ISVTX ≠ 0)) := by
  unfold State.stickyFile State.sticky
  by_cases hu : u.task.uid = u.uid inode
  · simp [hu]
  · by_cases hi : u.mode inode &&& ISVTX = 0 <;> by_cases hd : u.mode dir &&& ISVTX = 0 <;>
      simp [hu, hi, hd]

theorem StickyAlike.rule (h : StickyAlike path s) : StickyRule path s := by
  have hsame : sysUnlink path s = unlinkWith State.sticky path s := by
    rw [sysUnlink_with]
    apply unlinkWith_congr
    intro dir inode entry u hf
    exact unlinkLast_congr fun hd => rules_agree.mpr (h dir inode entry u hf hd)
  refine ⟨fun dir inode entry u hf hm hu t => ⟨fun he => ?_, fun he => ?_⟩,
    fun dir inode entry u hf hm => ⟨?_, ?_⟩, rfl, hsame⟩
  · rw [sysRmdir_with, rmdirWith_found _ hf] at he
    exact EOF_ne_zero (rmdirLast_refused (sticky_eq_true hm hu) he).symm
  · rw [hsame, unlinkWith_found _ hf] at he
    exact EOF_ne_zero (unlinkLast_refused (sticky_eq_true hm hu) he).symm
  · rw [sysRmdir_with, rmdirWith_found _ hf, rmdirWith_found _ hf]
    exact rmdirLast_congr (sticky_eq_false hm)
  · rw [hsame, unlinkWith_found _ hf, unlinkWith_found _ hf]
    exact unlinkLast_congr fun _ => sticky_eq_false hm

/-- Where the call returns, it shows by what it returns which rule it went by. -/
theorem StickyRule.agree (h : StickyRule path s) (hr : (sysUnlink path s).isSome = true) :
    StickyAlike path s := by
  intro dir inode entry u hf hd
  rw [← rules_agree]
  obtain ⟨⟨r, t⟩, he⟩ := Option.isSome_iff_exists.mp hr
  have he' := h.same.2.symm.trans he
  rw [sysUnlink_with, unlinkWith_found _ hf] at he
  rw [unlinkWith_found _ hf] at he'
  cases h₁ : u.stickyFile dir inode <;> cases h₂ : u.sticky dir inode
  · rfl
  · have h0 := unlinkLast_removed hd h₁ he
    have hE := unlinkLast_refused h₂ he'
    exact absurd (hE.symm.trans h0) EOF_ne_zero
  · have hE := unlinkLast_refused h₁ he
    have h0 := unlinkLast_removed hd h₂ he'
    exact absurd (hE.symm.trans h0) EOF_ne_zero
  · rfl

/-- `sys_unlink` and `sys_rmdir` apply the directory's rule exactly where the file's own bit
says what the directory's does, or the file is the task's. -/
theorem sticky_rule : (StickyAlike path s → StickyRule path s) ∧
    ((sysUnlink path s).isSome = true → (StickyRule path s ↔ StickyAlike path s)) :=
  ⟨StickyAlike.rule, fun hr => ⟨fun h => h.agree hr, StickyAlike.rule⟩⟩

/-- A sticky root that anybody may write, with the file `a` of user 1. -/
def stickyRoot (mode : ℕ) : Image where
  descs := [⟨0o041777, 0, 48, 2, [5]⟩, ⟨mode, 1, 0, 1, []⟩]
  blocks := [dentry 1 [DOT] ++ dentry 1 [DOT, DOT] ++ dentry 2 [0x61]]
  uid := 1000

/-- Where `sys_unlink` and `sys_rmdir` find the entry and its inode. -/
def reach (path : Str) : Prog State (Option (ℕ × ℕ)) := do
  match ← named path with
  | none => return none
  | some (dir, name) => do
    match ← findEntry dir name with
    | none => return none
    | some (entry, _) => do
      let dev ← peek fun s => (s.inodeTable dir).dev
      let inode ← iget dev (← peek fun s => s.entryNr entry)
      return some (dir, inode)

theorem reach_of_found (h : Found s path dir inode entry u) :
    reach path s = some (some (dir, inode), u) := by
  obtain ⟨name, next, v, w, ⟨hn, hne, hp⟩, hf, hg⟩ := h.parent
  unfold reach
  rw [bind_of_eq hn]
  dsimp only
  rw [bind_of_eq hf]
  dsimp only
  rw [peek_bind, peek_bind, bind_of_eq hg]
  rfl

/-- The file is sticky too. -/
theorem sticky_rule_stickyFile : StickyRule fileA (stickyRoot 0o101644).mount ∧
    (sysUnlink fileA (stickyRoot 0o101644).mount).any (fun r => r.1 = EOF) = true := by
  have hreach : (reach fileA (stickyRoot 0o101644).mount).any (fun r => r.1.all fun p =>
      (r.2.mode p.2 &&& ISVTX ≠ 0 && r.2.mode p.1 &&& ISVTX ≠ 0)) = true := by decide +kernel
  refine ⟨sticky_rule.1 fun dir inode entry u hf _ _ => ?_, by decide +kernel⟩
  rw [reach_of_found hf] at hreach
  simp only [Option.any_some, Option.all_some, Bool.and_eq_true, decide_eq_true_eq] at hreach
  exact iff_of_true hreach.1 hreach.2

/-- The file is not: another user removes it. -/
theorem sticky_unlinked : ¬ ∀ path s, StickyRule path s := by
  intro h
  have hsame := (h fileA (stickyRoot 0o100644).mount).same.2
  have h₀ : (sysUnlink fileA (stickyRoot 0o100644).mount).any (fun r => r.1 = 0) = true := by
    decide +kernel
  have h₁ : (unlinkWith State.sticky fileA (stickyRoot 0o100644).mount).any
      (fun r => r.1 = 0) = false := by decide +kernel
  rw [hsame, h₁] at h₀
  cases h₀

end Sticky

end Onix.Fs
