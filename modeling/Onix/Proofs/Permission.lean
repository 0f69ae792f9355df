import Onix.Sanity.NameiCases
import Onix.Spec.Image

/-! Entries come and go only with write permission on their directory, except through
`sys_link`. -/

namespace Onix.Fs

open Function Prog Cstr

/-- A call that adds or removes an entry. -/
inductive Call where
  | mkdir (pathname : Str) (mode : ℕ)
  | rmdir (pathname : Str)
  | link (oldname newname : Str)
  | unlink (filename : Str)
  | open (pathname : Str) (flag mode : ℕ)

/-- Whether the call reports success. -/
def Call.run : Call → Prog State Bool
  | mkdir pathname mode => do return (← sysMkdir pathname mode) ≠ EOF
  | rmdir pathname => do return (← sysRmdir pathname) ≠ EOF
  | link oldname newname => do return (← sysLink oldname newname) ≠ EOF
  | unlink filename => do return (← sysUnlink filename) ≠ EOF
  | .open pathname flag mode => do return (← inodeOpen pathname flag mode).isSome

/-- The directory of the last name of a path, and the name. -/
def lookup (pathname : Str) : Prog State (Option (ℕ × Str)) := do
  match ← named pathname with
  | none => return none
  | some (dir, name) => if deref name = EOS then return none else return some (dir, name)

/-- The same for the new name of `sys_link`, once the old one is found to be a file
of the same device. -/
def lookupLink (oldname newname : Str) : Prog State (Option (ℕ × Str)) := do
  match ← namei oldname with
  | none => return none
  | some inode => do
    if isDir (← peek fun s => s.mode inode) then return none
    else do
      match ← lookup newname with
      | none => return none
      | some (dir, name) => do
        if (← peek fun s => (s.inodeTable dir).dev) ≠
            (← peek fun s => (s.inodeTable inode).dev) then return none
        else return some (dir, name)

/-- Where the call adds or removes an entry, if it comes so far. -/
def Call.place : Call → Prog State (Option (ℕ × Str))
  | mkdir pathname _ => lookup pathname
  | rmdir pathname => lookup pathname
  | link oldname newname => lookupLink oldname newname
  | unlink filename => lookup filename
  | .open pathname _ _ => lookup pathname

/-- An open is looked at only where it creates: `O_CREAT` is set and the name is missing. -/
def Call.Changes (dir : ℕ) (name : Str) (u : State) : Call → Prop
  | .open _ flag _ => flag &&& O_CREAT ≠ 0 ∧ ∃ v, findEntry dir name u = some (none, v)
  | _ => True

/-- The task has no write permission on the directory. -/
def Denied (s : State) (c : Call) : Prop :=
  ∃ dir name u, c.place s = some (some (dir, name), u) ∧ c.Changes dir name u ∧
    u.permission dir P_WRITE = false

/-- Without the permission the call fails and no block changes; nor does any where the
path leads to no directory. -/
def Guards (s : State) (c : Call) (ok : Bool) (t : State) : Prop :=
  (Denied s c → ok = false ∧ t.data = s.data) ∧
    ((∃ u, c.place s = some (none, u)) → t.data = s.data)

/-- `sys_link` comes to a missing name in a directory without write permission. -/
def Unchecked (s : State) (c : Call) : Prop :=
  ∃ oldname newname dir name u v, c = .link oldname newname ∧
    c.place s = some (some (dir, name), u) ∧ u.permission dir P_WRITE = false ∧
    findEntry dir name u = some (none, v)

variable {s t u v : State} {c : Call} {ok : Bool} {dir inode mask : ℕ} {name path old new : Str}

theorem permission_congr (hd : v.data = u.data) (hs : Same u v) :
    v.permission inode mask = u.permission inode mask := by
  have htask : v.task = u.task := hs.fixed.task
  unfold State.permission State.rights State.nlinks State.mode State.uid State.gid State.ibuf
    State.idesc
  rw [hd, htask, hs.inodeTable]

theorem lookup_of_named (h : named path s = some (some (dir, name), u)) (hn : deref name ≠ EOS) :
    lookup path s = some (some (dir, name), u) := by
  unfold lookup
  rw [bind_of_eq h]
  dsimp only
  rw [if_neg hn]
  rfl

theorem named_of_lookup (h : lookup path s = some (some (dir, name), u)) :
    named path s = some (some (dir, name), u) ∧ deref name ≠ EOS := by
  unfold lookup at h
  obtain ⟨p, v, hn, h⟩ := bind_eq_some.mp h
  rcases p with - | ⟨dir', name'⟩
  · simp at h
  dsimp only at h
  split_ifs at h with hname
  · simp at h
  simp only [pure_apply, Option.some.injEq, Prod.mk.injEq] at h
  obtain ⟨⟨rfl, rfl⟩, rfl⟩ := h
  exact ⟨hn, hname⟩

theorem Parent.lookup (h : Parent s path dir name u) : lookup path s = some (some (dir, name), u) :=
  lookup_of_named h.named h.nonempty

/-- A path leads to one directory only. -/
theorem Parent.not_denied (h : Parent s path dir name u) {dir' : ℕ} {name' : Str} {u' : State}
    (h' : Fs.lookup path s = some (some (dir', name'), u')) : u'.permission dir' P_WRITE = true := by
  rw [h.lookup] at h'
  simp only [Option.some.injEq, Prod.mk.injEq] at h'
  obtain ⟨⟨rfl, rfl⟩, rfl⟩ := h'
  exact h.permitted

theorem Linking.lookup (h : Linking s old new inode dir name v) :
    ∃ u, lookupLink old new s = some (some (dir, name), u) ∧
      findEntry dir name u = some (none, v) := by
  obtain ⟨w, u, hold, hdir, hnew, hname, hdev, hfind⟩ := h.reached
  refine ⟨u, ?_, hfind⟩
  unfold lookupLink
  rw [bind_of_eq hold]
  dsimp only
  rw [peek_bind, hdir, if_neg (by decide), bind_of_eq (lookup_of_named hnew hname)]
  dsimp only
  rw [peek_bind, peek_bind, if_neg (by simpa using hdev)]
  rfl

/-- What `lookupLink` has come through. -/
theorem linking_of_lookup (h : lookupLink old new s = some (some (dir, name), u))
    (hf : findEntry dir name u = some (none, v)) : ∃ inode, Linking s old new inode dir name v := by
  unfold lookupLink at h
  obtain ⟨i, w, hold, h⟩ := bind_eq_some.mp h
  rcases i with - | inode
  · simp at h
  dsimp only at h
  rw [peek_bind] at h
  split_ifs at h with hdir
  · simp at h
  obtain ⟨p, x, hnew, h⟩ := bind_eq_some.mp h
  rcases p with - | ⟨dir', name'⟩
  · simp at h
  dsimp only at h
  rw [peek_bind, peek_bind] at h
  split_ifs at h with hdev
  · simp at h
  simp only [pure_apply, Option.some.injEq, Prod.mk.injEq] at h
  obtain ⟨⟨rfl, rfl⟩, rfl⟩ := h
  obtain ⟨hn, hname⟩ := named_of_lookup hnew
  exact ⟨inode, ⟨⟨w, _, hold, by simpa using hdir, hn, hname, by simpa using hdev, hf⟩⟩⟩

/-- Once it has come so far, `sys_link` does not fail any more. -/
theorem Linking.run {r : ℕ} (h : Linking s old new inode dir name v)
    (hr : sysLink old new s = some (r, t)) : r = 0 := by
  obtain ⟨w, u, hold, hdir, hnew, hname, hdev, hfind⟩ := h.reached
  unfold sysLink at hr
  rw [bind_of_eq hold] at hr
  dsimp only at hr
  rw [peek_bind, hdir, if_neg (by decide), bind_of_eq hnew] at hr
  dsimp only at hr
  rw [if_neg hname, peek_bind, peek_bind, if_neg (by simpa using hdev), bind_of_eq hfind] at hr
  dsimp only at hr
  obtain ⟨entry, x, -, hr⟩ := bind_eq_some.mp hr
  exact (linkRollback_cases hr).1

theorem guards_of_quiet (hq : Quiet s t) : Guards s c false t :=
  ⟨fun _ => ⟨rfl, hq.data⟩, fun _ => hq.data⟩

/-- Where the permission was tested, there is nothing to guard against. -/
theorem Parent.guards (h : Parent s path dir name u) (hc : c.place = Fs.lookup path) :
    Guards s c ok t := by
  unfold Guards Denied
  rw [hc]
  refine ⟨fun ⟨dir', name', u', hp, _, hno⟩ => ?_, fun ⟨u', hu'⟩ => ?_⟩
  · rw [h.not_denied hp] at hno
    cases hno
  · rw [h.lookup] at hu'
    simp at hu'

theorem mkdir_guards {mode r : ℕ} (h : sysMkdir path mode s = some (r, t)) :
    Guards s (.mkdir path mode) (r ≠ EOF) t := by
  rcases sysMkdir_cases h with ⟨rfl, hq⟩ | ⟨dir, name, u, v, hp, -, -⟩
  · simpa using guards_of_quiet hq
  · exact hp.guards rfl

theorem rmdir_guards {r : ℕ} (h : sysRmdir path s = some (r, t)) :
    Guards s (.rmdir path) (r ≠ EOF) t := by
  rcases sysRmdir_cases h with ⟨rfl, hq⟩ | ⟨dir, inode, entry, u, v, w, ⟨name, next, x, y, hp, -⟩, -⟩
  · simpa using guards_of_quiet hq
  · exact hp.guards rfl

theorem unlink_guards {r : ℕ} (h : sysUnlink path s = some (r, t)) :
    Guards s (.unlink path) (r ≠ EOF) t := by
  rcases sysUnlink_cases h with ⟨rfl, hq⟩ | ⟨dir, inode, entry, u, v, ⟨name, next, x, y, hp, -⟩, -⟩
  · simpa using guards_of_quiet hq
  · exact hp.guards rfl

theorem open_guards {flag mode : ℕ} {o : Option ℕ} (h : inodeOpen path flag mode s = some (o, t)) :
    Guards s (.open path flag mode) o.isSome t := by
  cases inodeOpen_cases h with
  | quiet ho hq =>
    subst ho
    exact guards_of_quiet hq
  | parent dir name hn hname ho =>
    refine ⟨fun ⟨dir', name', u', hp, _⟩ => ?_, fun _ => (named_quiet path s _ _ hn).data⟩
    change lookup path s = _ at hp
    unfold lookup at hp
    rw [bind_of_eq hn] at hp
    simp [hname] at hp
  | old dir name next u v w entry inode hn hname hf hi hm =>
    have hl := lookup_of_named hn hname
    refine ⟨fun ⟨dir', name', u', hp, ⟨_, v', hmiss⟩, _⟩ => ?_, fun ⟨u', hu'⟩ => ?_⟩
    · obtain ⟨⟨rfl, rfl⟩, rfl⟩ : (dir = dir' ∧ name = name') ∧ u = u' := by
        simpa using hl.symm.trans hp
      rw [hf] at hmiss
      simp at hmiss
    · exact absurd (hl.symm.trans hu') (by simp)
  | new dir name u v w entry inode hn hname hf hcreat hp hi hm =>
    have hvu : v.permission dir P_WRITE = u.permission dir P_WRITE :=
      permission_congr (findEntry_quiet dir name u _ _ hf).data (findEntry_same dir name u _ _ hf)
    exact Parent.guards ⟨hn, hname, hvu ▸ hp⟩ rfl

theorem link_guards {r : ℕ} (h : sysLink old new s = some (r, t)) :
    Guards s (.link old new) (r ≠ EOF) t ↔ ¬ Unchecked s (.link old new) := by
  rcases sysLink_cases h with ⟨rfl, hq⟩ | ⟨inode, dir, name, v, w, entry, hl, -, rfl, -⟩
  · refine ⟨fun _ ⟨old', new', dir, name, u, v, hc, hp, _, hf⟩ => ?_, fun _ => by
      simpa using guards_of_quiet hq⟩
    obtain ⟨inode, hl⟩ := linking_of_lookup hp hf
    obtain ⟨rfl, rfl⟩ : old = old' ∧ new = new' := by simpa using hc
    exact EOF_ne_zero (hl.run h)
  · obtain ⟨u, hu, hf⟩ := hl.lookup
    refine ⟨fun hg ⟨old', new', dir', name', u', v', hc, hp, hno, _⟩ => ?_, fun hun =>
      ⟨fun ⟨dir', name', u', hp, _, hno⟩ => ?_, fun ⟨u', hu'⟩ => ?_⟩⟩
    · have := (hg.1 ⟨dir', name', u', hp, trivial, hno⟩).1
      exact absurd this (by decide)
    · obtain ⟨⟨rfl, rfl⟩, rfl⟩ : (dir = dir' ∧ name = name') ∧ u = u' := by
        simpa using hu.symm.trans hp
      exact absurd ⟨old, new, dir, name, u, v, rfl, hp, hno, hf⟩ hun
    · exact absurd (hu.symm.trans hu') (by simp)

theorem not_unchecked (hc : ∀ old new, c ≠ .link old new) : ¬ Unchecked s c :=
  fun ⟨old, new, _, _, _, _, h, _⟩ => hc old new h

theorem run_eq {α : Type} {m : Prog State α} {f : α → Bool}
    (h : (m >>= fun r => pure (f r)) s = some (ok, t)) : ∃ r, m s = some (r, t) ∧ ok = f r := by
  obtain ⟨r, u, hr, h⟩ := bind_eq_some.mp h
  simp only [pure_apply, Option.some.injEq, Prod.mk.injEq] at h
  obtain ⟨rfl, rfl⟩ := h
  exact ⟨r, hr, rfl⟩

/-- In every state and for every call that returns: without write permission on the
directory it fails and changes no block, unless it is a `sys_link` of a missing name. -/
theorem write_permission (c : Call) (h : c.run s = some (ok, t)) :
    Guards s c ok t ↔ ¬ Unchecked s c := by
  cases c with
  | mkdir path mode =>
    obtain ⟨r, hr, rfl⟩ := run_eq h
    exact iff_of_true (mkdir_guards hr) (not_unchecked nofun)
  | rmdir path =>
    obtain ⟨r, hr, rfl⟩ := run_eq h
    exact iff_of_true (rmdir_guards hr) (not_unchecked nofun)
  | link old new =>
    obtain ⟨r, hr, rfl⟩ := run_eq h
    exact link_guards hr
  | unlink path =>
    obtain ⟨r, hr, rfl⟩ := run_eq h
    exact iff_of_true (unlink_guards hr) (not_unchecked nofun)
  | «open» path flag mode =>
    obtain ⟨r, hr, rfl⟩ := run_eq h
    exact iff_of_true (open_guards hr) (not_unchecked nofun)

/-- The root, which only its owner may write, holds the file `a` of the task. -/
def foreignRoot : Image where
  descs := [⟨0o040755, 0, 48, 2, [5]⟩, ⟨0o100644, 1000, 0, 1, []⟩]
  blocks := [dentry 1 [DOT] ++ dentry 1 [DOT, DOT] ++ dentry 2 [0x61]]
  uid := 1000

def nameA : Str := [SEPARATOR1, 0x61]

def nameB : Str := [SEPARATOR1, 0x62]

theorem foreignRoot_denied : ((Call.link nameA nameB).place foreignRoot.mount).any
    (fun r => r.1.any fun p => !r.2.permission p.1 P_WRITE) = true := by decide +kernel

theorem foreignRoot_linked : ((Call.link nameA nameB).run foreignRoot.mount).any Prod.fst = true := by
  decide +kernel

theorem denied_link (h : ((Call.link old new).place s).any
    (fun r => r.1.any fun p => !r.2.permission p.1 P_WRITE) = true) : Denied s (.link old new) := by
  obtain ⟨⟨p, u⟩, hr, hp⟩ := (Option.any_eq_true _ _).mp h
  obtain ⟨⟨dir, name⟩, rfl, hno⟩ := (Option.any_eq_true _ _).mp hp
  exact ⟨dir, name, u, hr, trivial, by simpa using hno⟩

/-- `ln /a /b` by a task that may not write the root. -/
theorem link_unchecked : ∃ (s t : State) (c : Call) (ok : Bool), s.task.uid ≠ KERNEL_USER ∧
    c.run s = some (ok, t) ∧ ¬ Guards s c ok t := by
  obtain ⟨⟨ok, t⟩, hr, hok⟩ := (Option.any_eq_true _ _).mp foreignRoot_linked
  refine ⟨foreignRoot.mount, t, .link nameA nameB, ok, by decide, hr, fun hg => ?_⟩
  have := (hg.1 (denied_link foreignRoot_denied)).1
  rw [this] at hok
  cases hok

theorem write_permission_foreignRoot : ∃ ok t, (Call.link nameA nameB).run foreignRoot.mount =
    some (ok, t) ∧ (Guards foreignRoot.mount (.link nameA nameB) ok t ↔
      ¬ Unchecked foreignRoot.mount (.link nameA nameB)) := by
  obtain ⟨⟨ok, t⟩, hr, -⟩ := (Option.any_eq_true _ _).mp foreignRoot_linked
  exact ⟨ok, t, hr, write_permission _ hr⟩

end Onix.Fs
