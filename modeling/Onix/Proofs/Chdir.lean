import Onix.Lib.Run
import Onix.Sanity.AbspathSpec
import Onix.Sanity.FsFrame
import Onix.Spec.Image

/-! The working directory over any run of `sys_chdir`: `task->pwd` is the canonical path
as long as the paths are tame. -/

namespace Onix.Fs

open Function Prog Cstr

/-- The path leads to a directory other than the working directory. -/
def Moves (s : State) (path : Str) : Prop := ∃ inode t, namei path s = some (some inode, t) ∧
  isDir (t.mode inode) = true ∧ inode ≠ s.task.ipwd

/-- A call of `sys_chdir` that returns, and the components of the working directory. -/
inductive ChdirStep : State × List Str → Str → State × List Str → Prop where
  | moved {s t : State} {cs : List Str} {path : Str} :
      EOS ∉ path → (text cs).length + path.length < PAGE_SIZE → sysChdir path s = some (0, t) →
      ChdirStep (s, cs) path (t, resolve cs path)
  | refused {s t : State} {cs : List Str} {path : Str} {r : ℕ} :
      EOS ∉ path → sysChdir path s = some (r, t) → r ≠ 0 → ChdirStep (s, cs) path (t, cs)

/-- `task->pwd` is the canonical path of the components. -/
def ShowsPwd (x : State × List Str) : Prop := Spells x.1.task.pwd (text x.2)

/-- A call that moves the task has a path `abspath` gets right. -/
def TameMove (x : State × List Str) (path : Str) : Prop :=
  Moves x.1 path → Tame x.1.task.pwd x.2 path

variable {s t : State} {path : Str} {r : ℕ} {cs : List Str} {as : List Str} {x y : State × List Str}

theorem modTask_task (f : TaskT → TaskT) : (s.modTask f).task = f s.task := by
  simp [State.modTask, State.task]

/-- The ways through `sys_chdir`. -/
theorem sysChdir_cases (h : sysChdir path s = some (r, t)) :
    (r = EOF ∧ t.task.pwd = s.task.pwd) ∨
    (r = 0 ∧ Moves s path ∧ abspath s.task.pwd path = some t.task.pwd) := by
  unfold sysChdir at h
  rw [peek_bind] at h
  obtain ⟨o, u, hn, h₁⟩ := bind_eq_some.mp h
  have hu : u.task = s.task := (namei_quiet path s _ _ hn).fixed.task
  cases o with
  | none =>
    simp only [pure_apply, Option.some.injEq, Prod.mk.injEq] at h₁
    obtain ⟨rfl, rfl⟩ := h₁
    exact .inl ⟨rfl, by rw [hu]⟩
  | some inode =>
    dsimp only at h₁
    rw [peek_bind] at h₁
    split_ifs at h₁ with hd
    · obtain ⟨⟨⟩, v, hv, h₂⟩ := bind_eq_some.mp h₁
      simp only [pure_apply, Option.some.injEq, Prod.mk.injEq] at h₂
      obtain ⟨rfl, rfl⟩ := h₂
      exact .inl ⟨rfl, by rw [(iput_quiet _ u _ _ hv).fixed.task, hu]⟩
    · obtain ⟨pwd, v, hv, h₂⟩ := bind_eq_some.mp h₁
      obtain ⟨hpwd, rfl⟩ := lift_eq_some.mp hv
      rw [poke_bind] at h₂
      obtain ⟨⟨⟩, w, hw, h₃⟩ := bind_eq_some.mp h₂
      simp only [poke_bind, pure_apply, Option.some.injEq, Prod.mk.injEq] at h₃
      obtain ⟨rfl, rfl⟩ := h₃
      simp only [Bool.or_eq_true, Bool.not_eq_true', decide_eq_true_eq, not_or,
        Bool.not_eq_false] at hd
      refine .inr ⟨rfl, ⟨inode, _, hn, hd.1, hd.2⟩, ?_⟩
      rw [modTask_task]
      dsimp only
      rw [(iput_quiet _ _ _ _ hw).fixed.task, modTask_task, hpwd]

/-- The canonical path, of components that are names. -/
def PwdInv (x : State × List Str) : Prop := ShowsPwd x ∧ ∀ c ∈ x.2, IsName c

theorem pwdInv_step (hx : PwdInv x) (h : Guarded TameMove ChdirStep x path y) : PwdInv y := by
  obtain ⟨hc, hstep⟩ := h
  cases hstep with
  | moved hz hlen h =>
    rcases sysChdir_cases h with ⟨h0, -⟩ | ⟨-, hm, hpwd⟩
    · cases h0
    obtain ⟨pwd, he, hs, hn⟩ := abspath_spec hz hx.2 hx.1 hlen (hc hm)
    obtain rfl : _ = pwd := Option.some.inj (hpwd.symm.trans he)
    exact ⟨hs, hn⟩
  | refused hz h hr =>
    rcases sysChdir_cases h with ⟨-, hp⟩ | ⟨h0, -⟩
    · refine ⟨?_, hx.2⟩
      unfold ShowsPwd
      dsimp only
      rw [hp]
      exact hx.1
    · exact absurd h0 hr

/-- From `/` on, in every run in which each move has a tame path, `task->pwd` is the
canonical path of the working directory. -/
theorem pwd_canonical (hs : Spells s.task.pwd (text []))
    (h : Run (Guarded TameMove ChdirStep) (s, []) as (t, cs)) : Spells t.task.pwd (text cs) :=
  (h.invariant (I := PwdInv) (fun _ _ _ hx h => pwdInv_step hx h) ⟨hs, by simp⟩).1

/-- The root holds the directories `abc` and `x`. -/
def twoDirs : Image where
  descs := [⟨0o040755, 0, 64, 4, [5]⟩, ⟨0o040777, 0, 32, 2, [6]⟩, ⟨0o040777, 0, 32, 2, [7]⟩]
  blocks := [dentry 1 [DOT] ++ dentry 1 [DOT, DOT] ++ dentry 2 [0x61, 0x62, 0x63] ++ dentry 3 [0x78],
    dentry 2 [DOT] ++ dentry 1 [DOT, DOT], dentry 3 [DOT] ++ dentry 1 [DOT, DOT]]
  uid := 0

theorem twoDirs_pwd : Spells twoDirs.mount.task.pwd (text []) := by
  intro i hi
  have hi : i = 0 ∨ i = 1 := by
    simp [text] at hi
    omega
  rcases hi with rfl | rfl <;> decide +kernel

def nameAbc : Str := [0x61, 0x62, 0x63]

def pathX : Str := [SEPARATOR1, 0x78]

/-- Two calls in a row, with the state between. -/
def chdirTwice (path path' : Str) : Prog State (ℕ × State × ℕ) := do
  let r ← sysChdir path
  let t ← peek id
  let r' ← sysChdir path'
  return (r, t, r')

theorem chdirTwice_eq {u : State} {path' : Str} {r' : ℕ}
    (h : chdirTwice path path' s = some ((r, t, r'), u)) :
    sysChdir path s = some (r, t) ∧ sysChdir path' t = some (r', u) := by
  obtain ⟨a, v, h₁, k₁⟩ := bind_eq_some.mp h
  rw [peek_bind] at k₁
  obtain ⟨b, w, h₂, k₂⟩ := bind_eq_some.mp k₁
  simp only [pure_apply, Option.some.injEq, Prod.mk.injEq, id] at k₂
  obtain ⟨⟨rfl, rfl, rfl⟩, rfl⟩ := k₂
  exact ⟨h₁, h₂⟩

theorem twoDirs_back : (chdirTwice nameAbc pathX twoDirs.mount).any (fun r =>
    r.1.1 = 0 && r.1.2.2 = 0 && r.2.task.pwd 3 ≠ EOS) = true := by decide +kernel

/-- From `abc` to the shorter `/x`: `/x/c/`. -/
theorem pwd_overwritten : ∃ (s t : State) (cs as : List Str), Spells s.task.pwd (text []) ∧
    Run ChdirStep (s, []) as (t, cs) ∧ ¬ Spells t.task.pwd (text cs) := by
  obtain ⟨⟨⟨r, t, r'⟩, u⟩, hr, hp⟩ := (Option.any_eq_true _ _).mp twoDirs_back
  simp only [Bool.and_eq_true, decide_eq_true_eq] at hp
  obtain ⟨⟨rfl, rfl⟩, hne⟩ := hp
  obtain ⟨h₁, h₂⟩ := chdirTwice_eq hr
  have hrun : Run ChdirStep (twoDirs.mount, []) [nameAbc] (t, resolve [] nameAbc) :=
    Run.single (ChdirStep.moved (by decide) (by decide) h₁)
  refine ⟨twoDirs.mount, u, _, _, twoDirs_pwd,
    hrun.snoc (ChdirStep.moved (by decide) (by decide) h₂), fun hs => hne ?_⟩
  exact hs.end

theorem twoDirs_up : (chdirTwice nameAbc [DOT, DOT] twoDirs.mount).any (fun r =>
    r.1.1 = 0 && r.1.2.2 = 0) = true := by decide +kernel

theorem pwd_canonical_twoDirs : ∃ u, Run (Guarded TameMove ChdirStep) (twoDirs.mount, [])
    [nameAbc, [DOT, DOT]] (u, []) ∧ Spells u.task.pwd (text []) := by
  obtain ⟨⟨⟨r, t, r'⟩, u⟩, hr, hp⟩ := (Option.any_eq_true _ _).mp twoDirs_up
  simp only [Bool.and_eq_true, decide_eq_true_eq] at hp
  obtain ⟨rfl, rfl⟩ := hp
  obtain ⟨h₁, h₂⟩ := chdirTwice_eq hr
  have hdown : Tame twoDirs.mount.task.pwd [] nameAbc := by
    have hp : pieces (relative nameAbc) = [nameAbc] := by decide
    refine ⟨hp ▸ plain_single, fun _ => ?_⟩
    decide +kernel
  have hup : Tame t.task.pwd [nameAbc] [DOT, DOT] := by
    have hp : pieces (relative [DOT, DOT]) = [[DOT, DOT]] := by decide
    refine ⟨hp ▸ plain_single, fun ⟨c, hc, ho⟩ => ?_⟩
    obtain rfl : c = [DOT, DOT] := by simpa [hp] using hc.symm
    exact absurd rfl ho.2.2
  have hrun : Run (Guarded TameMove ChdirStep) (twoDirs.mount, []) [nameAbc, [DOT, DOT]] (u, []) := by
    have hfirst : Guarded TameMove ChdirStep (twoDirs.mount, []) nameAbc (t, [nameAbc]) :=
      ⟨fun _ => hdown, ChdirStep.moved (by decide) (by decide) h₁⟩
    exact (Run.single hfirst).snoc ⟨fun _ => hup, ChdirStep.moved (by decide) (by decide) h₂⟩
  exact ⟨u, hrun, pwd_canonical twoDirs_pwd hrun⟩

end Onix.Fs
