import Onix.Sanity.TreeSpec
import Onix.Sanity.NameiCases
import Onix.Spec.Image

/-! A changed root: what paths reach from it, and the entry `..` that leads out. -/

namespace Onix.Fs

open Function Prog Cstr

/-- The name in entry `k` of directory `x`. -/
def State.isNamed (s : State) (x k : ℕ) (name : Str) : Prop :=
  ∀ i ≤ name.length, s.data (s.slotNr x k).buf ((s.slotNr x k).addr + 2 + i) = name.getD i EOS

def DOTDOT : Str := [DOT, DOT]

/-- The subtree rooted at directory `d`. -/
inductive Subtree (s : State) (d : ℕ) : ℕ → Prop where
  | root : Subtree s d d
  | entry {x k : ℕ} : Subtree s d x → isDir (s.modeNr x) = true → k < s.entriesNr x →
      ¬ s.isNamed x k [DOT] → ¬ s.isNamed x k DOTDOT → Subtree s d (s.target x k)

/-- Each directory has itself under `.` and its parent under `..`. -/
structure Tree (s : State) : Prop where
  dot : ∀ x k, isDir (s.modeNr x) = true → k < s.entriesNr x → s.isNamed x k [DOT] → s.target x k = x
  dotdot : ∀ x k j, isDir (s.modeNr x) = true → k < s.entriesNr x → ¬ s.isNamed x k [DOT] →
    ¬ s.isNamed x k DOTDOT → isDir (s.modeNr (s.target x k)) = true → j < s.entriesNr (s.target x k) →
    s.isNamed (s.target x k) j DOTDOT → s.target (s.target x k) j = x
  one : ∀ x j k, isDir (s.modeNr x) = true → j < s.entriesNr x → k < s.entriesNr x →
    s.isNamed x j DOTDOT → s.isNamed x k DOTDOT → s.target x j = s.target x k

/-- Every inode that a path gives is in the subtree. -/
structure Confined (s : State) (d : ℕ) : Prop where
  named : ∀ path dir name t, Fs.named path s = some (some (dir, name), t) → Subtree s d (t.nr dir)
  namei : ∀ path inode t, namei path s = some (some inode, t) → Subtree s d (t.nr inode)

/-- The entry `..` of `d` does not lead out of its subtree. -/
def Topmost (s : State) (d : ℕ) : Prop := ∀ k < s.entriesNr d, s.isNamed d k DOTDOT →
  Subtree s d (s.target d k)

/-- The task's root is `d` and its working directory is below it. -/
structure Rerooted (s : State) (d : ℕ) : Prop where
  placed : Placed s
  root : s.task.iroot ∈ s.sb.inodeList ∧ s.nr s.task.iroot = d
  pwd : s.task.ipwd ∈ s.sb.inodeList ∧ Subtree s d (s.nr s.task.ipwd)

variable {s t : State} {d x k : ℕ}

theorem Rerooted.stands (h : Rerooted s d) : Rooted s (Subtree s d) :=
  ⟨⟨refl_of SameDisk s, h.placed, h.root.1, by rw [h.root.2]; exact .root⟩,
    ⟨refl_of SameDisk s, h.placed, h.pwd.1, h.pwd.2⟩⟩

/-- In a tree with a topmost `d` the subtree is closed under all entries. -/
theorem subtree_closed (ht : Tree s) (htop : Topmost s d) : Closed s (Subtree s d) := by
  intro x k hx hdir hk
  by_cases hdot : s.isNamed x k [DOT]
  · rw [ht.dot x k hdir hk hdot]
    exact hx
  by_cases hdd : s.isNamed x k DOTDOT
  · cases hx with
    | root => exact htop k hk hdd
    | entry hp hpdir hpk hpdot hpdd =>
      rw [ht.dotdot _ _ k hpdir hpk hpdot hpdd hdir hk hdd]
      exact hp
  · exact .entry hx hdir hk hdot hdd

theorem confined_of_topmost (ht : Tree s) (hr : Rerooted s d) (htop : Topmost s d) : Confined s d where
  named _ _ _ _ hn := (named_stands (subtree_closed ht htop) hr.stands hn).holds
  namei _ _ _ hn := namei_holds (subtree_closed ht htop) hr.stands hn

/-- The path `/..`. -/
def upPath : Str := SEPARATOR1 :: DOTDOT

/-- Only an entry named `..` matches it. -/
theorem matchName_dotdot {data : Bytes} {i : ℕ} {next : Str}
    (h : matchName DOTDOT data i = some next) :
    ∀ j ≤ DOTDOT.length, data (i + j) = DOTDOT.getD j EOS := by
  have hsep : isSeparator DOT = false := rfl
  have hne : DOT ≠ EOS := by decide
  unfold DOTDOT at h
  have h₀ : DOT = data i := by
    by_contra h₀
    simp [matchName, h₀, hsep, hne] at h
  have h₁ : DOT = data (i + 1) := by
    by_contra h₁
    simp [matchName, ← h₀, h₁, hsep, hne] at h
  have h₂ : data (i + 1 + 1) = EOS := by
    by_contra h₂
    simp [matchName, ← h₀, ← h₁, h₂, hne] at h
  intro j hj
  have hj : j = 0 ∨ j = 1 ∨ j = 2 := by
    simp [DOTDOT] at hj
    omega
  rcases hj with rfl | rfl | rfl
  · exact h₀.symm
  · exact h₁.symm
  · exact h₂

theorem matchName_isNamed {y j : ℕ} (h : s.isNamed y j DOTDOT) :
    matchName DOTDOT (s.data (s.slotNr y j).buf) ((s.slotNr y j).addr + 2) = some [] := by
  have hne : DOT ≠ EOS := by decide
  have h₀ := h 0 (by decide)
  have h₁ := h 1 (by decide)
  have h₂ := h 2 (by decide)
  simp [DOTDOT] at h₀ h₁ h₂
  simp [DOTDOT, matchName, h₀, h₁, h₂, hne]

theorem named_upPath : Fs.named upPath s = some (some (s.task.iroot, DOTDOT),
    s.modInode s.task.iroot fun n => { n with count := (n.count + 1) % 2 ^ 32 }) := by
  unfold Fs.named
  rw [peek_bind, if_pos (by decide)]
  rfl

theorem topmost_of_confined (ht : Tree s) (hr : Rerooted s d) (hback : (namei upPath s).isSome)
    (hc : Confined s d) : Topmost s d := by
  intro k hk hname
  obtain ⟨⟨o, t⟩, hn⟩ := Option.isSome_iff_exists.mp hback
  have hroot : Stands s (Subtree s d) _ s.task.iroot := hr.stands.root.count
  have hd : (s.modInode s.task.iroot fun n => { n with count := (n.count + 1) % 2 ^ 32 }).nr
      s.task.iroot = d := by rw [nr_modInode keepsPlace_count, hr.root.2]
  have hn' := hn
  unfold namei at hn'
  rw [bind_of_eq named_upPath] at hn'
  dsimp only at hn'
  rw [if_neg (by decide)] at hn'
  obtain ⟨f, v, hf, k₁⟩ := bind_eq_some.mp hn'
  have hv := hroot.same (findEntry_same _ _ _ _ _ hf) (findEntry_quiet _ _ _ _ _ hf).data
  rcases f with - | ⟨e, next⟩
  · obtain ⟨-, ⟨-, hall⟩ | ⟨_, _, hcontra, -⟩⟩ := findEntry_finds hf
    · have hmiss := hall k (by
        rw [hroot.placed.entries hroot.mem, hd, hroot.disk.entriesNr]
        exact hk)
      unfold State.matchSlot at hmiss
      rw [hroot.placed.slot_eq hroot.mem, hd, hroot.disk.slotNr, hroot.disk.data,
        matchName_isNamed hname] at hmiss
      cases hmiss
    · cases hcontra
  obtain ⟨hdir, j, hj, rfl, hmatch, -⟩ := hroot.placed.find hroot.mem hf
  rw [hd, hroot.disk.modeNr] at hdir
  rw [hd, hroot.disk.entriesNr] at hj
  rw [hd, hroot.disk.slotNr, hroot.disk.data] at hmatch
  have htarget : v.entryNr (s.slotNr d j) = s.target d k := by
    rw [← ht.one d j k hdir hj hk (matchName_dotdot hmatch) hname]
    unfold State.target State.entryNr
    rw [hv.disk.data]
  dsimp only at k₁
  rw [peek_bind, peek_bind, hd, hroot.disk.slotNr] at k₁
  obtain ⟨i, rfl, hi⟩ := nameiFound_holds (P := fun y => y = s.target d k) hv.disk hv.placed htarget k₁
  rw [← hi]
  exact hc.namei upPath i t hn

/-- A task is confined to the subtree of its root while `..` of the root does not lead
out of it, and only then where `/..` comes back at all. -/
theorem confined_iff (ht : Tree s) (hr : Rerooted s d) :
    (Topmost s d → Confined s d) ∧ ((namei upPath s).isSome → Confined s d → Topmost s d) :=
  ⟨confined_of_topmost ht hr, topmost_of_confined ht hr⟩

theorem SameDisk.isNamed (h : SameDisk s t) {name : Str} :
    t.isNamed x k name ↔ s.isNamed x k name := by
  unfold State.isNamed
  rw [h.slotNr, h.data]

theorem Tree.congr (ht : Tree s) (h : SameDisk s t) : Tree t where
  dot x k := by
    rw [h.modeNr, h.entriesNr, h.isNamed, h.target]
    exact ht.dot x k
  dotdot x k j := by
    rw [h.modeNr, h.entriesNr, h.isNamed, h.isNamed, h.target, h.modeNr, h.entriesNr, h.isNamed,
      h.target]
    exact ht.dotdot x k j
  one x j k := by
    rw [h.modeNr, h.entriesNr, h.isNamed, h.isNamed, h.target, h.target]
    exact ht.one x j k

theorem sysChdir_disk (path : Str) : Leads SameDisk (sysChdir path) := by
  have hnamei : Leads SameDisk (namei path) := (namei_quiet path).mono fun _ _ => Quiet.disk
  have hput : ∀ i, Leads SameDisk (iput i) := fun i => (iput_quiet i).mono fun _ _ => Quiet.disk
  refine .bind (leads_peek _) fun task => .bind hnamei fun o => ?_
  cases o with
  | none => exact leads_pure _
  | some i =>
    exact .bind (leads_peek _) fun _ => .ite (.bind (hput _) fun _ => leads_pure _)
      (.bind (leads_lift _) fun _ => .bind (leads_poke fun _ => ⟨rfl, rfl⟩) fun _ =>
        .bind (hput _) fun _ => .bind (leads_poke fun _ => ⟨rfl, rfl⟩) fun _ => leads_pure _)

theorem sysChroot_disk (path : Str) : Leads SameDisk (sysChroot path) := by
  have hnamei : Leads SameDisk (namei path) := (namei_quiet path).mono fun _ _ => Quiet.disk
  have hput : ∀ i, Leads SameDisk (iput i) := fun i => (iput_quiet i).mono fun _ _ => Quiet.disk
  refine .bind (leads_peek _) fun task => .bind hnamei fun o => ?_
  cases o with
  | none => exact leads_pure _
  | some i =>
    exact .bind (leads_peek _) fun _ => .ite (.bind (hput _) fun _ => leads_pure _)
      (.bind (hput _) fun _ => .bind (leads_poke fun _ => ⟨rfl, rfl⟩) fun _ => leads_pure _)

/-- The root holds the directory `a`. -/
def oneDir : Image where
  descs := [⟨0o040755, 0, 48, 3, [5]⟩, ⟨0o040755, 0, 32, 2, [6]⟩]
  blocks := [dentry 1 [DOT] ++ dentry 1 DOTDOT ++ dentry 2 [0x61], dentry 2 [DOT] ++ dentry 1 DOTDOT]
  uid := 0

instance (s : State) (x k : ℕ) (name : Str) : Decidable (s.isNamed x k name) :=
  inferInstanceAs (Decidable (∀ i ≤ name.length, _))

theorem oneDir_dirs (h : isDir (oneDir.mount.modeNr x) = true) : x = 1 ∨ x = 2 := by
  by_cases hx : x < 97
  · have hall : ∀ x < 97, isDir (oneDir.mount.modeNr x) = true → x = 1 ∨ x = 2 := by decide +kernel
    exact hall x hx h
  · have hbuf : 7 ≤ oneDir.mount.descBuf x := by
      have hblock : oneDir.mount.descBuf x = 4 + sub32 x 1 / 32 := rfl
      rw [hblock, sub32_of_le (by omega)]
      omega
    have hzero : oneDir.mount.data (oneDir.mount.descBuf x) = blockOf [] := by
      generalize oneDir.mount.descBuf x = b at hbuf
      have hdata : oneDir.mount.data b = oneDir.data b := rfl
      obtain ⟨c, rfl⟩ := Nat.exists_eq_add_of_le hbuf
      rw [hdata]
      unfold Image.data
      rw [if_neg (by omega), if_neg (by omega), if_neg (by omega),
        show 7 + c - 5 = c + 2 by omega]
      rfl
    have hmode : oneDir.mount.modeNr x = 0 := by
      unfold State.modeNr
      rw [hzero]
      rfl
    rw [hmode] at h
    cases h

theorem oneDir_tree : Tree oneDir.mount where
  dot x k hdir hk := by
    have hall : ∀ x < 3, 0 < x → ∀ k < oneDir.mount.entriesNr x, oneDir.mount.isNamed x k [DOT] →
        oneDir.mount.target x k = x := by decide +kernel
    have := oneDir_dirs hdir
    exact hall x (by omega) (by omega) k hk
  dotdot x k j hdir hk hdot hdd _ hj hname := by
    have honly : ∀ x < 3, 0 < x → ∀ k < oneDir.mount.entriesNr x, oneDir.mount.isNamed x k [DOT] ∨
        oneDir.mount.isNamed x k DOTDOT ∨ (x = 1 ∧ k = 2) := by decide +kernel
    have hup : ∀ j < oneDir.mount.entriesNr 2, oneDir.mount.isNamed 2 j DOTDOT →
        oneDir.mount.target 2 j = 1 := by decide +kernel
    have hchild : oneDir.mount.target 1 2 = 2 := by decide +kernel
    have := oneDir_dirs hdir
    obtain ⟨rfl, rfl⟩ := ((honly x (by omega) (by omega) k hk).resolve_left hdot).resolve_left hdd
    rw [hchild] at hj hname ⊢
    exact hup j hj hname
  one x j k hdir hj hk hj' hk' := by
    have honly : ∀ x < 3, 0 < x → ∀ j < oneDir.mount.entriesNr x, oneDir.mount.isNamed x j DOTDOT →
        j = 1 := by decide +kernel
    have := oneDir_dirs hdir
    rw [honly x (by omega) (by omega) j hj hj', honly x (by omega) (by omega) k hk hk']

theorem oneDir_placed : Placed oneDir.mount where
  buf i hi := by
    obtain rfl : i = 0 := List.mem_singleton.mp hi
    decide
  slot i hi := by
    obtain rfl : i = 0 := List.mem_singleton.mp hi
    decide
  dev i hi := by
    obtain rfl : i = 0 := List.mem_singleton.mp hi
    decide
  nodup := List.nodup_singleton 0

/-- The root of the volume is topmost. -/
theorem confined_iff_oneDir : Confined oneDir.mount 1 := by
  have hroot : Rerooted oneDir.mount 1 := ⟨oneDir_placed, ⟨by decide, rfl⟩, by decide, .root⟩
  refine (confined_iff oneDir_tree hroot).1 ?_
  have hall : ∀ k < oneDir.mount.entriesNr 1, oneDir.mount.isNamed 1 k DOTDOT →
      oneDir.mount.target 1 k = 1 := by decide +kernel
  intro k hk hname
  rw [hall k hk hname]
  exact .root

/-- The task moves its working directory and then its root to `/a`. -/
def rerootAt : Prog State (ℕ × ℕ) := do
  let r ← sysChdir fileA
  let r' ← sysChroot fileA
  return (r, r')

theorem rerootAt_disk : Leads SameDisk rerootAt :=
  .bind (sysChdir_disk _) fun _ => .bind (sysChroot_disk _) fun _ => leads_pure _

/-- What the state after `rerootAt` is asked for. -/
def State.rerooted (t : State) : Bool :=
  t.sb.inodeList.all (fun i => t.ibuf i = inodeBlock t.sb (t.nr i) ∧
    (t.inodeTable i).slot = sub32 (t.nr i) 1 % BLOCK_INODES ∧ (t.inodeTable i).dev = t.dev) &&
  decide t.sb.inodeList.Nodup && decide (t.task.iroot ∈ t.sb.inodeList) &&
  t.nr t.task.iroot = 2 && decide (t.task.ipwd ∈ t.sb.inodeList) && t.nr t.task.ipwd = 2 &&
  (namei upPath t).isSome

theorem oneDir_rerootAt : (rerootAt oneDir.mount).any (fun r =>
    r.1 = (0, 0) && r.2.rerooted) = true := by decide +kernel

theorem oneDir_subtree (h : SameDisk oneDir.mount t) {y : ℕ} (hy : Subtree t 2 y) : y = 2 := by
  induction hy with
  | root => rfl
  | entry _ _ hk hdot hdd ih =>
    subst ih
    have hall : ∀ k < oneDir.mount.entriesNr 2, oneDir.mount.isNamed 2 k [DOT] ∨
        oneDir.mount.isNamed 2 k DOTDOT := by decide +kernel
    rw [h.entriesNr] at hk
    rw [h.isNamed] at hdot hdd
    exact absurd (hall _ hk) (not_or.mpr ⟨hdot, hdd⟩)

/-- A task whose root and working directory are `/a` gets to the real root. -/
theorem chroot_escaped : ∃ (s t : State) (d : ℕ), rerootAt s = some ((0, 0), t) ∧ Tree t ∧
    Rerooted t d ∧ ¬ Confined t d := by
  obtain ⟨⟨r, t⟩, hr, hp⟩ := (Option.any_eq_true _ _).mp oneDir_rerootAt
  have hdisk : SameDisk oneDir.mount t := rerootAt_disk _ _ _ hr
  simp only [State.rerooted, Bool.and_eq_true, decide_eq_true_eq, List.all_eq_true] at hp
  obtain ⟨rfl, ⟨⟨⟨⟨⟨hall, hnodup⟩, hroot⟩, hroot2⟩, hpwd⟩, hpwd2⟩, hback⟩ := hp
  have hplaced : Placed t := ⟨fun i hi => (hall i hi).1, fun i hi => (hall i hi).2.1,
    fun i hi => (hall i hi).2.2, hnodup⟩
  have hre : Rerooted t 2 := ⟨hplaced, ⟨hroot, hroot2⟩, hpwd, by rw [hpwd2]; exact .root⟩
  have htree : Tree t := oneDir_tree.congr hdisk
  refine ⟨oneDir.mount, t, 2, hr, htree, hre, fun hc => ?_⟩
  have htop : Topmost t 2 := topmost_of_confined htree hre hback hc
  have hk : 1 < t.entriesNr 2 := by
    rw [hdisk.entriesNr]
    decide +kernel
  have hname : t.isNamed 2 1 DOTDOT := by
    rw [hdisk.isNamed]
    decide +kernel
  have hup : t.target 2 1 = 1 := by
    rw [hdisk.target]
    decide +kernel
  have := oneDir_subtree hdisk (htop 1 hk hname)
  omega

end Onix.Fs
