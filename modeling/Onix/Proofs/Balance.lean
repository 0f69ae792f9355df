import Onix.Lib.Run
import Onix.Sanity.Repaid
import Onix.Spec.Image

/-! The references to inodes and the holds on buffers over any run of calls on names. -/

namespace Onix.Fs

open Function Prog Cstr

variable {s t u : State} {c : NameCall} {o : Option ℕ} {l : List Put} {cs : List NameCall}

/-- The call may change a directory of its task. -/
def NameCall.Moves : NameCall → Prop
  | chdir _ | chroot _ => True
  | _ => False

/-- A call that returns. -/
def NameStep (s : State) (c : NameCall) (t : State) : Prop := ∃ o, c.run s = some (o, t)

/-- Every hold on a buffer is that of an inode in memory or of a field of the superblock, the
inodes in memory are those with references, and those of the task are among them. -/
structure Balanced (s : State) : Prop where
  holds : ∀ b, s.counts b = s.holders b + s.fields b
  listed : ∀ i, i ∈ s.sb.inodeList ↔ 0 < (s.inodeTable i).count
  nodup : s.sb.inodeList.Nodup
  refs : ∀ i, s.task.refs.count i ≤ (s.inodeTable i).count

/-- From `s` to `t` the references changed by those to the inode `o` and to the directories that
the task has left and entered; the holds on buffers are those of the inodes in memory and the
superblock; and `iput` was called only where there was a reference. -/
structure Accounted (s : State) (c : NameCall) (o : Option ℕ) (t : State) : Prop where
  count : ∀ i, (t.inodeTable i).count + s.task.refs.count i =
    (s.inodeTable i).count + t.task.refs.count i + (one o).count i
  task : ¬ c.Moves → t.task = s.task
  holds : ∀ b, t.counts b = t.holders b + t.fields b
  put : ∃ l, c.noted (s, []) = some (o, (t, l)) ∧ ∀ p ∈ l, 0 < p.count

/-- Two references more leave every `count` below its bound. -/
def Roomy (s : State) : Prop := ∀ i, (s.inodeTable i).count + 2 < 2 ^ 32

/-- The references that are not those of the task. -/
def State.others (s : State) (i : ℕ) : ℕ := (s.inodeTable i).count - s.task.refs.count i

theorem Balanced.owes (h : Balanced s) : Owes s.others s.task s.task.refs 0 s where
  task := rfl
  count i := (Nat.sub_add_cancel (h.refs i)).symm
  holds b := (h.holds b).trans (by rw [Multiset.count_zero, Nat.add_zero])
  listed := h.listed
  nodup := h.nodup

theorem Balanced.room (h : Balanced s) (hr : Roomy s) : Room s.others s.task.refs 2 := fun i => by
  have hi := hr i
  have hrefs := h.refs i
  unfold State.others
  omega

/-- The call has handed on `o`, and nothing else is left. -/
def Ends (base : ℕ → ℕ) (task : TaskT) (c : NameCall) (o : Option ℕ) (s : State) : Prop :=
  Owes base s.task (one o + s.task.refs) 0 s ∧ (¬ c.Moves → s.task = task)

section Step

variable {base : ℕ → ℕ} {task : TaskT} {α : Type} {m : Noted State Put α} {a : α}

theorem Owes.ends (h : Owes base task (one o + task.refs) 0 s) : Ends base task c o s := by
  obtain rfl := h.task
  exact ⟨h, fun _ => rfl⟩

theorem Settled.ends (h : Settled base 0 0 s) (hc : c.Moves) : Ends base task c none s := by
  unfold Settled at h
  rw [add_zero] at h
  exact ⟨h.none, absurd hc⟩

theorem NameCall.pays (hroom : Room base task.refs 2) (c : NameCall) :
    Pays base task task.refs 0 c.noted (Ends base task c) := by
  cases c with
  | mkdir pathname mode =>
    exact (sysMkdir_pays hroom le_rfl _ _).bind fun _ => pays_pure fun _ hs => hs.none.ends
  | rmdir pathname =>
    exact (sysRmdir_pays hroom le_rfl _).bind fun _ => pays_pure fun _ hs => hs.none.ends
  | link oldname newname =>
    exact (sysLink_pays hroom le_rfl _ _).bind fun _ => pays_pure fun _ hs => hs.none.ends
  | unlink filename =>
    exact (sysUnlink_pays hroom le_rfl _).bind fun _ => pays_pure fun _ hs => hs.none.ends
  | «open» pathname flag mode =>
    exact (inodeOpen_pays hroom le_rfl _ _ _).weaken (fun _ => id) fun _ _ hs => ⟨hs.1.ends, hs.2⟩
  | chdir pathname =>
    rw [← add_zero task.refs] at hroom ⊢
    exact Triple.bind (sysChdir_pays hroom _) fun _ => triple_pure fun _ hs => ⟨hs.1.ends trivial, hs.2⟩
  | chroot pathname =>
    rw [← add_zero task.refs] at hroom ⊢
    exact Triple.bind (sysChroot_pays hroom _) fun _ => triple_pure fun _ hs => ⟨hs.1.ends trivial, hs.2⟩

theorem Ends.balanced (h : Ends base task c o s) : Balanced s where
  holds b := (h.1.holds b).trans (by rw [Multiset.count_zero, Nat.add_zero])
  listed := h.1.listed
  nodup := h.1.nodup
  refs i := by
    rw [h.1.count i, Multiset.count_add]
    omega

/-- One call. -/
theorem Balanced.call (h : Balanced s) (hr : Roomy s) (hc : c.run s = some (o, t)) :
    Balanced t ∧ Accounted s c o t := by
  obtain ⟨l, hl⟩ := c.noted_erases.run hc []
  have hpays : Ends s.others s.task c o t ∧ ∀ p ∈ l, p.Alive :=
    NameCall.pays (h.room hr) c (s, []) ⟨h.owes, fun _ hp => absurd hp List.not_mem_nil⟩ o (t, l) hl
  obtain ⟨he, hput⟩ := hpays
  refine ⟨he.balanced, fun i => ?_, he.2, he.balanced.holds, l, hl, hput⟩
  have hrefs := h.refs i
  have hcount := he.1.count i
  rw [Multiset.count_add] at hcount
  unfold State.others at hcount
  omega

end Step

/-- `brelse` of a buffer that nobody holds stops. -/
theorem brelse_free {b : ℕ} (h : s.counts b = 0) : brelse (some b) s = none := by
  have hdrop : s.cache.drop b = none := by
    unfold Cache.drop
    rw [if_pos ((congrFun (s.cache.clean_count b) b).trans h)]
  exact congrArg (Option.map _) hdrop

/-- In a run of calls on names that starts where the counts are right, and in which every `count`
is below `2 ^ 32 - 2` when a call begins, each call leaves the references as it found them but for
the inode that it returns or that its task enters or leaves; the holds on buffers are those of the
inodes in memory and the superblock; and no `iput` or `brelse` meets a count of 0. -/
theorem refs_balanced (hs : Balanced s) (hrun : Run (Guarded (fun u _ => Roomy u) NameStep) s cs u)
    (hroom : Roomy u) (hc : c.run u = some (o, t)) :
    Accounted u c o t ∧ ∀ b v, State.counts v b = 0 → brelse (some b) v = none := by
  have hu : Balanced u := by
    refine hrun.invariant (fun x d y hx hstep => ?_) hs
    obtain ⟨hr, o', hrun⟩ := hstep
    exact (hx.call hr hrun).1
  exact ⟨(hu.call hroom hc).2, fun _ _ => brelse_free⟩

section Wrap

/-- A volume with an empty root. -/
def bareRoot : Image where
  descs := [{ mode := 0o040755, uid := 0, size := 32, nlinks := 2, zone := [5] }]
  blocks := [dentry 1 [DOT] ++ dentry 1 [DOT, DOT]]
  uid := 0

/-- The volume after mounting, with the hold of the superblock on block 1. -/
def rootState : State :=
  { bareRoot.mount with
    cache := { bareRoot.mount.cache with
      count := fun b => if b = 1 ∨ b = 2 ∨ b = 3 ∨ b = 4 then 1 else 0 } }

def openRoot : NameCall := .open [SEPARATOR1] 0 0

/-- The root of the task has been opened. -/
def State.rootOpened (s : State) : State :=
  s.modInode s.task.iroot fun n => { n with count := (n.count + 1) % 2 ^ 32 }

theorem openRoot_run (s : State) : openRoot.run s = some (some s.task.iroot, s.rootOpened) := rfl

theorem rootOpened_count : (s.rootOpened.inodeTable s.task.iroot).count =
    ((s.inodeTable s.task.iroot).count + 1) % 2 ^ 32 := by
  unfold State.rootOpened
  rw [inodeTable_modInode, if_pos rfl]

theorem rootState_balanced : Balanced rootState where
  holds b := by
    have hholders : rootState.holders b = if 4 = b then 1 else 0 := by
      unfold State.holders
      change List.countP (fun i => decide (rootState.ibuf i = b)) [0] = _
      rw [List.countP_singleton]
      change (if decide (4 = b) = true then 1 else 0) = _
      simp
    have hmap : ∀ k, (List.range 8).countP (fun i => decide ((if i = 0 then some k else none) = some b)) =
        if k = b then 1 else 0 := by
      intro k
      by_cases hk : k = b <;> simp [List.range_succ_eq_map, hk]
    have hfields : rootState.fields b = (if b = 1 then 1 else 0) + (if 2 = b then 1 else 0) +
        if 3 = b then 1 else 0 := by
      rw [← hmap 2, ← hmap 3]
      rfl
    rw [hholders, hfields]
    change (if b = 1 ∨ b = 2 ∨ b = 3 ∨ b = 4 then 1 else 0) = _
    split_ifs <;> omega
  listed i := by
    change i ∈ [0] ↔ 0 < (if i = 0 then _ else freeInodeT : InodeT).count
    rw [List.mem_singleton]
    split_ifs with hi
    · exact iff_of_true hi (by decide)
    · exact iff_of_false hi (by decide)
  nodup := List.nodup_singleton 0
  refs i := by
    change (({0} + {0} : Multiset ℕ)).count i ≤ (if i = 0 then _ else freeInodeT : InodeT).count
    rw [Multiset.count_add, Multiset.count_singleton]
    split_ifs
    · exact Nat.le_succ 2
    · exact Nat.le_refl 0

theorem opens_run (n : ℕ) : ∃ t, Run NameStep rootState (List.replicate n openRoot) t ∧
    t.task.iroot = 0 ∧ (t.inodeTable 0).count = (3 + n) % 2 ^ 32 := by
  induction n with
  | zero => exact ⟨rootState, .nil, rfl, rfl⟩
  | succ n ih =>
    obtain ⟨t, hrun, hroot, hcount⟩ := ih
    refine ⟨t.rootOpened, ?_, hroot, ?_⟩
    · rw [List.replicate_succ']
      exact hrun.snoc ⟨_, openRoot_run t⟩
    · have hopened := rootOpened_count (s := t)
      rw [hroot, hcount] at hopened
      omega

/-- After `2 ^ 32 - 4` calls of `inode_open` of the root its `count` is `2 ^ 32 - 1`, and 0 after
the next. -/
theorem counts_wrap : Balanced rootState ∧ ¬ ∀ cs u c o t, Run NameStep rootState cs u →
    c.run u = some (o, t) → Accounted u c o t := by
  refine ⟨rootState_balanced, fun h => ?_⟩
  obtain ⟨u, hrun, hroot, hcount⟩ := opens_run (2 ^ 32 - 4)
  have hlast := (h _ u openRoot _ _ hrun (openRoot_run u)).count 0
  have hopened := rootOpened_count (s := u)
  have hone : (one (some u.task.iroot)).count 0 = 1 := by
    rw [hroot]
    exact Multiset.count_singleton_self 0
  have hrefs : u.rootOpened.task.refs = u.task.refs := rfl
  rw [hone, hrefs] at hlast
  rw [hroot] at hopened
  omega

end Wrap

/-- The root is opened. -/
theorem refs_balanced_root : Accounted rootState openRoot (some 0) rootState.rootOpened ∧
    ∀ b v, State.counts v b = 0 → brelse (some b) v = none := by
  refine refs_balanced rootState_balanced .nil (fun i => ?_) (openRoot_run rootState)
  change (if i = 0 then _ else freeInodeT : InodeT).count + 2 < 2 ^ 32
  split_ifs <;> decide

end Onix.Fs
