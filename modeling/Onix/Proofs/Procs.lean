import Onix.Proofs.Balance
import Onix.Sanity.ProcRefs

/-! The counts of files and inodes over any run of calls by any tasks. -/

namespace Onix.Fs

open Function Prog Cstr

variable {s u v : Procs} {t : State} {i child : ℕ} {as : List (ℕ × ProcCall)} {c : ProcCall}

/-- The tasks that have not exited. -/
def Procs.live (s : Procs) : Finset ℕ := (Finset.range Task.NR_TASKS).filter fun i => s.slot i = .live

/-- Their descriptors. -/
def Procs.fds (s : Procs) : Finset (ℕ × ℕ) := s.live ×ˢ Finset.range TASK_FILE_NR

/-- How many descriptors of live tasks point to `file`. -/
def Procs.fileRefs (s : Procs) (file : ℕ) : ℕ := s.fs.fdsOf s.fds file

/-- `root->iroot` and `root->imount`, which stay where `mount_root` put them. -/
def mounts : Multiset ℕ := {0} + {0}

/-- The inodes that a live task or a mount refers to, as often as they do. -/
def Procs.dirs (s : Procs) : Multiset ℕ := mounts + ∑ i ∈ s.live, (s.fs.tasks i).refs

/-- No file is open: the state after `super_init`, `file_init` and `task_init`, whatever tasks there
are and wherever they have been. -/
structure ProcInit (s : Procs) : Prop where
  slots : ∀ i, s.slot i ≠ .free → i < Task.NR_TASKS
  files : ∀ f, (s.fs.fileTable f).count = 0
  fds : ∀ i fd, s.slot i = .live → (s.fs.tasks i).files fd = none
  inodes : ∀ j, (s.fs.inodeTable j).count = s.dirs.count j
  holds : ∀ b, s.fs.counts b = s.fs.holders b + s.fs.fields b
  listed : ∀ j, j ∈ s.fs.sb.inodeList ↔ 0 < (s.fs.inodeTable j).count
  nodup : s.fs.sb.inodeList.Nodup

structure ProcInv (s : Procs) : Prop where
  slots : ∀ i, s.slot i ≠ .free → i < Task.NR_TASKS
  held : Held s.dirs s.fds s.fs

theorem mem_live (h : ∀ i, s.slot i ≠ .free → i < Task.NR_TASKS) : i ∈ s.live ↔ s.slot i = .live := by
  unfold Procs.live
  rw [Finset.mem_filter, Finset.mem_range]
  refine and_iff_right_of_imp fun hi => h i ?_
  rw [hi]
  exact nofun

theorem ProcInit.inv (h : ProcInit s) : ProcInv s where
  slots := h.slots
  held := by
    have hfds : ∀ p ∈ s.fds, (s.fs.tasks p.1).files p.2 = none := fun p hp =>
      h.fds p.1 p.2 ((mem_live h.slots).mp (Finset.mem_product.mp hp).1)
    refine ⟨⟨rfl, fun j => ?_, fun b => ?_, h.listed, h.nodup⟩, fun f => ?_, fun p hp f hpf => ?_⟩
    · have hopen : s.fs.openFiles j = 0 := by
        refine Finset.card_eq_zero.mpr (Finset.filter_eq_empty_iff.mpr fun f _ hf => ?_)
        rw [h.files f] at hf
        exact Nat.lt_irrefl 0 hf.1
      rw [hopen, Nat.zero_add, h.inodes j]
    · rw [h.holds b, Multiset.count_zero, Nat.add_zero]
    · rw [h.files f]
      refine (Finset.card_eq_zero.mpr (Finset.filter_eq_empty_iff.mpr fun p hp hpf => ?_)).symm
      rw [hfds p hp] at hpf
      exact nomatch hpf
    · rw [hfds p hp] at hpf
      exact nomatch hpf

/-- What is left to the other tasks. -/
def Procs.othersDirs (s : Procs) (i : ℕ) : Multiset ℕ :=
  mounts + ∑ k ∈ s.live.erase i, (s.fs.tasks k).refs

theorem dirs_eq (hi : i ∈ s.live) : s.dirs = (s.fs.tasks i).refs + s.othersDirs i := by
  unfold Procs.dirs Procs.othersDirs
  rw [← Finset.add_sum_erase _ _ hi, add_left_comm]

theorem card_live : s.live.card ≤ Task.NR_TASKS :=
  (Finset.card_filter_le _ _).trans (Nat.le_of_eq (Finset.card_range _))

/-- With so few tasks and files no `count` of an inode comes near its bound. -/
theorem room_dirs : Room s.fs.openFiles s.dirs 2 := by
  intro j
  have hopen : s.fs.openFiles j ≤ FILE_NR :=
    (Finset.card_filter_le _ _).trans (Nat.le_of_eq (Finset.card_range _))
  have hsum : (∑ i ∈ s.live, (s.fs.tasks i).refs).card = s.live.card * 2 := by
    rw [Multiset.card_sum]
    exact Finset.sum_const_nat fun _ _ => rfl
  have hcard : s.dirs.card = 2 + s.live.card * 2 := by
    unfold Procs.dirs
    rw [Multiset.card_add, hsum]
    rfl
  have hcount := Multiset.count_le_card j s.dirs
  have hlive := card_live (s := s)
  unfold FILE_NR at hopen
  unfold Task.NR_TASKS at hlive
  omega

theorem card_fds : s.fds.card + TASK_FILE_NR < 2 ^ 32 := by
  have hlive := card_live (s := s)
  unfold Procs.fds
  rw [Finset.card_product, Finset.card_range]
  unfold Task.NR_TASKS TASK_FILE_NR at *
  omega

theorem Held.enter {D : Multiset ℕ} {P : Finset (ℕ × ℕ)} (h : Held D P s.fs) : Held D P (s.enter i) :=
  ⟨⟨rfl, h.owes.count, h.owes.holds, h.owes.listed, h.owes.nodup⟩, h.count, h.fds⟩

/-- The call has changed only its own task. -/
theorem ProcInv.own (hi : i ∈ s.live) (hslots : ∀ i, s.slot i ≠ .free → i < Task.NR_TASKS)
    (ht : Held (t.task.refs + s.othersDirs i) s.fds t) (hown : Own (s.enter i) t) :
    ProcInv { s with fs := t } := by
  refine ⟨hslots, ?_⟩
  have hothers : ({ s with fs := t } : Procs).othersDirs i = s.othersDirs i := by
    unfold Procs.othersDirs
    congr 1
    exact Finset.sum_congr rfl fun k hk => congrArg _ (hown.others k (Finset.ne_of_mem_erase hk))
  have hrun : t.running = i := hown.running
  rw [dirs_eq (s := { s with fs := t }) hi, hothers]
  have htask : t.task = t.tasks i := by rw [← hrun]; rfl
  rw [htask] at ht
  exact ht

theorem fds_mem {fd : ℕ} (hi : i ∈ s.live) (hfd : fd < TASK_FILE_NR) : ((s.enter i).running, fd) ∈ s.fds :=
  Finset.mem_product.mpr ⟨hi, Finset.mem_range.mpr hfd⟩

theorem ProcInv.enter (h : ProcInv s) (hi : i ∈ s.live) :
    Held ((s.enter i).task.refs + s.othersDirs i) s.fds (s.enter i) := by
  have hheld := h.held.enter (i := i)
  rw [dirs_eq hi] at hheld
  exact hheld

theorem room_enter (hi : i ∈ s.live) :
    Room (s.enter i).openFiles ((s.enter i).task.refs + s.othersDirs i) 2 := by
  have hroom := room_dirs (s := s)
  rw [dirs_eq hi] at hroom
  exact hroom

theorem getFreeTask_free (h : s.getFreeTask = some child) :
    child < Task.NR_TASKS ∧ s.slot child = .free := by
  have hfree : decide (s.slot child = .free) = true := List.find?_some (p := fun i => decide (s.slot i = .free)) h
  exact ⟨List.mem_range.mp (List.mem_of_find?_eq_some h), of_decide_eq_true hfree⟩

theorem ProcInv.fork (h : ProcInv s) (hi : i ∈ s.live) (page : ℕ)
    (hchild : s.getFreeTask = some child) {x : Unit} (hr : forkRefs child (s.enter i) = some (x, t)) :
    ProcInv ⟨t, update s.slot child .live, update s.page child page⟩ ∧
      ∀ f, (s.fs.fileTable f).count ≤ (t.fileTable f).count := by
  obtain ⟨hlt, hfree⟩ := getFreeTask_free hchild
  have hout : child ∉ s.live := by
    rw [mem_live h.slots, hfree]
    exact nofun
  have hne : child ≠ i := fun he => hout (he ▸ hi)
  obtain ⟨ht, htasks, -, hle⟩ := (h.enter hi).forkRefs (room_enter hi) hne
    (fun p hp hpc => hout (hpc ▸ (Finset.mem_product.mp hp).1)) (fun fd => fds_mem hi) card_fds hr
  obtain ⟨v, hv⟩ : ∃ v : Procs, v = ⟨t, update s.slot child .live, update s.page child page⟩ := ⟨_, rfl⟩
  rw [← hv]
  have hfs : v.fs = t := by rw [hv]
  have hslot : ∀ k, v.slot k = if k = child then .live else s.slot k := fun k => by
    rw [hv]
    exact update_apply ..
  have hslots : ∀ k, v.slot k ≠ .free → k < Task.NR_TASKS := by
    intro k hk
    rw [hslot] at hk
    split_ifs at hk with hkc
    · rwa [hkc]
    · exact h.slots k hk
  have hlive : v.live = insert child s.live := by
    ext k
    rw [mem_live hslots, hslot, Finset.mem_insert, mem_live h.slots]
    split_ifs with hkc
    · exact iff_of_true rfl (.inl hkc)
    · exact (or_iff_right hkc).symm
  have hfds : v.fds = s.fds ∪ {child} ×ˢ Finset.range TASK_FILE_NR := by
    unfold Procs.fds
    rw [hlive, Finset.insert_eq, Finset.union_product, Finset.union_comm]
  have hdirs : v.dirs = (s.enter i).task.refs + ((s.enter i).task.refs + s.othersDirs i) := by
    have hself : t.tasks child = (s.enter i).task := by
      rw [htasks]
      exact update_self ..
    have hothers : ∑ k ∈ s.live, (t.tasks k).refs = ∑ k ∈ s.live, (s.fs.tasks k).refs := by
      refine Finset.sum_congr rfl fun k hk => ?_
      have hkc : k ≠ child := fun he => hout (he ▸ hk)
      rw [htasks, update_of_ne hkc]
      rfl
    have hold : (s.enter i).task.refs + s.othersDirs i = s.dirs := (dirs_eq hi).symm
    rw [hold]
    unfold Procs.dirs
    rw [hfs, hlive, Finset.sum_insert hout, hself, hothers, add_left_comm]
  refine ⟨⟨hslots, ?_⟩, hle⟩
  rw [hfs, hfds, hdirs]
  exact ht

theorem ProcInv.exit (h : ProcInv s) (hi : i ∈ s.live) {x : Unit}
    (hr : exitRefs (s.enter i) = some (x, t)) :
    ProcInv { s with fs := t, slot := update s.slot i .died } := by
  obtain ⟨ht, hown, hfiles⟩ := (h.enter hi).exitRefs (fun fd => fds_mem hi) hr
  obtain ⟨v, hv⟩ : ∃ v : Procs, v = { s with fs := t, slot := update s.slot i .died } := ⟨_, rfl⟩
  rw [← hv]
  have hfs : v.fs = t := by rw [hv]
  have hslot : ∀ k, v.slot k = if k = i then .died else s.slot k := fun k => by
    rw [hv]
    exact update_apply ..
  have hslots : ∀ k, v.slot k ≠ .free → k < Task.NR_TASKS := by
    intro k hk
    rw [hslot] at hk
    split_ifs at hk with hki
    · rw [hki]
      exact Finset.mem_range.mp (Finset.mem_filter.mp hi).1
    · exact h.slots k hk
  have hlive : v.live = s.live.erase i := by
    ext k
    rw [mem_live hslots, hslot, Finset.mem_erase, mem_live h.slots]
    split_ifs with hki
    · exact iff_of_false nofun fun hk => hk.1 hki
    · exact (and_iff_right hki).symm
  have hdirs : v.dirs = s.othersDirs i := by
    unfold Procs.dirs Procs.othersDirs
    rw [hfs, hlive]
    congr 1
    exact Finset.sum_congr rfl fun k hk => congrArg _ (hown.others k (Finset.ne_of_mem_erase hk))
  have htask : t.task = t.tasks i := by
    rw [← show t.running = i from hown.running]
    rfl
  have hnone : ∀ p ∈ s.fds, p.1 = i → (t.tasks p.1).files p.2 = none := by
    intro p hp hpi
    rw [hpi, ← htask]
    exact hfiles p.2 (Finset.mem_range.mp (Finset.mem_product.mp hp).2)
  have hmem : ∀ p, p ∈ v.fds ↔ p ∈ s.fds ∧ p.1 ≠ i := by
    intro p
    unfold Procs.fds
    rw [hlive, Finset.mem_product, Finset.mem_product, Finset.mem_erase]
    tauto
  refine ⟨hslots, ?_⟩
  rw [hfs, hdirs]
  refine ⟨ht.owes, fun f => ?_, fun p hp => ht.fds p ((hmem p).mp hp).1⟩
  rw [ht.count f]
  unfold State.fdsOf
  congr 1
  ext p
  rw [Finset.mem_filter, Finset.mem_filter, hmem, and_assoc]
  refine and_congr_right fun hp => (and_iff_right_of_imp fun hpf hpi => ?_).symm
  rw [hnone p hp hpi] at hpf
  exact nomatch hpf

/-- A task that has exited holds nothing. -/
theorem ProcInv.reap (h : ProcInv s) (hdied : s.slot child = .died) :
    ProcInv { s with slot := update s.slot child .free } := by
  obtain ⟨v, hv⟩ : ∃ v : Procs, v = { s with slot := update s.slot child .free } := ⟨_, rfl⟩
  rw [← hv]
  have hfs : v.fs = s.fs := by rw [hv]
  have hslot : ∀ k, v.slot k = if k = child then .free else s.slot k := fun k => by
    rw [hv]
    exact update_apply ..
  have hslots : ∀ k, v.slot k ≠ .free → k < Task.NR_TASKS := by
    intro k hk
    rw [hslot] at hk
    split_ifs at hk with hkc
    · exact absurd rfl hk
    · exact h.slots k hk
  have hlive : v.live = s.live := by
    ext k
    rw [mem_live hslots, hslot, mem_live h.slots]
    split_ifs with hkc
    · rw [hkc, hdied]
      exact iff_of_false nofun nofun
    · rfl
  have hdirs : v.dirs = s.dirs := by
    unfold Procs.dirs
    rw [hfs, hlive]
  have hfds : v.fds = s.fds := by
    unfold Procs.fds
    rw [hlive]
  refine ⟨hslots, ?_⟩
  rw [hfs, hdirs, hfds]
  exact h.held

/-- One call of one task. -/
theorem ProcInv.step (h : ProcInv s) (hc : c.Checked) (hstep : s.exec i c = some v) : ProcInv v := by
  unfold Procs.exec at hstep
  split_ifs at hstep with hlive
  have hi : i ∈ s.live := (mem_live h.slots).mpr (not_not.mp hlive)
  have hheld := h.enter hi
  have hroom := room_enter hi
  cases c with
  | «open» filename flags mode =>
    obtain ⟨⟨r, t⟩, hr, rfl⟩ := Option.map_eq_some_iff.mp hstep
    obtain ⟨ht, hown, -⟩ := hheld.sysOpen hroom (fun fd => fds_mem hi) hr
    exact .own hi h.slots ht hown
  | close fd =>
    obtain ⟨⟨r, t⟩, hr, rfl⟩ := Option.map_eq_some_iff.mp hstep
    unfold Procs.closeFd at hr
    rw [if_pos (show 0 ≤ fd from hc)] at hr
    obtain ⟨hlt, -⟩ := sysClose_cases hr
    obtain ⟨ht, hown, hrefs, -⟩ := hheld.sysClose (fds_mem hi hlt) hr
    rw [← hrefs] at ht
    exact .own hi h.slots ht hown
  | chdir pathname =>
    obtain ⟨⟨r, t⟩, hr, rfl⟩ := Option.map_eq_some_iff.mp hstep
    obtain ⟨ht, haside⟩ := hheld.chdir hroom hr
    exact .own hi h.slots ht haside.own
  | fork page =>
    dsimp only at hstep
    split_ifs at hstep with htaken
    cases hchild : s.getFreeTask with
    | none =>
      rw [hchild] at hstep
      cases hstep
    | some child =>
      rw [hchild] at hstep
      obtain ⟨⟨r, t⟩, hr, rfl⟩ := Option.map_eq_some_iff.mp hstep
      exact (h.fork hi page hchild hr).1
  | exit =>
    obtain ⟨⟨r, t⟩, hr, rfl⟩ := Option.map_eq_some_iff.mp hstep
    exact h.exit hi hr
  | reap child =>
    dsimp only at hstep
    split_ifs at hstep with hdied
    cases hstep
    exact h.reap hdied

section Counted

/-- Every open file has as many references as descriptors, every inode as many as open files,
directories of tasks and mounts, and `get_file`, where `sys_open` calls it, returns a file that
nobody has. -/
structure FilesCounted (s : Procs) : Prop where
  files : ∀ f, (s.fs.fileTable f).count = s.fileRefs f
  inodes : ∀ j, (s.fs.inodeTable j).count = s.fs.openFiles j + s.dirs.count j
  handed : ∀ i filename flags mode o t f u,
    inodeOpen filename flags mode (s.enter i) = some (o, t) → getFile t = some (f, u) →
      (s.fs.fileTable f).count = 0

/-- From `s` to `v` the inodes that are released are those of the files whose last descriptor goes. -/
def ReleasesLast (s : Procs) (i : ℕ) (c : ProcCall) (v : Procs) : Prop :=
  ∀ f, (s.released i c).count f = if 0 < s.fileRefs f ∧ v.fileRefs f = 0 then 1 else 0

theorem ProcInv.counted (h : ProcInv s) : FilesCounted s where
  files := h.held.count
  inodes := h.held.owes.count
  handed i filename flags mode o t f u ho hf := by
    have hzero := (getFile_eq hf).1.2.2
    rw [(inodeOpen_fixed filename flags mode _ _ _ ho).fileTable] at hzero
    exact hzero

theorem ReleasesLast.grows (h : ProcInv s) (hv : ProcInv v) (hnone : s.released i c = [])
    (hle : ∀ f, (s.fs.fileTable f).count ≤ (v.fs.fileTable f).count) : ReleasesLast s i c v := by
  intro f
  have hf := hle f
  rw [hnone, List.count_nil, ← h.counted.files f, ← hv.counted.files f, if_neg (by omega)]

theorem ReleasesLast.noted (h : ProcInv s) (hv : ProcInv v) {m : Noted State ℕ Unit}
    {p : Prog State Unit} (he : Erases m p) (hm : Leads Releases m) {x : Unit}
    (hr : p (s.enter i) = some (x, v.fs))
    (hl : s.released i c = ((m (s.enter i, [])).map fun r => r.2.2).getD []) : ReleasesLast s i c v := by
  intro f
  obtain ⟨l, hrun⟩ := he.run hr []
  obtain ⟨-, hcount⟩ := hm _ _ _ hrun f
  rw [hl, hrun, ← h.counted.files f, ← hv.counted.files f]
  rw [List.count_nil, Nat.zero_add] at hcount
  exact hcount

theorem ProcInv.releases (h : ProcInv s) (hc : c.Checked) (hstep : s.exec i c = some v) :
    ReleasesLast s i c v := by
  have hv := h.step hc hstep
  unfold Procs.exec at hstep
  split_ifs at hstep with hlive
  have hi : i ∈ s.live := (mem_live h.slots).mpr (not_not.mp hlive)
  have hheld := h.enter hi
  have hroom := room_enter hi
  cases c with
  | «open» filename flags mode =>
    obtain ⟨⟨r, t⟩, hr, rfl⟩ := Option.map_eq_some_iff.mp hstep
    exact .grows h hv rfl (hheld.sysOpen hroom (fun fd => fds_mem hi) hr).2.2
  | close fd =>
    obtain ⟨⟨r, t⟩, hr, rfl⟩ := Option.map_eq_some_iff.mp hstep
    refine .noted h hv (s.closeFdNoted_erases i fd) ?_ hr rfl
    unfold Procs.closeFdNoted
    rw [if_pos (show 0 ≤ fd from hc)]
    exact sysCloseNoted_releases _
  | chdir pathname =>
    obtain ⟨⟨r, t⟩, hr, rfl⟩ := Option.map_eq_some_iff.mp hstep
    refine .grows h hv rfl fun f => Nat.le_of_eq ?_
    rw [(hheld.chdir hroom hr).2.fileTable]
    rfl
  | fork page =>
    dsimp only at hstep
    split_ifs at hstep with htaken
    cases hchild : s.getFreeTask with
    | none =>
      rw [hchild] at hstep
      cases hstep
    | some child =>
      rw [hchild] at hstep
      obtain ⟨⟨r, t⟩, hr, rfl⟩ := Option.map_eq_some_iff.mp hstep
      exact .grows h hv rfl (h.fork hi page hchild hr).2
  | exit =>
    obtain ⟨⟨r, t⟩, hr, rfl⟩ := Option.map_eq_some_iff.mp hstep
    exact .noted h hv exitRefsNoted_erases exitRefsNoted_releases hr rfl
  | reap child =>
    dsimp only at hstep
    split_ifs at hstep with hdied
    cases hstep
    exact .grows h hv rfl fun f => Nat.le_refl _

/-- In any run of calls by any tasks in which no descriptor of `sys_close` is negative, the
references to files and to inodes are counted in every state, and every call releases the inodes of
the files whose last descriptor goes. -/
theorem files_counted (hs : ProcInit s) (hrun : Run (Guarded (fun _ a => a.2.Checked) ProcStep) s as u) :
    FilesCounted u ∧ ∀ i c v, c.Checked → u.exec i c = some v → ReleasesLast u i c v := by
  have hu : ProcInv u := by
    refine hrun.invariant (fun x a y hx hstep => ?_) hs.inv
    obtain ⟨hc, hexec⟩ := hstep
    exact hx.step hc hexec
  exact ⟨hu.counted, fun i c v hc hexec => hu.releases hc hexec⟩

end Counted

section Below

/-- One task, on page 8, in the root. -/
def oneTask : Procs where
  fs := rootState.modInode 0 fun n => { n with count := 4 }
  slot i := if i = 0 then .live else .free
  page _ := 8

/-- The task forks; the child exits; the next child is put on a page of the first one's, and the
third, when the first has been waited for, on the page before. That one opens the root, and the
other one closes a descriptor that lies a page below. -/
def closeBelow : List (ℕ × ProcCall) :=
  [(0, .fork 9), (1, .exit), (0, .fork 10), (0, .reap 1), (0, .fork 9),
    (1, .open [SEPARATOR1] 0 0), (2, .close (-1021))]

def runCalls (as : List (ℕ × ProcCall)) : Option Procs :=
  as.foldlM (fun (s : Procs) a => s.exec a.1 a.2) oneTask

theorem run_of_foldlM {C : ℕ × ProcCall → Prop} (hC : ∀ a ∈ as, C a)
    (h : as.foldlM (fun (s : Procs) a => s.exec a.1 a.2) s = some u) :
    Run (Guarded (fun _ a => C a) ProcStep) s as u := by
  induction as generalizing s with
  | nil =>
    cases h
    exact .nil
  | cons a as ih =>
    rw [List.foldlM_cons] at h
    obtain ⟨t, ht, hrest⟩ := Option.bind_eq_some_iff.mp h
    have hfirst : Run (Guarded (fun _ a => C a) ProcStep) s [a] t :=
      .single ⟨hC a List.mem_cons_self, ht⟩
    exact hfirst.trans (ih (fun b hb => hC b (List.mem_cons_of_mem a hb)) hrest)

theorem oneTask_count (j : ℕ) : (oneTask.fs.inodeTable j).count = if j = 0 then 4 else 0 := by
  change ((rootState.modInode 0 fun n => { n with count := 4 }).inodeTable j).count = _
  rw [inodeTable_modInode]
  split_ifs with hj
  · rfl
  · change (if j = 0 then _ else freeInodeT : InodeT).count = 0
    rw [if_neg hj]
    rfl

theorem oneTask_init : ProcInit oneTask where
  slots i hi := by
    change (if i = 0 then Slot.live else .free) ≠ .free at hi
    split_ifs at hi with h
    · rw [h]
      exact Nat.zero_lt_succ 63
    · exact absurd rfl hi
  files f := rfl
  fds i fd _ := rfl
  inodes j := by
    have hlive : oneTask.live = {0} := by decide
    have hdirs : oneTask.dirs = Multiset.replicate 4 0 := by
      unfold Procs.dirs
      rw [hlive, Finset.sum_singleton]
      rfl
    rw [hdirs, oneTask_count, Multiset.count_replicate]
    simp only [eq_comm]
  holds b := rootState_balanced.holds b
  listed j := by
    change j ∈ [0] ↔ 0 < (oneTask.fs.inodeTable j).count
    rw [List.mem_singleton, oneTask_count]
    split_ifs with hj
    · exact iff_of_true hj (Nat.zero_lt_succ 3)
    · exact iff_of_false hj (Nat.lt_irrefl 0)
  nodup := List.nodup_singleton 0

/-- The file that is open has no reference left. -/
theorem files_below : ProcInit oneTask ∧ ∃ u, Run ProcStep oneTask closeBelow u ∧
    (u.fs.fileTable 3).count = 0 ∧ 0 < u.fileRefs 3 ∧ ¬ FilesCounted u := by
  have hruns : (runCalls closeBelow).map (fun u => ((u.fs.fileTable 3).count, (u.fs.tasks 1).files 3,
      decide (u.slot 1 = .live))) = some (0, some 3, true) := by decide +kernel
  obtain ⟨u, hu, hval⟩ := Option.map_eq_some_iff.mp hruns
  obtain ⟨hcount, hrest⟩ := Prod.mk.inj hval
  obtain ⟨hfile, hlive⟩ := Prod.mk.inj hrest
  have hrefs : 0 < u.fileRefs 3 := by
    have hmem : 1 ∈ u.live :=
      Finset.mem_filter.mpr ⟨Finset.mem_range.mpr (by decide), of_decide_eq_true hlive⟩
    have hfd : (1, 3) ∈ u.fds := Finset.mem_product.mpr ⟨hmem, Finset.mem_range.mpr (by decide)⟩
    exact Finset.card_pos.mpr ⟨(1, 3), Finset.mem_filter.mpr ⟨hfd, hfile⟩⟩
  refine ⟨oneTask_init, u, (run_of_foldlM (C := fun _ => True) (fun _ _ => trivial) hu).of_guarded,
    hcount, hrefs, fun h => ?_⟩
  have hfiles := h.files 3
  omega

end Below

/-- The root is opened and its file shared by a `fork`; one of the two tasks has closed it when the
other one does. -/
theorem files_counted_shared : ∃ u v, u.exec 0 (.close 3) = some v ∧ FilesCounted u ∧
    ReleasesLast u 0 (.close 3) v := by
  have hruns : ((runCalls [(0, .open [SEPARATOR1] 0 0), (0, .fork 9), (1, .close 3)]).bind fun u =>
      (u.exec 0 (.close 3)).map fun v => (u, v)).isSome = true := rfl
  obtain ⟨⟨u, v⟩, huv⟩ := Option.isSome_iff_exists.mp hruns
  obtain ⟨u, hu, hmap⟩ := Option.bind_eq_some_iff.mp huv
  obtain ⟨v, hv, hpair⟩ := Option.map_eq_some_iff.mp hmap
  obtain ⟨rfl, rfl⟩ := Prod.mk.inj hpair
  have hchecked : ∀ a ∈ [(0, ProcCall.open [SEPARATOR1] 0 0), (0, .fork 9), (1, .close 3)],
      ProcCall.Checked a.2 := by
    simp [ProcCall.Checked]
  obtain ⟨hcounted, hreleases⟩ := files_counted oneTask_init
    (run_of_foldlM (C := fun a => a.2.Checked) hchecked hu)
  exact ⟨u, v, hv, hcounted, hreleases 0 _ v (Int.natCast_nonneg 3) hv⟩

end Onix.Fs
