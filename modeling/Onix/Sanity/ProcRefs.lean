import Onix.Sanity.FileOps
import Onix.Sanity.Repaid
import Onix.Spec.Procs

/-! What the calls of a task do to the references to inodes and to open files. -/

namespace Onix.Fs

open Function Prog Cstr

variable {s t u : State} {D R R' B : Multiset ℕ} {P : Finset (ℕ × ℕ)} {base base' : ℕ → ℕ}
  {task : TaskT} {i j fd file : ℕ} {x : Unit} {o : Option ℕ} {α : Type}

section Counts

/-- How many open files have inode `j`. -/
def State.openFiles (s : State) (j : ℕ) : ℕ :=
  ((Finset.range FILE_NR).filter fun f =>
    0 < (s.fileTable f).count ∧ (s.fileTable f).inode = some j).card

/-- How many of the descriptors `P` point to `file`; one is a slot of a task and an index. -/
def State.fdsOf (s : State) (P : Finset (ℕ × ℕ)) (file : ℕ) : ℕ :=
  (P.filter fun p => (s.tasks p.1).files p.2 = some file).card

/-- The references to inodes are those of the open files and `D`, those to open files are those of
the descriptors `P`. -/
structure Held (D : Multiset ℕ) (P : Finset (ℕ × ℕ)) (s : State) : Prop where
  owes : Owes s.openFiles s.task D 0 s
  count : ∀ f, (s.fileTable f).count = s.fdsOf P f
  fds : ∀ p ∈ P, ∀ f, (s.tasks p.1).files p.2 = some f → 3 ≤ p.2 ∧ f < FILE_NR

/-- One more element of the set has the property. -/
theorem card_filter_succ {α : Type} [DecidableEq α] {S : Finset α} {p q : α → Prop} [DecidablePred p]
    [DecidablePred q] {a : α} (ha : a ∈ S) (hp : ¬ p a) (hq : q a)
    (h : ∀ y ∈ S, y ≠ a → (q y ↔ p y)) : (S.filter q).card = (S.filter p).card + 1 := by
  have hins : S.filter q = insert a (S.filter p) := by
    ext y
    rw [Finset.mem_filter, Finset.mem_insert, Finset.mem_filter]
    by_cases hy : y = a
    · rw [hy]
      exact iff_of_true ⟨ha, hq⟩ (.inl rfl)
    · constructor
      · intro hm
        exact .inr ⟨hm.1, (h y hm.1 hy).mp hm.2⟩
      · intro hm
        obtain ⟨hS, hpy⟩ := hm.resolve_left hy
        exact ⟨hS, (h y hS hy).mpr hpy⟩
  rw [hins, Finset.card_insert_of_notMem fun hm => hp (Finset.mem_filter.mp hm).2]

theorem openFiles_congr (h : t.fileTable = s.fileTable) : t.openFiles = s.openFiles := by
  funext j
  unfold State.openFiles
  rw [h]

theorem fdsOf_congr (h : ∀ p ∈ P, (t.tasks p.1).files p.2 = (s.tasks p.1).files p.2) :
    t.fdsOf P file = s.fdsOf P file := by
  unfold State.fdsOf
  congr 1
  apply Finset.filter_congr
  intro p hp
  rw [h p hp]

/-- The same references, shared out otherwise. -/
theorem Owes.share (h : Owes base task R B s)
    (hcount : ∀ i, base i + R.count i = base' i + R'.count i) : Owes base' task R' B s where
  task := h.task
  count i := (h.count i).trans (hcount i)
  holds := h.holds
  listed := h.listed
  nodup := h.nodup

theorem Owes.modFile (h : Owes base task R B s) (file : ℕ) (f : FileT → FileT) :
    Owes base task R B (s.modFile file f) := ⟨h.task, h.count, h.holds, h.listed, h.nodup⟩

theorem fileTable_modFile {f : FileT → FileT} : (s.modFile file f).fileTable j =
    if j = file then f (s.fileTable file) else s.fileTable j := update_apply ..

/-- A file that was not open is. -/
theorem openFiles_open {inode : ℕ} {n : FileT} (hlt : file < FILE_NR)
    (hzero : (s.fileTable file).count = 0) (hpos : 0 < n.count) (hn : n.inode = some inode) :
    (s.modFile file fun _ => n).openFiles j = s.openFiles j + ({inode} : Multiset ℕ).count j := by
  have hother : ∀ f ∈ Finset.range FILE_NR, f ≠ file →
      ((0 < ((s.modFile file fun _ => n).fileTable f).count ∧
        ((s.modFile file fun _ => n).fileTable f).inode = some j) ↔
      (0 < (s.fileTable f).count ∧ (s.fileTable f).inode = some j)) := by
    intro f _ hf
    rw [fileTable_modFile, if_neg hf]
  rw [Multiset.count_singleton]
  unfold State.openFiles
  split_ifs with hj
  · refine card_filter_succ (Finset.mem_range.mpr hlt) ?_ ?_ hother
    · rw [hzero]
      exact fun h => absurd h.1 (Nat.lt_irrefl 0)
    · rw [fileTable_modFile, if_pos rfl, hj]
      exact ⟨hpos, hn⟩
  · rw [Nat.add_zero]
    congr 1
    apply Finset.filter_congr
    intro f hm
    by_cases hf : f = file
    · rw [fileTable_modFile, if_pos hf, hn, hf, hzero]
      exact iff_of_false (fun h => hj (Option.some.inj h.2).symm) fun h => absurd h.1 (Nat.lt_irrefl 0)
    · exact hother f hm hf

/-- `file->count--`. -/
def State.dropFile (s : State) (file : ℕ) : State :=
  s.modFile file fun f => { f with count := f.count - 1 }

/-- A file that is closed was open. -/
theorem openFiles_dropFile (hlt : file < FILE_NR) (hpos : 0 < (s.fileTable file).count) :
    s.openFiles j = (s.dropFile file).openFiles j +
      if (s.fileTable file).count = 1 then (one (s.fileTable file).inode).count j else 0 := by
  have hself : (s.dropFile file).fileTable file =
      { s.fileTable file with count := (s.fileTable file).count - 1 } :=
    fileTable_modFile.trans (if_pos rfl)
  have hother : ∀ f ∈ Finset.range FILE_NR, f ≠ file →
      ((0 < (s.fileTable f).count ∧ (s.fileTable f).inode = some j) ↔
      (0 < ((s.dropFile file).fileTable f).count ∧ ((s.dropFile file).fileTable f).inode = some j)) := by
    intro f _ hf
    unfold State.dropFile
    rw [fileTable_modFile, if_neg hf]
  by_cases hlast : (s.fileTable file).count = 1 ∧ (s.fileTable file).inode = some j
  · rw [if_pos hlast.1, hlast.2, show (one (some j)).count j = 1 from Multiset.count_singleton_self j]
    refine card_filter_succ (Finset.mem_range.mpr hlt) ?_ ⟨hpos, hlast.2⟩ hother
    rw [hself, hlast.1]
    exact fun h => absurd h.1 (Nat.lt_irrefl 0)
  · have hnone : (if (s.fileTable file).count = 1 then (one (s.fileTable file).inode).count j else 0) = 0 := by
      split_ifs with hone
      · cases hi : (s.fileTable file).inode with
        | none => exact Multiset.count_zero j
        | some k =>
          refine Multiset.count_eq_zero_of_notMem fun hm => hlast ⟨hone, ?_⟩
          rw [hi, Multiset.mem_singleton.mp hm]
      · rfl
    rw [hnone, Nat.add_zero]
    unfold State.openFiles
    congr 1
    apply Finset.filter_congr
    intro f hm
    by_cases hf : f = file
    · subst hf
      rw [hself]
      dsimp only
      constructor
      · intro h
        have hne : (s.fileTable f).count ≠ 1 := fun hone => hlast ⟨hone, h.2⟩
        exact ⟨by omega, h.2⟩
      · intro h
        exact ⟨hpos, h.2⟩
    · exact hother f hm hf

end Counts

section Directories

/-- Only inodes have changed. -/
theorem Held.fixed (h : Held D P s) (hf : Fixed s t) (ho : Owes s.openFiles s.task R 0 t) :
    Held R P t where
  owes := by
    rw [openFiles_congr hf.fileTable, hf.task]
    exact ho
  count f := by
    rw [hf.fileTable, h.count f]
    exact (fdsOf_congr fun p _ => by rw [hf.tasks]).symm
  fds p hp f hpf := by
    rw [hf.tasks] at hpf
    exact h.fds p hp f hpf

theorem Held.iput (h : Held (one o + D) P s) (hr : iput o s = some (x, t)) :
    Held D P t ∧ Fixed s t := by
  have hf : Fixed s t := (iput_quiet o s _ _ hr).fixed
  exact ⟨h.fixed hf (iput_trades o s h.owes x t hr), hf⟩

/-- Nothing of the files has changed, nor anything of the tasks that do not run. -/
structure Aside (s t : State) : Prop where
  fileTable : t.fileTable = s.fileTable
  running : t.running = s.running
  files : ∀ i, (t.tasks i).files = (s.tasks i).files
  others : ∀ i, i ≠ s.running → t.tasks i = s.tasks i

instance : IsPreorder State Aside where
  refl _ := ⟨rfl, rfl, fun _ => rfl, fun _ _ => rfl⟩
  trans _ _ _ h h' := ⟨h'.fileTable.trans h.fileTable, h'.running.trans h.running,
    fun i => (h'.files i).trans (h.files i),
    fun i hi => (h'.others i (by rwa [h.running])).trans (h.others i hi)⟩

theorem Fixed.aside (h : Fixed s t) : Aside s t :=
  ⟨h.fileTable, h.running, fun i => by rw [h.tasks], fun i _ => by rw [h.tasks]⟩

theorem modTask_aside {f : TaskT → TaskT} (hf : ∀ t, (f t).files = t.files) :
    Leads Aside (poke fun s => s.modTask f) := by
  refine leads_poke fun s => ⟨rfl, rfl, fun i => ?_, fun i hi => update_of_ne hi ..⟩
  change ((update s.tasks s.running (f s.task)) i).files = _
  rw [update_apply]
  split_ifs with hi
  · rw [hf, hi]
    rfl
  · rfl

theorem aside_of_quiet {m : Prog State α} (h : Leads Quiet m) : Leads Aside m :=
  h.mono fun _ _ hq => hq.fixed.aside

theorem sysChdir_aside (pathname : Str) : Leads Aside (sysChdir pathname) := by
  refine .bind (leads_peek _) fun task => .bind (aside_of_quiet (namei_quiet _)) fun o => ?_
  cases o with
  | none => exact leads_pure _
  | some inode =>
    exact .bind (leads_peek _) fun _ => .ite (.bind (aside_of_quiet (iput_quiet _)) fun _ => leads_pure _)
      (.bind (leads_lift _) fun _ => .bind (modTask_aside fun _ => rfl) fun _ =>
        .bind (aside_of_quiet (iput_quiet _)) fun _ => .bind (modTask_aside fun _ => rfl) fun _ =>
        leads_pure _)

theorem Held.chdir {pathname : Str} {r : ℕ} (h : Held (s.task.refs + D) P s)
    (hroom : Room s.openFiles (s.task.refs + D) 2) (hr : sysChdir pathname s = some (r, t)) :
    Held (t.task.refs + D) P t ∧ Aside s t := by
  have ha : Aside s t := sysChdir_aside pathname s _ _ hr
  obtain ⟨l, hl⟩ := (sysChdirNoted_erases pathname).run hr []
  have hp : Along Put.Alive (Settled s.openFiles D 0) (t, l) :=
    sysChdir_pays hroom pathname (s, []) ⟨h.owes, fun _ hp => absurd hp List.not_mem_nil⟩ r (t, l) hl
  refine ⟨⟨?_, fun f => ?_, fun p hp f hpf => ?_⟩, ha⟩
  · rw [openFiles_congr ha.fileTable]
    exact hp.1
  · rw [ha.fileTable, h.count f]
    exact (fdsOf_congr fun p _ => by rw [ha.files]).symm
  · rw [ha.files] at hpf
    exact h.fds p hp f hpf

end Directories

section Files

/-- Of the tasks only the running one has changed. -/
structure Own (s t : State) : Prop where
  running : t.running = s.running
  others : ∀ i, i ≠ s.running → t.tasks i = s.tasks i

theorem Aside.own (h : Aside s t) : Own s t := ⟨h.running, h.others⟩

theorem files_setFd (i k : ℕ) : ((s.modTask fun t => t.setFd fd o).tasks i).files k =
    if (i, k) = (s.running, fd) then o else (s.tasks i).files k := by
  change ((update s.tasks s.running (s.task.setFd fd o)) i).files k = _
  rw [update_apply]
  split_ifs with hi hik hik
  · obtain ⟨-, rfl⟩ := Prod.mk.inj hik
    exact update_self ..
  · have hk : k ≠ fd := fun hk => hik (by rw [hi, hk])
    rw [hi]
    exact update_of_ne hk ..
  · exact absurd (Prod.mk.inj hik).1 hi
  · rfl

/-- A file with a new descriptor. -/
theorem fdsOf_open (hmem : (s.running, fd) ∈ P) (hfree : s.task.files fd = none) :
    (s.modTask fun t => t.setFd fd (some file)).fdsOf P j =
      s.fdsOf P j + if j = file then 1 else 0 := by
  have hother : ∀ p ∈ P, p ≠ (s.running, fd) →
      ((((s.modTask fun t => t.setFd fd (some file)).tasks p.1).files p.2 = some j) ↔
        (s.tasks p.1).files p.2 = some j) := by
    intro p _ hp
    rw [files_setFd, if_neg hp]
  have hold : (s.tasks s.running).files fd ≠ some j := by
    change s.task.files fd ≠ some j
    rw [hfree]
    exact nofun
  unfold State.fdsOf
  split_ifs with hj
  · refine card_filter_succ hmem hold ?_ hother
    rw [files_setFd, if_pos rfl, hj]
  · rw [Nat.add_zero]
    congr 1
    apply Finset.filter_congr
    intro p hp
    by_cases hpr : p = (s.running, fd)
    · rw [files_setFd, if_pos hpr, hpr]
      exact iff_of_false (fun h => hj (Option.some.inj h).symm) hold
    · exact hother p hp hpr

theorem Held.openFile {inode flags : ℕ} (h : Held ({inode} + D) P s)
    (hP : ∀ fd, fd < TASK_FILE_NR → (s.running, fd) ∈ P)
    (hr : openFile inode flags s = some (fd, t)) :
    Held D P t ∧ Own s t ∧ t.task.refs = s.task.refs ∧
      ∀ f, (s.fileTable f).count ≤ (t.fileTable f).count := by
  obtain ⟨file, ⟨hge, hlt, hfree⟩, ⟨-, hfile, hzero⟩, rfl⟩ := openFile_eq hr
  obtain ⟨v, hv⟩ : ∃ v, v = s.modTask fun t => t.setFd fd (some file) := ⟨_, rfl⟩
  obtain ⟨n, hn⟩ : ∃ n : FileT, n = ⟨some inode, 1, s.openOffset inode flags, flags, s.mode inode⟩ :=
    ⟨_, rfl⟩
  have htable : v.fileTable = s.fileTable := by
    rw [hv]
    rfl
  rw [← hv, ← hn]
  have hcount : ∀ f, ((v.modFile file fun _ => n).fileTable f).count =
      if f = file then 1 else (s.fileTable f).count := by
    intro f
    rw [fileTable_modFile, htable]
    split_ifs
    · rw [hn]
    · rfl
  have htask : (v.modFile file fun _ => n).task = s.task.setFd fd (some file) := by
    rw [hv]
    exact update_self ..
  refine ⟨⟨?_, fun f => ?_, fun p hp f hpf => ?_⟩, ?_, ?_, fun f => ?_⟩
  · have howes : Owes s.openFiles (s.task.setFd fd (some file)) ({inode} + D) 0 v := by
      rw [hv]
      exact h.owes.modTask fun t => t.setFd fd (some file)
    rw [htask]
    refine (howes.modFile file fun _ => n).share fun i => ?_
    have hopen := openFiles_open (s := v) (j := i) (n := n) hfile (by rw [htable, hzero])
      (by rw [hn]; exact Nat.one_pos) (by rw [hn])
    rw [hopen, openFiles_congr htable, Multiset.count_add]
    omega
  · have hfds : (v.modFile file fun _ => n).fdsOf P f = s.fdsOf P f + if f = file then 1 else 0 := by
      rw [← fdsOf_open (hP fd hlt) hfree, hv]
      rfl
    rw [hcount, hfds, ← h.count f]
    split_ifs with hf
    · rw [hf, hzero]
    · rfl
  · change (v.tasks p.1).files p.2 = some f at hpf
    rw [hv, files_setFd] at hpf
    split_ifs at hpf with hpr
    · obtain ⟨-, hp2⟩ := Prod.mk.inj hpr
      exact ⟨by omega, Option.some.inj hpf ▸ hfile⟩
    · exact h.fds p hp f hpf
  · rw [hv]
    exact ⟨rfl, fun _ hi => update_of_ne hi ..⟩
  · rw [htask]
    rfl
  · rw [hcount]
    split_ifs with hf
    · rw [hf, hzero]
      exact Nat.zero_le 1
    · exact Nat.le_refl _

theorem Held.sysOpen {filename : Str} {flags mode r : ℕ} (h : Held (s.task.refs + D) P s)
    (hroom : Room s.openFiles (s.task.refs + D) 2)
    (hP : ∀ fd, fd < TASK_FILE_NR → (s.running, fd) ∈ P)
    (hr : sysOpen filename flags mode s = some (r, t)) :
    Held (t.task.refs + D) P t ∧ Own s t ∧ ∀ f, (s.fileTable f).count ≤ (t.fileTable f).count := by
  unfold Fs.sysOpen at hr
  obtain ⟨o, u, ho, hr⟩ := bind_eq_some.mp hr
  have hf : Fixed s u := inodeOpen_fixed filename flags mode s _ _ ho
  obtain ⟨l, hl⟩ := (inodeOpenNoted_erases filename flags mode).run ho []
  have hp : Along Put.Alive (Owes s.openFiles s.task (one o + (s.task.refs + D)) 0) (u, l) :=
    inodeOpen_pays hroom (Multiset.le_add_right _ _) filename flags mode (s, [])
      ⟨h.owes, fun _ hp => absurd hp List.not_mem_nil⟩ o (u, l) hl
  have hu : Held (one o + (s.task.refs + D)) P u := h.fixed hf hp.1
  cases o with
  | none =>
    obtain ⟨-, rfl⟩ := Prod.mk.inj (Option.some.inj hr)
    rw [one_none_add] at hu
    rw [hf.task]
    exact ⟨hu, hf.aside.own, fun f => by rw [hf.fileTable]⟩
  | some inode =>
    have hmem : ∀ fd, fd < TASK_FILE_NR → (u.running, fd) ∈ P := fun fd hfd => by
      rw [hf.running]
      exact hP fd hfd
    obtain ⟨ht, hown, hrefs, hle⟩ := Held.openFile hu hmem hr
    rw [hrefs, hf.task]
    refine ⟨ht, ⟨hown.running.trans hf.running, fun i hi => ?_⟩, fun f => ?_⟩
    · rw [hown.others i (by rwa [hf.running]), hf.tasks]
    · rw [← hf.fileTable]
      exact hle f

theorem putFile_cases (h : putFile file s = some (x, t)) : 0 < (s.fileTable file).count ∧
    (((s.fileTable file).count ≠ 1 ∧ t = s.dropFile file) ∨
    ((s.fileTable file).count = 1 ∧ iput (s.fileTable file).inode (s.dropFile file) = some (x, t))) := by
  unfold putFile at h
  rw [peek_bind] at h
  obtain ⟨⟨⟩, u, ha, k⟩ := bind_eq_some.mp h
  obtain ⟨hpos, rfl⟩ := assert_eq_some.mp ha
  rw [poke_bind, peek_bind] at k
  have hself : (u.dropFile file).fileTable file =
      { u.fileTable file with count := (u.fileTable file).count - 1 } :=
    fileTable_modFile.trans (if_pos rfl)
  have hpos : 0 < (u.fileTable file).count := of_decide_eq_true hpos
  refine ⟨hpos, ?_⟩
  change when (((u.dropFile file).fileTable file).count = 0) _ (u.dropFile file) = _ at k
  by_cases hone : (u.fileTable file).count = 1
  · have hzero : ((u.dropFile file).fileTable file).count = 0 := by
      rw [hself, hone]
    rw [decide_eq_true hzero, when_true, peek_bind, hself] at k
    exact .inr ⟨hone, k⟩
  · have hne : ((u.dropFile file).fileTable file).count ≠ 0 := by
      rw [hself]
      dsimp only
      omega
    rw [decide_eq_false hne, when_false] at k
    exact .inl ⟨hone, (Prod.mk.inj (Option.some.inj k)).2.symm⟩

theorem fdsOf_erase {p : ℕ × ℕ} (hp : p ∈ P) (hfile : (s.tasks p.1).files p.2 = some file) :
    s.fdsOf P j = s.fdsOf (P.erase p) j + if j = file then 1 else 0 := by
  unfold State.fdsOf
  rw [Finset.filter_erase]
  split_ifs with hj
  · rw [Finset.card_erase_add_one (Finset.mem_filter.mpr ⟨hp, by rw [hfile, hj]⟩)]
  · rw [Finset.erase_eq_of_notMem fun hm => ?_, Nat.add_zero]
    have hother := (Finset.mem_filter.mp hm).2
    rw [hfile] at hother
    exact hj (Option.some.inj hother).symm

/-- One descriptor of a file is gone, and its inode with the last one. -/
theorem Held.putFile {p : ℕ × ℕ} (h : Held D P s) (hp : p ∈ P)
    (hfile : (s.tasks p.1).files p.2 = some file) (hr : putFile file s = some (x, t)) :
    Held D (P.erase p) t ∧ t.tasks = s.tasks ∧ t.running = s.running := by
  obtain ⟨hpos, hcases⟩ := putFile_cases hr
  have hlt : file < FILE_NR := (h.fds p hp file hfile).2
  have hcount : ∀ f, ((s.dropFile file).fileTable f).count = s.fdsOf (P.erase p) f := by
    intro f
    have hf := h.count f
    rw [fdsOf_erase hp hfile] at hf
    unfold State.dropFile
    rw [fileTable_modFile]
    split_ifs at hf ⊢ with hff
    · subst hff
      dsimp only
      omega
    · exact hf
  have hfds : ∀ q ∈ P.erase p, ∀ f, (s.tasks q.1).files q.2 = some f → 3 ≤ q.2 ∧ f < FILE_NR :=
    fun q hq => h.fds q (Finset.mem_of_mem_erase hq)
  have howes := h.owes.modFile file fun f => { f with count := f.count - 1 }
  rcases hcases with ⟨hmore, rfl⟩ | ⟨hone, hput⟩
  · refine ⟨⟨howes.share fun i => ?_, hcount, hfds⟩, rfl, rfl⟩
    have hi := openFiles_dropFile (j := i) hlt hpos
    rw [if_neg hmore] at hi
    omega
  · have hdrop : Held (one (s.fileTable file).inode + D) (P.erase p) (s.dropFile file) := by
      refine ⟨howes.share fun i => ?_, hcount, hfds⟩
      have hi := openFiles_dropFile (j := i) hlt hpos
      rw [if_pos hone] at hi
      rw [Multiset.count_add]
      omega
    obtain ⟨ht, hf⟩ := Held.iput hdrop hput
    exact ⟨ht, hf.tasks, hf.running⟩

theorem sysClose_cases (h : sysClose fd s = some (x, t)) : fd < TASK_FILE_NR ∧
    ((s.task.files fd = none ∧ t = s) ∨ ∃ file u, s.task.files fd = some file ∧
      putFile file s = some ((), u) ∧ taskPutFd fd u = some (x, t)) := by
  unfold sysClose at h
  obtain ⟨⟨⟩, u, ha, k⟩ := bind_eq_some.mp h
  obtain ⟨hlt, rfl⟩ := assert_eq_some.mp ha
  refine ⟨of_decide_eq_true hlt, ?_⟩
  rw [peek_bind] at k
  cases hfile : u.task.files fd with
  | none =>
    rw [hfile] at k
    exact .inl ⟨rfl, (Prod.mk.inj (Option.some.inj k)).2.symm⟩
  | some file =>
    rw [hfile] at k
    dsimp only at k
    rw [peek_bind] at k
    obtain ⟨⟨⟩, v, hv, k₁⟩ := bind_eq_some.mp k
    obtain ⟨-, rfl⟩ := assert_eq_some.mp hv
    obtain ⟨⟨⟩, w, hw, k₂⟩ := bind_eq_some.mp k₁
    exact .inr ⟨file, w, rfl, hw, k₂⟩

theorem taskPutFd_eq (h : taskPutFd fd s = some (x, t)) (hge : 3 ≤ fd) :
    t = s.modTask fun t => t.setFd fd none := by
  unfold taskPutFd at h
  rw [if_neg (by omega)] at h
  obtain ⟨⟨⟩, u, ha, k⟩ := bind_eq_some.mp h
  obtain ⟨-, rfl⟩ := assert_eq_some.mp ha
  exact (Prod.mk.inj (Option.some.inj k)).2.symm

theorem Held.sysClose (h : Held D P s) (hP : (s.running, fd) ∈ P)
    (hr : sysClose fd s = some (x, t)) : Held D P t ∧ Own s t ∧ t.task.refs = s.task.refs ∧
      t.task.files = update s.task.files fd none := by
  obtain ⟨-, ⟨hnone, rfl⟩ | ⟨file, u, hfile, hput, hfd⟩⟩ := sysClose_cases hr
  · refine ⟨h, ⟨rfl, fun _ _ => rfl⟩, rfl, ?_⟩
    rw [← hnone, update_eq_self]
  · obtain ⟨hu, htasks, hrun⟩ := h.putFile hP hfile hput
    obtain rfl := taskPutFd_eq hfd (h.fds _ hP file hfile).1
    have hself : u.task = s.task := by
      unfold State.task
      rw [htasks, hrun]
    have htask : (u.modTask fun t => t.setFd fd none).task = s.task.setFd fd none := by
      rw [← hself]
      exact update_self ..
    have hfiles : ∀ p, ((u.modTask fun t => t.setFd fd none).tasks p.1).files p.2 =
        if p = (s.running, fd) then none else (s.tasks p.1).files p.2 := by
      intro p
      rw [files_setFd, hrun, htasks]
    refine ⟨⟨?_, fun f => ?_, fun p hp f hpf => ?_⟩, ⟨hrun, fun i hi => ?_⟩, ?_, ?_⟩
    · have howes := hu.owes.modTask fun t => t.setFd fd none
      rw [hself, ← htask] at howes
      exact howes
    · have hcount := hu.count f
      have hfds : (u.modTask fun t => t.setFd fd none).fdsOf P f =
          u.fdsOf (P.erase (s.running, fd)) f := by
        unfold State.fdsOf
        rw [Finset.filter_erase, htasks]
        congr 1
        ext p
        rw [Finset.mem_filter, Finset.mem_erase, Finset.mem_filter, hfiles]
        split_ifs with hp
        · exact iff_of_false (fun hm => nomatch hm.2) fun hm => hm.1 hp
        · exact (and_iff_right hp).symm
      rw [hfds]
      exact hcount
    · rw [hfiles] at hpf
      split_ifs at hpf
      exact h.fds p hp f hpf
    · exact (update_of_ne (by rwa [hrun]) ..).trans (congrFun htasks i)
    · rw [htask]
      rfl
    · rw [htask]
      rfl

end Files

section Exit

theorem Own.trans (h : Own s t) (h' : Own t u) : Own s u :=
  ⟨h'.running.trans h.running, fun i hi => (h'.others i (by rwa [h.running])).trans (h.others i hi)⟩

theorem Held.closeLoop {n : ℕ} (h : Held D P s) (hP : ∀ fd, fd < TASK_FILE_NR → (s.running, fd) ∈ P)
    (hn : i + n ≤ TASK_FILE_NR) (hr : loop Fs.sysClose n i s = some (x, t)) : Held D P t ∧ Own s t ∧
      ∀ fd, t.task.files fd = if i ≤ fd ∧ fd < i + n then none else s.task.files fd := by
  induction n generalizing i s with
  | zero =>
    obtain ⟨-, rfl⟩ := Prod.mk.inj (Option.some.inj hr)
    exact ⟨h, ⟨rfl, fun _ _ => rfl⟩, fun fd => (if_neg (by omega)).symm⟩
  | succ n ih =>
    obtain ⟨⟨⟩, u, hu, hr⟩ := bind_eq_some.mp hr
    obtain ⟨hheld, hown, -, hfiles⟩ := h.sysClose (hP i (by omega)) hu
    obtain ⟨ht, hown', hrest⟩ := ih hheld (by rwa [hown.running]) (by omega) hr
    refine ⟨ht, hown.trans hown', fun fd => ?_⟩
    rw [hrest, hfiles, update_apply]
    split_ifs <;> first | rfl | omega

theorem Held.exitRefs (h : Held (s.task.refs + D) P s)
    (hP : ∀ fd, fd < TASK_FILE_NR → (s.running, fd) ∈ P) (hr : exitRefs s = some (x, t)) :
    Held D P t ∧ Own s t ∧ ∀ fd, fd < TASK_FILE_NR → t.task.files fd = none := by
  unfold Fs.exitRefs at hr
  rw [peek_bind] at hr
  obtain ⟨⟨⟩, u, hu, k⟩ := bind_eq_some.mp hr
  have hpwd : Held (one (some s.task.ipwd) + ({s.task.iroot} + D)) P s := by
    rw [show s.task.refs + D = one (some s.task.ipwd) + ({s.task.iroot} + D) from add_assoc _ _ _] at h
    exact h
  obtain ⟨hheld, hf⟩ := hpwd.iput hu
  rw [peek_bind, hf.task] at k
  obtain ⟨⟨⟩, v, hv, k₁⟩ := bind_eq_some.mp k
  obtain ⟨hheld', hf'⟩ := Held.iput (o := some s.task.iroot) hheld hv
  have hrun : v.running = s.running := hf'.running.trans hf.running
  obtain ⟨ht, hown, hfiles⟩ := hheld'.closeLoop (by rwa [hrun]) (Nat.le_of_eq (Nat.zero_add _)) k₁
  refine ⟨ht, (hf.aside.own.trans hf'.aside.own).trans hown, fun fd hfd => ?_⟩
  rw [hfiles, if_pos ⟨Nat.zero_le fd, by omega⟩]

end Exit

section Fork

theorem fdsOf_le : s.fdsOf P file ≤ P.card := Finset.card_filter_le _ _

/-- A file that is open gets one more descriptor. -/
theorem Held.share {p : ℕ × ℕ} (h : Held D P s) (hp : p ∉ P) (hi : (s.running, i) ∈ P)
    (hsame : (s.tasks p.1).files p.2 = s.task.files i) (hidx : p.2 = i) (hcard : P.card + 1 < 2 ^ 32)
    (hr : shareFiles.shareFile i s = some (x, t)) :
    Held D (insert p P) t ∧ t.tasks = s.tasks ∧ t.running = s.running ∧
      ∀ f, (s.fileTable f).count ≤ (t.fileTable f).count := by
  unfold shareFiles.shareFile at hr
  rw [peek_bind] at hr
  cases hfile : s.task.files i with
  | none =>
    rw [hfile] at hr hsame
    obtain ⟨-, rfl⟩ := Prod.mk.inj (Option.some.inj hr)
    refine ⟨⟨h.owes, fun f => ?_, fun q hq f hqf => ?_⟩, rfl, rfl, fun f => Nat.le_refl _⟩
    · rw [h.count f]
      unfold State.fdsOf
      rw [Finset.filter_insert, if_neg (by rw [hsame]; exact nofun)]
    · rcases Finset.mem_insert.mp hq with rfl | hq
      · rw [hsame] at hqf
        exact nomatch hqf
      · exact h.fds q hq f hqf
  | some file =>
    rw [hfile] at hr hsame
    obtain ⟨-, rfl⟩ := Prod.mk.inj (Option.some.inj hr)
    have hfds := h.fds _ hi file hfile
    have hpos : 0 < s.fdsOf P file := Finset.card_pos.mpr ⟨_, Finset.mem_filter.mpr ⟨hi, hfile⟩⟩
    have hle : s.fdsOf P file ≤ P.card := fdsOf_le
    have hself := h.count file
    have hcount : ∀ f, ((s.modFile file fun f => { f with count := (f.count + 1) % 2 ^ 32 }).fileTable f).count =
        (s.fileTable f).count + if f = file then 1 else 0 := by
      intro f
      rw [fileTable_modFile]
      split_ifs with hf
      · subst hf
        dsimp only
        omega
      · rfl
    have hopen : (s.modFile file fun f => { f with count := (f.count + 1) % 2 ^ 32 }).openFiles =
        s.openFiles := by
      funext j
      unfold State.openFiles
      congr 1
      apply Finset.filter_congr
      intro f _
      rw [hcount, fileTable_modFile]
      split_ifs with hf
      · subst hf
        exact and_congr_left fun _ => iff_of_true (by omega) (by omega)
      · rfl
    refine ⟨⟨?_, fun f => ?_, fun q hq f hqf => ?_⟩, rfl, rfl, fun f => ?_⟩
    · rw [hopen]
      exact h.owes.modFile file _
    · have hins := fdsOf_erase (j := f) (Finset.mem_insert_self p P) hsame
      rw [Finset.erase_insert hp] at hins
      rw [hcount, h.count f]
      exact hins.symm
    · rcases Finset.mem_insert.mp hq with rfl | hq
      · rw [hidx]
        exact ⟨hfds.1, Option.some.inj (hsame.symm.trans hqf) ▸ hfds.2⟩
      · exact h.fds q hq f hqf
    · rw [hcount]
      exact Nat.le_add_right _ _

/-- The descriptors of the child up to `i` have been counted. -/
theorem Held.shareLoop {n child : ℕ} (h : Held D (P ∪ {child} ×ˢ Finset.range i) s)
    (hchild : ∀ p ∈ P, p.1 ≠ child) (hP : ∀ fd, fd < TASK_FILE_NR → (s.running, fd) ∈ P)
    (hsame : (s.tasks child).files = s.task.files) (hcard : P.card + TASK_FILE_NR < 2 ^ 32)
    (hn : i + n ≤ TASK_FILE_NR) (hr : loop shareFiles.shareFile n i s = some (x, t)) :
    Held D (P ∪ {child} ×ˢ Finset.range (i + n)) t ∧ t.tasks = s.tasks ∧ t.running = s.running ∧
      ∀ f, (s.fileTable f).count ≤ (t.fileTable f).count := by
  induction n generalizing i s with
  | zero =>
    obtain ⟨-, rfl⟩ := Prod.mk.inj (Option.some.inj hr)
    exact ⟨h, rfl, rfl, fun f => Nat.le_refl _⟩
  | succ n ih =>
    obtain ⟨⟨⟩, u, hu, hr⟩ := bind_eq_some.mp hr
    have hnew : (child, i) ∉ P ∪ {child} ×ˢ Finset.range i := by
      simp only [Finset.mem_union, Finset.mem_product, Finset.mem_singleton, Finset.mem_range, not_or]
      exact ⟨fun hm => hchild _ hm rfl, fun hm => Nat.lt_irrefl i hm.2⟩
    have hins : insert (child, i) (P ∪ {child} ×ˢ Finset.range i) =
        P ∪ {child} ×ˢ Finset.range (i + 1) := by
      ext p
      simp only [Finset.mem_insert, Finset.mem_union, Finset.mem_product, Finset.mem_singleton,
        Finset.mem_range, Prod.ext_iff, Nat.lt_succ_iff_lt_or_eq]
      tauto
    have hlt : (P ∪ {child} ×ˢ Finset.range i).card + 1 < 2 ^ 32 := by
      have hunion := Finset.card_union_le P ({child} ×ˢ Finset.range i)
      rw [Finset.card_product, Finset.card_singleton, Finset.card_range] at hunion
      omega
    obtain ⟨hheld, htasks, hrun, hle⟩ := h.share hnew (Finset.mem_union_left _ (hP i (by omega)))
      (congrFun hsame i) rfl hlt hu
    rw [hins] at hheld
    obtain ⟨ht, htasks', hrun', hle'⟩ := ih hheld (by rwa [hrun]) (by
      unfold State.task
      rw [htasks, hrun]
      exact hsame) (by omega) hr
    rw [Nat.add_right_comm] at ht
    exact ⟨ht, htasks'.trans htasks, hrun'.trans hrun, fun f => (hle f).trans (hle' f)⟩

theorem Held.refInode (h : Held D P s) (hroom : Room s.openFiles D 1) (hmem : i ∈ D)
    (hr : refInode i s = some (x, t)) : Held ({i} + D) P t ∧ Fixed s t := by
  obtain ⟨-, rfl⟩ := Prod.mk.inj (Option.some.inj hr)
  have hf : Fixed s (s.modInode i fun n => { n with count := (n.count + 1) % 2 ^ 32 }) :=
    ⟨rfl, rfl, rfl, rfl, rfl, rfl, rfl, rfl⟩
  exact ⟨h.fixed hf (h.owes.take hroom (h.owes.mem hmem) fun _ => ⟨rfl, rfl⟩), hf⟩

theorem Held.forkRefs {child : ℕ} (h : Held (s.task.refs + D) P s)
    (hroom : Room s.openFiles (s.task.refs + D) 2) (hrun : child ≠ s.running)
    (hchild : ∀ p ∈ P, p.1 ≠ child) (hP : ∀ fd, fd < TASK_FILE_NR → (s.running, fd) ∈ P)
    (hcard : P.card + TASK_FILE_NR < 2 ^ 32) (hr : forkRefs child s = some (x, t)) :
    Held (s.task.refs + (s.task.refs + D)) (P ∪ {child} ×ˢ Finset.range TASK_FILE_NR) t ∧
      t.tasks = update s.tasks child s.task ∧ t.running = s.running ∧
      ∀ f, (s.fileTable f).count ≤ (t.fileTable f).count := by
  unfold Fs.forkRefs at hr
  rw [poke_bind, peek_bind] at hr
  obtain ⟨v, hv⟩ : ∃ v : State, v = { s with tasks := update s.tasks child s.task } := ⟨_, rfl⟩
  rw [← hv] at hr
  have htask : v.task = s.task := by
    rw [hv]
    exact update_of_ne hrun.symm ..
  have htable : v.fileTable = s.fileTable := by rw [hv]
  have htasks : v.tasks = update s.tasks child s.task := by rw [hv]
  have hrunning : v.running = s.running := by rw [hv]
  have hheld : Held (s.task.refs + D) P v := by
    have hfiles : ∀ p ∈ P, (v.tasks p.1).files p.2 = (s.tasks p.1).files p.2 := fun p hp => by
      rw [htasks, update_of_ne (hchild p hp)]
    have howes : Owes s.openFiles s.task (s.task.refs + D) 0 v := by
      refine ⟨htask, ?_, ?_, ?_, ?_⟩
      all_goals rw [hv]
      exacts [h.owes.count, h.owes.holds, h.owes.listed, h.owes.nodup]
    refine ⟨?_, fun f => ?_, fun p hp f hpf => ?_⟩
    · rw [openFiles_congr htable, htask]
      exact howes
    · rw [htable, h.count f]
      exact (fdsOf_congr hfiles).symm
    · rw [hfiles p hp] at hpf
      exact h.fds p hp f hpf
  have hopen : v.openFiles = s.openFiles := openFiles_congr htable
  rw [htask] at hr
  obtain ⟨⟨⟩, w, hw, k⟩ := bind_eq_some.mp hr
  obtain ⟨hheld, hf⟩ := hheld.refInode (by rw [hopen]; exact hroom.mono (Nat.le_succ 1))
    (Multiset.mem_add.mpr (.inl ipwd_mem)) hw
  rw [peek_bind, hf.task, htask] at k
  obtain ⟨⟨⟩, y, hy, k₁⟩ := bind_eq_some.mp k
  obtain ⟨hheld, hf'⟩ := hheld.refInode (by
      rw [openFiles_congr hf.fileTable, hopen]
      exact hroom.add _)
    (Multiset.mem_add.mpr (.inr (Multiset.mem_add.mpr (.inl iroot_mem)))) hy
  have hchildren : y.tasks = update s.tasks child s.task :=
    hf'.tasks.trans (hf.tasks.trans htasks)
  have hrun' : y.running = s.running := hf'.running.trans (hf.running.trans hrunning)
  have htask' : y.task = s.task := hf'.task.trans (hf.task.trans htask)
  have hrefs : {s.task.iroot} + ({s.task.ipwd} + (s.task.refs + D)) =
      s.task.refs + (s.task.refs + D) := by
    unfold TaskT.refs
    abel
  rw [hrefs] at hheld
  have hnone : P ∪ {child} ×ˢ Finset.range 0 = P := by
    rw [Finset.range_zero, Finset.product_empty, Finset.union_empty]
  rw [← hnone] at hheld
  obtain ⟨ht, htasks', hrun'', hle⟩ := hheld.shareLoop hchild (by rwa [hrun']) (by
    rw [hchildren, htask', update_self]) hcard (Nat.le_of_eq (Nat.zero_add _)) k₁
  rw [Nat.zero_add] at ht
  refine ⟨ht, htasks'.trans hchildren, hrun''.trans hrun', fun f => ?_⟩
  rw [← htable, ← hf.fileTable, ← hf'.fileTable]
  exact hle f

end Fork

section Released

/-- No `count` of a file has grown, and those noted are the files that are open no more. -/
def Releases (x y : State × List ℕ) : Prop := ∀ f, (y.1.fileTable f).count ≤ (x.1.fileTable f).count ∧
  y.2.count f = x.2.count f +
    if 0 < (x.1.fileTable f).count ∧ (y.1.fileTable f).count = 0 then 1 else 0

instance : IsPreorder (State × List ℕ) Releases where
  refl x f := by
    refine ⟨Nat.le_refl _, ?_⟩
    rw [if_neg (by omega), Nat.add_zero]
  trans x y z h h' f := by
    obtain ⟨hle, hcount⟩ := h f
    obtain ⟨hle', hcount'⟩ := h' f
    refine ⟨hle'.trans hle, ?_⟩
    rw [hcount', hcount]
    split_ifs <;> omega

theorem releases_still {m : Prog State α} (h : Keeps State.fileTable m) : Leads Releases (still m) := by
  intro x a y hy
  obtain ⟨hm, hl⟩ := still_eq_some.mp hy
  have ht := h _ _ _ hm
  intro f
  rw [hl, ht]
  exact refl_of Releases x f

theorem keeps_iput (o : Option ℕ) : Keeps State.fileTable (iput o) := fun s a t h =>
  (iput_quiet o s a t h).fixed.fileTable

theorem dropFile_count (f : ℕ) : ((s.dropFile file).fileTable f).count =
    (s.fileTable f).count - if f = file then 1 else 0 := by
  unfold State.dropFile
  rw [fileTable_modFile]
  split_ifs with hf
  · rw [hf]
  · rfl

theorem putFileNoted_releases (file : ℕ) : Leads Releases (putFileNoted file) := by
  rintro ⟨s, l⟩ a ⟨t, l'⟩ h
  unfold putFileNoted at h
  rw [still_peek_bind] at h
  obtain ⟨⟨⟩, ⟨u, l₁⟩, ha, k⟩ := bind_eq_some.mp h
  obtain ⟨hassert, rfl⟩ := still_eq_some.mp ha
  obtain ⟨hpos, rfl⟩ := assert_eq_some.mp hassert
  have hpos : 0 < (u.fileTable file).count := of_decide_eq_true hpos
  obtain ⟨⟨⟩, ⟨v, l₂⟩, hv, k₁⟩ := bind_eq_some.mp k
  obtain ⟨hpoke, rfl⟩ := still_eq_some.mp hv
  obtain ⟨-, rfl⟩ := Prod.mk.inj (Option.some.inj hpoke)
  rw [still_peek_bind] at k₁
  have hcount : ∀ f, (t.fileTable f).count = (u.fileTable f).count - (if f = file then 1 else 0) →
      l'.count f = l₂.count f + (if f = file ∧ (u.fileTable file).count = 1 then 1 else 0) →
      (t.fileTable f).count ≤ (u.fileTable f).count ∧ l'.count f = l₂.count f +
        if 0 < (u.fileTable f).count ∧ (t.fileTable f).count = 0 then 1 else 0 := by
    intro f hf hl
    refine ⟨by omega, hl.trans ?_⟩
    by_cases hff : f = file
    · subst hff
      rw [if_pos rfl] at hf
      congr 1
      split_ifs <;> omega
    · rw [if_neg hff, Nat.sub_zero] at hf
      rw [if_neg fun h => hff h.1, if_neg (by omega)]
  intro f
  change when (((u.dropFile file).fileTable file).count = 0) _ (u.dropFile file, l₂) = _ at k₁
  by_cases hone : (u.fileTable file).count = 1
  · have hzero : ((u.dropFile file).fileTable file).count = 0 := by
      rw [dropFile_count, if_pos rfl, hone]
    rw [decide_eq_true hzero, when_true] at k₁
    obtain ⟨hput, rfl⟩ := note_eq_some.mp k₁
    rw [peek_bind] at hput
    refine hcount f ?_ ?_
    · rw [keeps_iput _ _ _ _ hput, dropFile_count]
    · rw [List.count_append, List.count_singleton]
      congr 1
      by_cases hff : f = file
      · rw [hff, if_pos (beq_self_eq_true file), if_pos ⟨rfl, hone⟩]
      · rw [if_neg fun h => hff (eq_of_beq h).symm, if_neg fun h => hff h.1]
  · have hne : ((u.dropFile file).fileTable file).count ≠ 0 := by
      rw [dropFile_count, if_pos rfl]
      omega
    rw [decide_eq_false hne, when_false] at k₁
    obtain ⟨-, hlast⟩ := Prod.mk.inj (Option.some.inj k₁)
    obtain ⟨rfl, rfl⟩ := Prod.mk.inj hlast
    refine hcount f (dropFile_count f) ?_
    rw [if_neg fun h => hone h.2, Nat.add_zero]

theorem sysCloseNoted_releases (fd : ℕ) : Leads Releases (sysCloseNoted fd) := by
  refine .bind (releases_still (keeps_assert _)) fun _ => .bind (releases_still (keeps_peek _)) fun o => ?_
  cases o with
  | none => exact leads_pure ()
  | some file =>
    exact .bind (releases_still (keeps_peek _)) fun _ => .bind (releases_still (keeps_assert _)) fun _ =>
      .bind (putFileNoted_releases file) fun _ => releases_still (.ite (keeps_pure _)
        (.bind (keeps_assert _) fun _ => keeps_poke fun _ => rfl))

theorem exitRefsNoted_releases : Leads Releases exitRefsNoted :=
  .bind (releases_still (keeps_peek _)) fun _ => .bind (releases_still (keeps_iput _)) fun _ =>
    .bind (releases_still (keeps_peek _)) fun _ => .bind (releases_still (keeps_iput _)) fun _ =>
    leads_loop sysCloseNoted_releases _ _

end Released

end Onix.Fs
