import Onix.Sanity.ExitInv

/-! `task_exit` over busy disks: where no request of its own has to wait, a task that
has died stays so, its exit is carried out once and for all, and only then its page
is given back. -/

namespace Onix.Exit

open Function Outcome

variable {s s' s₀ : State} {k k' : Task.Kernel} {i j part writes dev buf blk : ℕ} {t : Task.TaskT}
  {status : ℤ} {a : Act} {as : List Act}

/-- The disk that a request for the device goes to. -/
def diskOf (s : State) (dev : ℕ) : ℕ :=
  if (s.devices dev).parent ≠ 0 then (s.devices dev).parent else dev

/-- No request is queued or in service on the disk, nobody has the lock of its
controller, and nobody waits for that. -/
def Quiet (s : State) (disk : ℕ) : Prop :=
  (s.devices disk).requestList = [] ∧ (s.ctrl (s.ctrlOf disk)).value = false ∧
    s.k.lists (.other (s.ctrlOf disk)) = []

/-- `task_exit` writes to a disk only where it is quiet. -/
def Undisturbed (s : State) : Act → Prop
  | .write dev _ _ => Quiet s (diskOf s dev)
  | _ => True

/-- A device that takes requests. -/
structure Installed (s : State) (dev : ℕ) : Prop where
  lt : dev < Device.DEVICE_NR
  type : (s.devices dev).type = .block
  disk_lt : diskOf s dev < Device.DEVICE_NR
  disk_type : (s.devices (diskOf s dev)).type ≠ .null

section Quiet

theorem transfer_died {disk left : ℕ} {req : Device.RequestT ℕ} {caller : Caller}
    (ht : s.k.table i = some t) (hrun : t.state ≠ .running) :
    transfer s i disk req caller left = lockRelease s i disk req caller := by
  induction left with
  | zero => rfl
  | succ left ih =>
    unfold transfer
    rw [ht]
    dsimp only
    rw [if_neg hrun]
    exact ih

variable {disk : ℕ} {req : Device.RequestT ℕ} {caller : Caller}

/-- The only request of a disk has nobody to hand it on to. -/
theorem endRequest_single (i : ℕ) (caller : Caller) (hlist : (s.devices disk).requestList = [req]) :
    ∃ direct, endRequest s i disk req caller =
      .next (returnTo (s.setList disk [] direct) i caller) := by
  have hnext : Chain.next Device.RequestT.nr [req] req.nr = none := by simp [Chain.next]
  have hprev : Chain.prev Device.RequestT.nr [req] req.nr = none := by simp [Chain.prev]
  have hremove : Chain.remove Device.RequestT.nr [req] req.nr = [] := by simp [Chain.remove]
  obtain ⟨direct, hd⟩ : ∃ direct, Device.requestNextreq (s.devices disk) req = (none, direct) := by
    unfold Device.requestNextreq
    rw [hlist, hnext, hprev]
    dsimp only
    rw [ite_self]
    exact ⟨_, rfl⟩
  refine ⟨direct, ?_⟩
  unfold endRequest
  dsimp only
  rw [hd, hlist, hremove]

theorem lockRelease_quiet {w : Option ℕ} (hctrl : s.ctrl (s.ctrlOf disk) = ⟨some i, 1, true, w⟩)
    (hwait : s.k.lists (.other (s.ctrlOf disk)) = []) :
    lockRelease s i disk req caller =
      endRequest (s.setCtrl (s.ctrlOf disk) ⟨none, 0, false, w⟩) i disk req caller := by
  unfold lockRelease
  dsimp only
  rw [hctrl]
  dsimp only
  rw [if_neg (by decide)]
  have hself : (some i == some i) = true := beq_self_eq_true _
  rw [hself]
  have hlast : ((s.setCtrl (s.ctrlOf disk) ⟨none, 0, false, w⟩).k.lists
      (.other (s.ctrlOf disk))).getLast? = none := by
    unfold State.setCtrl
    dsimp only
    rw [hwait]
    rfl
  rw [hlast]
  rfl

/-- A task that is not in the state `TASK_RUNNING` does not wait on a quiet disk. -/
theorem doRequest_quiet (i : ℕ) (caller : Caller) (hlist : (s.devices disk).requestList = [req])
    (hcount : 0 < req.count)
    (hctrl : ∃ w, s.ctrl (s.ctrlOf disk) = ⟨none, 0, false, w⟩)
    (hwait : s.k.lists (.other (s.ctrlOf disk)) = []) (ht : s.k.table i = some t)
    (hrun : t.state ≠ .running) :
    ∃ direct, doRequest s i disk req caller =
      .next (returnTo (s.setList disk [] direct) i caller) := by
  obtain ⟨w, hctrl⟩ := hctrl
  obtain ⟨s₁, hs₁⟩ : ∃ s₁, s.setCtrl (s.ctrlOf disk) ⟨some i, 1, true, w⟩ = s₁ := ⟨_, rfl⟩
  have hctrl₁ : s₁.ctrl (s₁.ctrlOf disk) = ⟨some i, 1, true, w⟩ := by
    rw [← hs₁]
    exact update_self (s.ctrlOf disk) _ s.ctrl
  have hback : s₁.setCtrl (s₁.ctrlOf disk) ⟨none, 0, false, w⟩ = s := by
    rw [← hs₁, ← hctrl]
    unfold State.setCtrl
    dsimp only
    rw [update_idem, update_eq_self]
  have hrelease : lockRelease s₁ i disk req caller = endRequest s i disk req caller := by
    rw [lockRelease_quiet hctrl₁ (by rw [← hs₁]; exact hwait), hback]
  have htransfer : transfer s₁ i disk req caller req.count = endRequest s i disk req caller := by
    rw [transfer_died (by rw [← hs₁]; exact ht) hrun, hrelease]
  have hlock : mutexLock s i disk req caller = endRequest s i disk req caller := by
    unfold mutexLock
    dsimp only
    rw [hctrl]
    dsimp only
    rw [if_neg (by decide), hs₁, htransfer]
    rfl
  obtain ⟨direct, hend⟩ := endRequest_single i caller hlist
  refine ⟨direct, ?_⟩
  unfold doRequest
  dsimp only
  rw [hctrl]
  dsimp only
  rw [if_neg (by simp), hlock, hend, decide_eq_true hcount]
  rfl

theorem deviceRequest_quiet {count : ℕ} (buf idx : ℕ) (flags : ℤ) (type : Device.ReqType)
    (caller : Caller) (hin : Installed s dev) (hq : Quiet s (diskOf s dev)) (hcount : 0 < count)
    (hlock : ∀ c, (s.ctrl c).value = false → (s.ctrl c).holder = none ∧ (s.ctrl c).repeats = 0)
    (ht : s.k.table i = some t) (hrun : t.state ≠ .running) :
    ∃ devices, deviceRequest s i dev buf count idx flags type caller =
      .next (returnTo { s with devices := devices, made := s.made + 1 } i caller) := by
  obtain ⟨hlist, hvalue, hwait⟩ := hq
  obtain ⟨hlt, htype, hdlt, hdtype⟩ := hin
  have hnull : (s.devices dev).type ≠ .null := by
    rw [htype]
    nofun
  have hdisk : (if (s.devices dev).parent ≠ 0 then (s.devices dev).parent else dev) =
    diskOf s dev := rfl
  unfold deviceRequest deviceGet
  dsimp only
  rw [hdisk, decide_eq_true hlt, decide_eq_true hnull, decide_eq_true htype, decide_eq_true hdlt,
    decide_eq_true hdtype, if_pos hlist, hlist]
  generalize diskOf s dev = disk at *
  obtain ⟨req, hreq⟩ : ∃ req : Device.RequestT ℕ, ⟨s.made, disk, type,
    (idx + (s.devices dev).sectorStart) % 2 ^ 32, count, flags, buf, none⟩ = req := ⟨_, rfl⟩
  rw [hreq]
  obtain ⟨s₁, hs₁⟩ : ∃ s₁, State.setList { s with made := s.made + 1 } disk
    (Device.listInsertSort [] req) (s.devices disk).direct = s₁ := ⟨_, rfl⟩
  have hlist₁ : (s₁.devices disk).requestList = [req] := by
    rw [← hs₁]
    unfold State.setList
    dsimp only
    rw [update_self]
    rfl
  obtain ⟨hholder, hrep⟩ := hlock _ hvalue
  have hctrl : ∃ w, s.ctrl (s.ctrlOf disk) = ⟨none, 0, false, w⟩ := by
    refine ⟨(s.ctrl (s.ctrlOf disk)).waiter, ?_⟩
    rw [← hholder, ← hrep, ← hvalue]
  obtain ⟨direct, hdo⟩ := doRequest_quiet i caller hlist₁
    (by rw [← hreq]; exact hcount) (by rw [← hs₁]; exact hctrl) (by rw [← hs₁]; exact hwait)
    (by rw [← hs₁]; exact ht) hrun
  refine ⟨(s₁.setList disk [] direct).devices, ?_⟩
  have hsame : s₁.setList disk [] direct =
      { s with devices := (s₁.setList disk [] direct).devices, made := s.made + 1 } := by
    rw [← hs₁]
    rfl
  rw [hs₁]
  rw [hsame] at hdo
  exact hdo

theorem installed_of_next {count idx : ℕ} {flags : ℤ} {type : Device.ReqType}
    (h : deviceRequest s i dev buf count idx flags type caller = .next s') : Installed s dev := by
  unfold deviceRequest deviceGet at h
  dsimp only at h
  obtain ⟨h1, h⟩ := assert_eq_next.mp h
  obtain ⟨-, h⟩ := assert_eq_next.mp h
  obtain ⟨h2, h⟩ := assert_eq_next.mp h
  obtain ⟨h3, h⟩ := assert_eq_next.mp h
  obtain ⟨h4, -⟩ := assert_eq_next.mp h
  exact ⟨of_decide_eq_true h1, of_decide_eq_true h2, of_decide_eq_true h3, of_decide_eq_true h4⟩

end Quiet

section Dying

/-- The running process, after `TASK_DIED`, in this part of its exit. -/
def marked (s : State) (i : ℕ) (t : Task.TaskT) (status : ℤ) (part writes : ℕ) : State :=
  { s with
    k := s.k.setTask i { t with state := .died, status := status }
    pc := update s.pc i (.exiting part writes)
    did := update s.did i (parts.take part) }

/-- The task in slot `i` is in this part of its exit, and nothing else has happened
since it called `task_exit` but what it has done for it. -/
def Exiting (s : State) (i part writes : ℕ) : Prop :=
  ∃ s₀ t status, Settled s₀ ∧ Runs s₀ i ∧ s₀.k.table i = some t ∧ part ≤ files.length ∧
    writes ≤ 2 ∧ s = marked s₀ i t status part writes

/-- What holds in every state that a run reaches. -/
def Inv (s : State) : Prop := Settled s ∨ ∃ i part writes, Exiting s i part writes

theorem Exiting.facts (h : Exiting s i part writes) : Runs s i ∧ s.pc i = .exiting part writes ∧
    s.did i = parts.take part ∧ part ≤ files.length ∧ writes ≤ 2 ∧
    (∃ t, s.k.table i = some t ∧ t.state = .died) ∧
    ∀ c, (s.ctrl c).value = false → (s.ctrl c).holder = none ∧ (s.ctrl c).repeats = 0 := by
  obtain ⟨s₀, t, status, hs, hr, ht, hpart, hwrites, rfl⟩ := h
  have hself : (marked s₀ i t status part writes).k.table i =
      some { t with state := .died, status := status } := update_self i _ s₀.k.table
  exact ⟨⟨hr.cpu, hr.ne, _, hself⟩, update_self i _ s₀.pc, update_self i _ s₀.did, hpart, hwrites,
    ⟨_, hself, rfl⟩, hs.lock⟩

/-- Other tasks are as they are where nobody exits. -/
theorem Exiting.others (h : Exiting s i part writes) (hj : j ≠ i) : ¬ (s.pc j).InExit ∧
    ∀ t, s.k.table j = some t → t.state = .died → s.pc j = .exited ∧ s.did j = parts := by
  obtain ⟨s₀, t, status, hs, hr, ht, hpart, hwrites, rfl⟩ := h
  have hpc : (marked s₀ i t status part writes).pc j = s₀.pc j := update_of_ne hj _ _
  have hdid : (marked s₀ i t status part writes).did j = s₀.did j := update_of_ne hj _ _
  have htable : (marked s₀ i t status part writes).k.table j = s₀.k.table j := update_of_ne hj _ _
  rw [hpc, hdid, htable]
  exact ⟨hs.pc j, hs.died j⟩

theorem Exiting.write (h : Exiting s i part writes) (hw : writes < 2)
    (hq : Quiet s (diskOf s dev)) {idx : ℕ}
    (hs : deviceRequest s i dev buf BLOCK_SECS idx 0 .write (.exit part writes) = .next s') :
    Exiting s' i part (writes + 1) ∧ s'.k = s.k := by
  obtain ⟨-, -, -, -, -, ⟨t', ht', hd⟩, hlock⟩ := h.facts
  have htwo : 0 < BLOCK_SECS := by decide
  obtain ⟨devices, hnext⟩ := deviceRequest_quiet buf idx 0 .write (.exit part writes)
    (installed_of_next hs) hq htwo hlock ht' (by rw [hd]; nofun)
  rw [hnext] at hs
  obtain rfl := next.inj hs
  obtain ⟨s₀, t, status, hset, hr, ht, hpart, -, rfl⟩ := h
  refine ⟨⟨{ s₀ with devices := devices, made := s₀.made + 1 }, t, status,
    ⟨hset.kernel, hset.node, hset.pc, hset.died, hset.lock⟩, ⟨hr.cpu, hr.ne, hr.task⟩, ht, hpart,
    by omega, ?_⟩, rfl⟩
  unfold returnTo State.goto marked
  dsimp only
  rw [update_idem]

theorem Exiting.next (h : Exiting s i part writes) (hpart : part < files.length) :
    Exiting ((s.finish i ((parts.drop part).take 1)).goto i (.exiting (part + 1) 0)) i (part + 1)
      0 := by
  obtain ⟨s₀, t, status, hset, hr, ht, -, -, rfl⟩ := h
  refine ⟨s₀, t, status, hset, hr, ht, hpart, by omega, ?_⟩
  unfold State.goto State.finish marked
  dsimp only
  rw [update_self, update_idem, update_idem, List.take_add]

/-- Without disks in between, the two ends of `task_exit` are one. -/
theorem leaveExit_eq (hi : Task.KInv k) (h0 : i ≠ 0) (ht : k.table i = some t)
    (hrun : t.state = .running) (hnode : t.node = false) :
    leaveExit (k.setTask i { t with state := .died, status := status }) i
      { t with state := .died, status := status } = Task.taskExit k i t status := by
  have hne := (hi.rooted i t ht).ppid_ne h0 ht
  have htable := Task.table_buried status hi.tree ht
  have hrunning : (!t.node && t.state == .running) = true := by
    rw [hnode, hrun]
    rfl
  unfold leaveExit Task.taskExit
  rw [hrunning]
  dsimp only
  generalize Task.reparent (k.setTask i { t with state := .died, status := status }) t.pid t.ppid =
    k₁ at *
  have hself : ∃ v, k₁.table i = some v ∧ v.state = .died := by
    rw [htable, ht]
    refine ⟨_, rfl, ?_⟩
    unfold Task.buried
    dsimp only
    rw [if_pos rfl]
    split_ifs <;> rfl
  obtain ⟨v, hv, hd⟩ := hself
  have hsch : ∀ k : Task.Kernel, k.table i = some v → schedule k i = { k with cpu := none } := by
    intro k hk
    unfold schedule
    rw [hk]
    dsimp only
    rw [if_neg (by rw [hd]; nofun)]
  cases hp : k₁.table t.ppid with
  | none => rfl
  | some p =>
    dsimp only
    split_ifs with hw
    · unfold Task.taskUnblock
      cases hn : p.node with
      | false => rfl
      | true =>
        refine congrArg Outcome.next (hsch _ ?_)
        unfold Task.Kernel.setTask
        dsimp only
        rw [update_of_ne hne.symm]
        exact hv
    · exact congrArg Outcome.next (hsch _ hv)

/-- The end of the exit is the exit of the task table without disks. -/
theorem Exiting.taskExit (h : Exiting s i part writes) (ht : s.k.table i = some t) :
    ∃ s₀ t₀ status, Settled s₀ ∧ Runs s₀ i ∧ s₀.k.table i = some t₀ ∧ t₀.state = .running ∧
      t₀.node = false ∧ s = marked s₀ i t₀ status part writes ∧
      leaveExit s.k i t = Task.taskExit s₀.k i t₀ status := by
  obtain ⟨s₀, t₀, status, hset, hr, ht₀, -, -, rfl⟩ := h
  have hrun := hset.running hr ht₀
  have hnode : t₀.node = false := by
    have := hset.node i t₀ ht₀
    rw [hrun] at this
    simpa using this
  have hself : (marked s₀ i t₀ status part writes).k.table i =
      some { t₀ with state := .died, status := status } := update_self i _ s₀.k.table
  rw [hself] at ht
  obtain rfl := Option.some.inj ht
  exact ⟨s₀, t₀, status, hset, hr, ht₀, hrun, hnode, rfl,
    leaveExit_eq hset.kernel hr.ne ht₀ hrun hnode⟩

/-- The last part of `task_exit`. -/
theorem Exiting.leave (h : Exiting s i files.length writes) (ht : s.k.table i = some t)
    (hs : leaveExit s.k i t = .next k') :
    Settled (({ s with k := k' }.finish i (parts.drop files.length)).goto i .exited) ∧
      Buried s.k k' := by
  obtain ⟨s₀, t₀, status, hset, hr, ht₀, hrun, hnode, rfl, hexit⟩ := h.taskExit ht
  rw [hexit] at hs
  obtain ⟨-, hcpu, htable⟩ := Task.taskExit_spec hset.kernel.tree ht₀ hs
  have hstate := Task.exitEffect_state i t₀ status
  have hfields := Task.exitEffect_fields i t₀ status
  have back : ∀ j u, k'.table j = some u → ∃ v, s₀.k.table j = some v ∧
      u = Task.exitEffect i t₀ status j v := by
    intro j u hu
    rw [htable] at hu
    obtain ⟨v, hv, rfl⟩ := Option.map_eq_some_iff.mp hu
    exact ⟨v, hv, rfl⟩
  constructor
  · refine ⟨hset.kernel.exit ht₀ hr.ne hs, fun j u hu => ?_, fun j => ?_, fun j u hu hd => ?_,
      hset.lock⟩
    · obtain ⟨v, hv, rfl⟩ := back j u hu
      have hold := hset.node j v hv
      unfold Task.exitEffect Task.buried
      dsimp only
      by_cases hj : j = i
      · subst hj
        rw [ht₀] at hv
        cases hv
        split_ifs <;> simp_all
      · split_ifs <;> simp_all
    · unfold State.goto State.finish marked
      dsimp only
      by_cases hj : j = i
      · subst hj
        rw [update_self]
        exact id
      · rw [update_of_ne hj, update_of_ne hj]
        exact hset.pc j
    · unfold State.goto State.finish marked
      dsimp only
      by_cases hj : j = i
      · subst hj
        rw [update_self, update_self, update_self]
        exact ⟨rfl, List.take_append_drop _ _⟩
      · rw [update_of_ne hj, update_of_ne hj, update_of_ne hj, update_of_ne hj]
        obtain ⟨v, hv, rfl⟩ := back j u hu
        rw [hstate, if_neg hj] at hd
        split_ifs at hd
        exact hset.died j v hv hd
  · intro j u hu hd
    by_cases hj : j = i
    · subst hj
      have hself : (marked s₀ j t₀ status files.length writes).k.table j =
          some { t₀ with state := .died, status := status } := update_self j _ s₀.k.table
      rw [hself] at hu
      cases hu
      refine ⟨Task.exitEffect j t₀ status j t₀, by rw [htable, ht₀]; rfl, ?_, (hfields j t₀).1, ?_⟩
      · rw [hstate, if_pos rfl]
      · unfold Task.exitEffect Task.buried
        dsimp only
        rw [if_pos rfl]
        split_ifs <;> rfl
    · have hu : s₀.k.table j = some u := by
        rw [← hu]
        exact (update_of_ne hj _ _).symm
      refine ⟨Task.exitEffect i t₀ status j u, by rw [htable, hu]; rfl, ?_, (hfields j u).1,
        (hfields j u).2.2.2 hj⟩
      rw [hstate, if_neg hj, if_neg (by rw [hd]; simp), hd]

/-- The parent is there, and its node is on a list if it waits. -/
theorem Exiting.leaves (h : Exiting s i part writes) (ht : s.k.table i = some t) :
    ∃ k', leaveExit s.k i t = .next k' := by
  obtain ⟨s₀, t₀, status, hset, hr, ht₀, hrun, hnode, rfl, hexit⟩ := h.taskExit ht
  have hrunning : (!t₀.node && t₀.state == .running) = true := by
    rw [hnode, hrun]
    rfl
  obtain ⟨p, hp, hpd⟩ := hset.kernel.parent i t₀ ht₀ hr.ne
  have hne := (hset.kernel.rooted i t₀ ht₀).ppid_ne hr.ne ht₀
  have htable := Task.table_buried status hset.kernel.tree ht₀ t₀.ppid
  rw [hp, Option.map_some] at htable
  have hsame : (Task.buried i t₀ status t₀.ppid p).state = p.state ∧
      (Task.buried i t₀ status t₀.ppid p).node = p.node := by
    unfold Task.buried
    dsimp only
    rw [if_neg hne]
    split_ifs <;> exact ⟨rfl, rfl⟩
  rw [hexit]
  unfold Task.taskExit
  rw [hrunning]
  dsimp only
  rw [htable]
  dsimp only
  split_ifs with hw
  · have hlinked : (Task.buried i t₀ status t₀.ppid p).node = true := by
      rw [hsame.2, hset.node _ p hp, ← hsame.1, hw.1]
      exact Or.inr (Or.inr rfl)
    unfold Task.taskUnblock
    rw [hlinked]
    exact ⟨_, rfl⟩
  · exact ⟨_, rfl⟩

end Dying

section Steps

/-- Who has died stays dead until it is taken off the table. -/
def Fate (k k' : Task.Kernel) : Prop :=
  ∀ j t, k.table j = some t → t.state = .died → k'.table j = none ∨
    ∃ t', k'.table j = some t' ∧ t'.state = .died ∧ t'.pid = t.pid ∧ t'.status = t.status

theorem Buried.fate (h : Buried k k') : Fate k k' := fun j t ht hd => Or.inr (h j t ht hd)

theorem Settled.enterExit (hs : Settled s) (hr : Runs s i) (ht : s.k.table i = some t)
    (h : Exit.enterExit s i t status = .next s') : Exiting s' i 0 0 ∧ Buried s.k s'.k := by
  obtain ⟨-, h⟩ := assert_eq_next.mp h
  obtain rfl := next.inj h
  exact ⟨⟨s, t, status, hs, hr, ht, Nat.zero_le _, Nat.zero_le _, rfl⟩, .update rfl (hs.alive hr)⟩

theorem Settled.fork (hs : Settled s) (ht : s.k.table i = some t)
    (h : Task.taskFork s.k t = .next (k', j)) :
    Settled ({ s with k := k' }.goto j .out) ∧ Buried s.k k' := by
  obtain ⟨hrun, -, hnone, rfl⟩ := Task.taskFork_spec h
  have hnode : t.node = false := by
    have := hs.node i t ht
    rw [hrun] at this
    simpa using this
  refine ⟨hs.change (Task.forkChild t j) (hs.kernel.fork ht h) rfl ?_ nofun ?_
    (fun m hm => update_of_ne hm _ _) rfl rfl, .update rfl fun v hv => ?_⟩
  · unfold Task.forkChild
    simp [hnode]
  · unfold State.goto
    dsimp only
    rw [update_self]
    exact id
  · rw [hnone] at hv
    cases hv

theorem Settled.reap (hs : Settled s) {c : Task.TaskT} (hc : s.k.table j = some c)
    (hd : c.state = .died) (hj : 2 ≤ j) :
    Settled { s with k := { s.k with table := update s.k.table j none } } ∧
      Fate s.k { s.k with table := update s.k.table j none } := by
  have old : ∀ m u, update s.k.table j none m = some u → s.k.table m = some u := by
    intro m u hu
    by_cases hm : m = j
    · subst hm
      rw [update_self] at hu
      cases hu
    · rwa [update_of_ne hm] at hu
  refine ⟨⟨hs.kernel.reap hc hd hj, fun m u hu => hs.node m u (old m u hu), hs.pc,
    fun m u hu => hs.died m u (old m u hu), hs.lock⟩, fun m u hu hdu => ?_⟩
  by_cases hm : m = j
  · subst hm
    exact Or.inl (update_self _ _ _)
  · exact Or.inr ⟨u, (update_of_ne hm _ _).trans hu, hdu, rfl, rfl⟩

theorem Settled.waitPass (hs : Settled s) (hr : Runs s i) (ht : s.k.table i = some t) {pid : ℤ}
    (h : Exit.waitPass s i t pid = .next s') : Settled s' ∧ Fate s.k s'.k := by
  obtain ⟨⟨k', r⟩, hw, h⟩ := andThen_eq_next.mp h
  have halive := hs.alive hr t ht
  rcases Task.taskWaitpid_spec hw with ⟨j, c, rfl, hj, hc, -, hd, rfl⟩ | ⟨rfl, rfl⟩ |
    ⟨rfl, hchild, htable, hcpu⟩
  · obtain rfl := next.inj h
    obtain ⟨hset, hfate⟩ := hs.reap hc hd hj
    have hij : i ≠ j := by
      rintro rfl
      rw [ht] at hc
      cases hc
      exact halive hd
    exact ⟨hset.goto (t := t) ((update_of_ne hij _ _).trans ht) halive id, hfate⟩
  · obtain rfl := next.inj h
    exact ⟨hs.goto ht halive id, (Buried.refl _).fate⟩
  · obtain rfl := next.inj h
    have hk := (hs.kernel.leave { t with node := true, state := .waiting, waitpid := pid } ht hr.cpu
      ⟨rfl, rfl⟩ ⟨nofun, nofun⟩ (fun h0 => absurd h0 hr.ne)
      (fun _ => by rwa [hs.kernel.pid i t ht] at hchild) htable (by rw [hcpu, if_pos hr.cpu])).1
    refine ⟨hs.change _ hk htable (by simp) nofun ?_ (fun m hm => update_of_ne hm _ _) rfl rfl,
      (Buried.update htable (hs.alive hr)).fate⟩
    unfold State.goto
    dsimp only
    rw [update_self]
    exact id

/-- A step where no task is inside `task_exit`. -/
theorem Settled.step (hs : Settled s) (h : Step s a s') :
    (Settled s' ∨ ∃ i, Exiting s' i 0 0) ∧ Fate s.k s'.k := by
  have wrap : Settled s' ∧ Buried s.k s'.k →
      (Settled s' ∨ ∃ i, Exiting s' i 0 0) ∧ Fate s.k s'.k := fun h => ⟨Or.inl h.1, h.2.fate⟩
  have notExiting : ∀ i part writes, s.pc i ≠ .exiting part writes := by
    intro i part writes hp
    have := hs.pc i
    rw [hp] at this
    exact this trivial
  unfold Step exec at h
  cases a with
  | request dev buf count idx flags type =>
    obtain ⟨i, t, hr, ht, h⟩ := byProcess_eq_next.mp h
    exact wrap (hs.deviceRequest hr (guard_eq_next.mp h).2)
  | fork =>
    obtain ⟨i, t, hr, ht, h⟩ := byProcess_eq_next.mp h
    obtain ⟨⟨k', j⟩, hf, h⟩ := andThen_eq_next.mp (guard_eq_next.mp h).2
    obtain rfl := next.inj h
    exact wrap (hs.fork ht hf)
  | exit status =>
    obtain ⟨i, t, hr, ht, h⟩ := byProcess_eq_next.mp h
    obtain ⟨hex, hbur⟩ := hs.enterExit hr ht (guard_eq_next.mp h).2
    exact ⟨Or.inr ⟨i, hex⟩, hbur.fate⟩
  | write dev buf blk =>
    obtain ⟨i, t, hr, ht, h⟩ := byProcess_eq_next.mp h
    split at h
    next hp => exact absurd hp (notExiting _ _ _)
    next => cases h
  | next =>
    obtain ⟨i, t, hr, ht, h⟩ := byProcess_eq_next.mp h
    split at h
    next hp => exact absurd hp (notExiting _ _ _)
    next => cases h
  | leave =>
    obtain ⟨i, t, hr, ht, h⟩ := byProcess_eq_next.mp h
    split at h
    next hp => exact absurd hp (notExiting _ _ _)
    next => cases h
  | waitpid pid =>
    obtain ⟨i, t, hr, ht, h⟩ := byProcess_eq_next.mp h
    obtain ⟨hset, hfate⟩ := hs.waitPass hr ht (guard_eq_next.mp h).2
    exact ⟨Or.inl hset, hfate⟩
  | resume =>
    obtain ⟨i, t, hr, ht, h⟩ := byProcess_eq_next.mp h
    have hin := hs.pc i
    split at h
    next pid hp =>
      obtain ⟨hset, hfate⟩ := hs.waitPass hr ht h
      exact ⟨Or.inl hset, hfate⟩
    next disk req caller hp =>
      rw [hp] at hin
      obtain rfl : caller = .other := not_not.mp hin
      exact wrap (hs.doRequest hr h)
    next disk req caller hp =>
      rw [hp] at hin
      obtain rfl : caller = .other := not_not.mp hin
      exact wrap (hs.mutexLock hr h)
    next disk req caller left hp =>
      rw [hp] at hin
      obtain rfl : caller = .other := not_not.mp hin
      exact wrap (hs.transfer hr h)
    next disk req caller hp =>
      rw [hp] at hin
      obtain rfl : caller = .other := not_not.mp hin
      exact wrap (hs.endRequest hr h)
    next => cases h
  | block blist state =>
    obtain ⟨i, t, hr, ht, h⟩ := byProcess_eq_next.mp h
    obtain ⟨hg, h⟩ := guard_eq_next.mp h
    obtain ⟨k', hk, h⟩ := andThen_eq_next.mp h
    obtain rfl := next.inj h
    have hst : state = .blocked ∨ state = .sleeping := by simp_all
    exact wrap (hs.taskBlock hr ht hst hk)
  | wake i =>
    dsimp only at h
    split at h
    next t ht =>
      obtain ⟨hset, hbur, -⟩ := hs.unblock (guard_eq_next.mp h).2
      exact wrap ⟨hset, hbur⟩
    next => cases h
  | irq c =>
    obtain ⟨-, h⟩ := guard_eq_next.mp h
    split at h
    next u hu =>
      have hset := hs.setCtrl (c := c) { s.ctrl c with waiter := none } (hs.lock c)
      obtain ⟨hset', hbur, -⟩ := hset.unblock h
      exact wrap ⟨hset', hbur⟩
    next =>
      obtain rfl := next.inj h
      exact wrap ⟨hs, .refl _⟩
  | preempt =>
    dsimp only at h
    split at h
    next i hc =>
      obtain ⟨hp, h⟩ := guard_eq_next.mp h
      obtain rfl := next.inj h
      obtain ⟨hsome, hp⟩ : (s.k.table i).isSome = true ∧ s.pc i = .out := by simpa using hp
      obtain ⟨t, ht⟩ := Option.isSome_iff_exists.mp hsome
      have hout : ¬ Pc.out.InExit := id
      have hgo := hs.schedule hc hout ht
      have hsame : { s with k := Exit.schedule s.k i }.goto i .out =
          { s with k := Exit.schedule s.k i } := by
        unfold State.goto
        dsimp only
        rw [← hp, update_eq_self]
      rw [hsame] at hgo
      exact wrap hgo
    next => cases h
  | dispatch i =>
    dsimp only at h
    split at h
    next t ht =>
      obtain ⟨hg, h⟩ := guard_eq_next.mp h
      obtain ⟨-, h⟩ := assert_eq_next.mp h
      obtain rfl := next.inj h
      obtain ⟨hc, hst⟩ : s.k.cpu = none ∧ t.state = .ready := by simp_all
      have hnode : t.node = false := by
        have := hs.node i t ht
        rw [hst] at this
        simpa using this
      have hk : Task.KInv { s.k.setTask i { t with state := .running } with cpu := some i } :=
        hs.kernel.change { t with state := .running } ht ⟨rfl, rfl⟩ nofun (fun _ => Or.inr rfl) nofun
          rfl (hs.kernel.tree.cpu_change rfl (fun j hj => by simp [hc, Ne.symm hj]) (by simp))
      refine wrap ⟨hs.change { t with state := .running } hk rfl (by simp [hnode]) nofun (hs.pc i)
        (fun _ _ => rfl) rfl rfl, .update rfl fun v hv hd => ?_⟩
      rw [ht] at hv
      cases hv
      rw [hst] at hd
      cases hd
    next => cases h

/-- How much of the exit is left. -/
def left (part writes : ℕ) : ℕ := (files.length - part) * 3 + (2 - writes)

/-- The exit goes on, or it is over. -/
def Advances (s' : State) (i part writes : ℕ) : Prop :=
  (∃ part' writes', Exiting s' i part' writes' ∧ left part' writes' < left part writes) ∨
    Settled s' ∧ s'.pc i = .exited ∧ s'.did i = parts

/-- Where a task is inside `task_exit`, it is its turn. -/
theorem Exiting.step (h : Exiting s i part writes) (hs : Guarded Undisturbed Step s a s') :
    Buried s.k s'.k ∧ Advances s' i part writes := by
  obtain ⟨hr, hp, hdid, hpart, hwrites, ⟨t, ht, hd⟩, -⟩ := h.facts
  obtain ⟨hquiet, hs⟩ := hs
  have hcalm : s.calm = false := by
    unfold State.calm
    rw [hr.cpu]
    dsimp only
    rw [hp]
    rfl
  have only : ∀ {f : ℕ → Task.TaskT → Outcome State}, s.byProcess f = .next s' → f i t = .next s' := by
    intro f hf
    obtain ⟨j, u, hrj, hu, hf⟩ := byProcess_eq_next.mp hf
    obtain rfl : i = j := Option.some.inj (hr.cpu.symm.trans hrj.cpu)
    rw [ht] at hu
    cases hu
    exact hf
  have notOut : ∀ {b : Bool} {o : Outcome State},
      Outcome.guard (decide (s.pc i = .out) && b) o ≠ .next s' := by
    intro b o ho
    rw [hp] at ho
    cases ho
  unfold Step exec at hs
  cases a with
  | request dev buf count idx flags type =>
    have := (guard_eq_next.mp (only hs)).1
    rw [hp] at this
    cases this
  | fork =>
    have := (guard_eq_next.mp (only hs)).1
    rw [hp] at this
    cases this
  | exit status =>
    have := (guard_eq_next.mp (only hs)).1
    rw [hp] at this
    cases this
  | write dev buf blk =>
    have hs := only hs
    rw [hp] at hs
    obtain ⟨hg, hs⟩ := guard_eq_next.mp hs
    obtain ⟨-, hw⟩ := of_decide_eq_true hg
    obtain ⟨hex, hk⟩ := h.write hw hquiet hs
    refine ⟨hk ▸ .refl _, Or.inl ⟨part, writes + 1, hex, ?_⟩⟩
    unfold left
    omega
  | next =>
    have hs := only hs
    rw [hp] at hs
    obtain ⟨hg, hs⟩ := guard_eq_next.mp hs
    obtain rfl := next.inj hs
    have hlt := of_decide_eq_true hg
    refine ⟨.refl _, Or.inl ⟨part + 1, 0, h.next hlt, ?_⟩⟩
    unfold left
    omega
  | leave =>
    have hs := only hs
    rw [hp] at hs
    obtain ⟨hg, hs⟩ := guard_eq_next.mp hs
    obtain rfl := of_decide_eq_true hg
    obtain ⟨k', hk, hs⟩ := andThen_eq_next.mp hs
    obtain rfl := next.inj hs
    obtain ⟨hset, hbur⟩ := h.leave ht hk
    refine ⟨hbur, Or.inr ⟨hset, update_self _ _ _, ?_⟩⟩
    unfold State.goto State.finish
    dsimp only
    rw [update_self, hdid]
    exact List.take_append_drop _ _
  | waitpid pid =>
    have := (guard_eq_next.mp (only hs)).1
    rw [hp] at this
    cases this
  | resume =>
    have hs := only hs
    rw [hp] at hs
    cases hs
  | block blist state => exact absurd (only hs) notOut
  | wake j =>
    dsimp only at hs
    split at hs
    next =>
      rw [hcalm] at hs
      cases hs
    next => cases hs
  | irq c =>
    rw [hcalm] at hs
    cases hs
  | preempt =>
    dsimp only at hs
    rw [hr.cpu] at hs
    dsimp only at hs
    rw [ht, hp] at hs
    cases hs
  | dispatch j =>
    dsimp only at hs
    rw [hr.cpu] at hs
    split at hs
    next => cases hs
    next => cases hs

theorem inv_step (hi : Inv s) (hs : Guarded Undisturbed Step s a s') : Inv s' := by
  rcases hi with hset | ⟨i, part, writes, hex⟩
  · obtain ⟨hset' | ⟨i, hex⟩, -⟩ := hset.step hs.2
    · exact Or.inl hset'
    · exact Or.inr ⟨i, 0, 0, hex⟩
  · obtain ⟨-, ⟨part', writes', hex', -⟩ | ⟨hset, -⟩⟩ := hex.step hs
    · exact Or.inr ⟨i, part', writes', hex'⟩
    · exact Or.inl hset

theorem inv_run (h₀ : Init s₀) (h : Run (Guarded Undisturbed Step) s₀ as s) : Inv s :=
  h.invariant (fun _ _ _ => inv_step) (Or.inl (initial h₀))

/-- The next part can always be begun. -/
theorem Exiting.goes (h : Exiting s i part writes) :
    ∃ a s', Guarded Undisturbed Step s a s' := by
  obtain ⟨hr, hp, -, hpart, -, ⟨t, ht, -⟩, -⟩ := h.facts
  rcases Nat.lt_or_eq_of_le hpart with hlt | rfl
  · refine ⟨.next, (s.finish i ((parts.drop part).take 1)).goto i (.exiting (part + 1) 0), trivial,
      byProcess_eq_next.mpr ⟨i, t, hr, ht, ?_⟩⟩
    rw [hp]
    exact guard_eq_next.mpr ⟨decide_eq_true hlt, rfl⟩
  · obtain ⟨k', hk⟩ := h.leaves ht
    refine ⟨.leave, ({ s with k := k' }.finish i (parts.drop files.length)).goto i .exited, trivial,
      byProcess_eq_next.mpr ⟨i, t, hr, ht, ?_⟩⟩
    rw [hp]
    exact guard_eq_next.mpr ⟨decide_eq_true rfl, andThen_eq_next.mpr ⟨k', hk, rfl⟩⟩

/-- A write on a quiet disk comes through. -/
theorem Exiting.comesThrough (h : Exiting s i part writes) (hlt : part < files.length) (hw : writes < 2)
    (hin : Installed s dev) (hq : Undisturbed s (.write dev buf blk)) :
    ∃ s', Step s (.write dev buf blk) s' := by
  obtain ⟨hr, hp, -, -, -, ⟨t, ht, hd⟩, hlock⟩ := h.facts
  have htwo : 0 < BLOCK_SECS := by decide
  obtain ⟨devices, hdo⟩ := deviceRequest_quiet buf (blk * BLOCK_SECS % 2 ^ 32) 0 .write
    (.exit part writes) hin hq htwo hlock ht (by rw [hd]; nofun)
  refine ⟨returnTo { s with devices := devices, made := s.made + 1 } i (.exit part writes),
    byProcess_eq_next.mpr ⟨i, t, hr, ht, ?_⟩⟩
  rw [hp]
  exact guard_eq_next.mpr ⟨decide_eq_true ⟨hlt, hw⟩, hdo⟩

end Steps

section Claim

/-- Where `task_exit` writes to quiet disks only: who has died stays dead until it is
taken off the table, and that is after its exit; whoever is in its exit has the
processor, and every step takes it on to the end, where all is done once. -/
theorem exit_carried_out (h₀ : Init s₀) (h : Run (Guarded Undisturbed Step) s₀ as s) :
    (∀ a s', Guarded Undisturbed Step s a s' → ∀ i t, s.k.table i = some t → t.state = .died →
      (∃ t', s'.k.table i = some t' ∧ t'.state = .died ∧ t'.pid = t.pid ∧ t'.status = t.status) ∨
        s'.k.table i = none ∧ s.pc i = .exited ∧ s.did i = parts) ∧
    (∀ i t, s.k.table i = some t → t.state = .died →
      (s.pc i).InExit ∨ s.pc i = .exited ∧ s.did i = parts) ∧
    ∀ i, (s.pc i).InExit → ∃ part writes, s.pc i = .exiting part writes ∧ s.k.cpu = some i ∧
      (∃ t, s.k.table i = some t ∧ t.state = .died) ∧ s.did i = parts.take part ∧
      (∀ dev buf blk, part < files.length → writes < 2 → Installed s dev →
        Undisturbed s (.write dev buf blk) → ∃ s', Step s (.write dev buf blk) s') ∧
      (∃ a s', Guarded Undisturbed Step s a s') ∧
      ∀ a s', Guarded Undisturbed Step s a s' → s'.pc i = .exited ∧ s'.did i = parts ∨
        ∃ part' writes', s'.pc i = .exiting part' writes' ∧ left part' writes' < left part writes := by
  rcases inv_run h₀ h with hset | ⟨i, part, writes, hex⟩
  · refine ⟨fun a s' hs j t ht hd => ?_, fun j t ht hd => Or.inr (hset.died j t ht hd),
      fun j hj => absurd hj (hset.pc j)⟩
    rcases (hset.step hs.2).2 j t ht hd with hnone | hdead
    · exact Or.inr ⟨hnone, hset.died j t ht hd⟩
    · exact Or.inl hdead
  · obtain ⟨hr, hp, hdid, hpart, hwrites, ht, -⟩ := hex.facts
    refine ⟨fun a s' hs j t ht hd => Or.inl ((hex.step hs).1 j t ht hd), fun j t ht hd => ?_,
      fun j hj => ?_⟩
    · by_cases hji : j = i
      · subst hji
        rw [hp]
        exact Or.inl trivial
      · exact Or.inr ((hex.others hji).2 t ht hd)
    · obtain rfl : j = i := by
        by_contra hji
        exact (hex.others hji).1 hj
      refine ⟨part, writes, hp, hr.cpu, ht, hdid, fun _ _ _ => hex.comesThrough, hex.goes,
        fun a s' hs => ?_⟩
      obtain ⟨-, ⟨part', writes', hex', hlt⟩ | ⟨-, hpc, hall⟩⟩ := hex.step hs
      · exact Or.inr ⟨part', writes', hex'.facts.2.1, hlt⟩
      · exact Or.inl ⟨hpc, hall⟩

instance (s : State) (a : Act) : Decidable (Undisturbed s a) :=
  match a with
  | .write _ _ _ => inferInstanceAs (Decidable (_ ∧ _ ∧ _))
  | .request .. | .fork | .exit _ | .next | .leave | .waitpid _ | .resume | .block .. | .wake _
  | .irq _ | .preempt | .dispatch _ => .isTrue trivial

/-- Two disks with a partition each, and the idle task and two processes. -/
def start : State where
  k := {
    table i := if i < 3 then some {
      node := false, state := .ready, priority := 5, ticks := 5, jiffies := 0, pid := i, ppid := 0,
      status := 0, waitpid := 0 } else none
    lists _ := []
    cpu := none }
  magic _ := Device.ONIX_MAGIC
  devices d :=
    if d = 1 ∨ d = 3 then ⟨.block, 0, 0, [], .up⟩
    else if d = 2 then ⟨.block, 1, 63, [], .up⟩
    else if d = 4 then ⟨.block, 3, 63, [], .up⟩
    else ⟨.null, 0, 0, [], .up⟩
  ctrl _ := ⟨none, 0, false, none⟩
  ctrlOf d := if d < 3 then 0 else 1
  pc _ := .out
  made := 0
  did _ := []

theorem init_start : Init start where
  created i t ht := by
    simp only [start, Option.ite_none_right_eq_some, Option.some.injEq] at ht
    obtain ⟨hi, rfl⟩ := ht
    exact ⟨Nat.lt_trans hi (by decide), rfl, rfl, rfl, rfl⟩
  idle := ⟨_, rfl⟩
  first := ⟨_, rfl⟩
  lists _ := rfl
  cpu := rfl
  pc _ := rfl
  magic _ := rfl
  devices d := by
    unfold start
    dsimp only
    split_ifs <;> rfl
  ctrl _ := rfl

/-- Process 2 exits while a request of process 1 is in service. -/
def exitBusy : List Act := [.dispatch 1, .request 2 0 2 10 0 .read, .dispatch 2, .exit 7]

/-- It writes to the other disk. -/
theorem exit_carried_out_otherDisk : ∃ s, Run (Guarded Undisturbed Step) start
    (exitBusy ++ [.write 4 0 5] ++ List.replicate files.length .next ++ [.leave]) s ∧
    s.pc 2 = .exited ∧ s.did 2 = parts := by
  obtain ⟨s, hs, hp⟩ := run_of_play Undisturbed exec start
    (exitBusy ++ [.write 4 0 5] ++ List.replicate files.length .next ++ [.leave])
    (fun s => s.pc 2 == .exited && (s.k.table 2).any fun t => t.state == .died) (by decide +kernel)
  simp only [Bool.and_eq_true, beq_iff_eq, Option.any_eq_true] at hp
  obtain ⟨hpc, t, ht, hd⟩ := hp
  rcases (exit_carried_out init_start hs).2.1 2 t ht hd with hin | hdid
  · rw [hpc] at hin
    exact absurd hin id
  · exact ⟨s, hs, hdid⟩

/-- It writes to the same disk: it waits there, and is no longer dead. -/
theorem exit_revived : ¬ ∀ as s a s', Run Step start as s → Step s a s' →
    ∀ i t t', s.k.table i = some t → t.state = .died → s'.k.table i = some t' → t'.state = .died := by
  intro h
  obtain ⟨s, hs, hdead⟩ := run_of_play (fun _ _ => True) exec start exitBusy
    (fun s => (s.k.table 2).any (fun t => t.state == .died) &&
      (exec s (.write 2 0 5)).Ends fun s => (s.k.table 2).any fun t => t.state == .blocked)
    (by decide +kernel)
  simp only [Bool.and_eq_true, beq_iff_eq, Option.any_eq_true, ends_eq_true] at hdead
  obtain ⟨⟨t, ht, hd⟩, s'', hstep, t', ht', hb⟩ := hdead
  have := h _ s _ s'' hs.of_guarded hstep 2 t t' ht hd ht'
  rw [hb] at this
  cases this

end Claim

end Onix.Exit
