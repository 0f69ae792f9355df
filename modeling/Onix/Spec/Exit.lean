import Onix.Spec.Device
import Onix.Spec.Task

/-! `task_exit` of `kernel/task.c` over the disks: its `iput` and `close` may write
inodes back, through `device_request` of `kernel/device.c` and `ide_pio_write` of
`kernel/ide.c`, which block, and other tasks come there too. The statements of a
task up to its next blocking point are one step. -/

namespace Onix.Exit

open Function

def TASK_FILE_NR : ℕ := 16

def BLOCK_SECS : ℕ := 2

/-- `ide_ctrl_t`, with its lock; the `waiters` of the lock of controller `c` are the
list `other c`. -/
structure CtrlT where
  holder : Option ℕ
  repeats : ℕ
  value : Bool
  waiter : Option ℕ

/-- What `task_exit` does after `TASK_DIED` and `free_pde`. -/
inductive Part where
  | ipwd
  | iroot
  | close (fd : ℕ)
  | children
  | parent
  deriving DecidableEq

/-- The parts that may write to a disk. -/
def files : List Part := [.ipwd, .iroot] ++ (List.range TASK_FILE_NR).map .close

def parts : List Part := files ++ [.children, .parent]

/-- Who called `device_request`: some system call, or `task_exit` in its part with
this number, after so many writes. -/
inductive Caller where
  | other
  | exit (part writes : ℕ)
  deriving DecidableEq

/-- Where a task is. -/
inductive Pc where
  | out
  /-- In the `task_block` of `task_waitpid`. -/
  | waitpid (pid : ℤ)
  /-- In the `task_block` of `device_request`. -/
  | queued (disk : ℕ) (req : Device.RequestT ℕ) (caller : Caller)
  /-- In the `task_block` of `mutex_lock`. -/
  | locking (disk : ℕ) (req : Device.RequestT ℕ) (caller : Caller)
  /-- Waiting for the interrupt, with so many sectors left after this one. -/
  | sectors (disk : ℕ) (req : Device.RequestT ℕ) (caller : Caller) (left : ℕ)
  /-- In the `task_yield` of `mutex_unlock`. -/
  | yielded (disk : ℕ) (req : Device.RequestT ℕ) (caller : Caller)
  /-- In `task_exit`. -/
  | exiting (part writes : ℕ)
  /-- In the last `schedule` of `task_exit`. -/
  | exited
  deriving DecidableEq

/-- The kernel of `Spec/Task` with the disks. `ctrlOf` is `disk->ctrl`, `made` counts
the requests. `did` are the parts of `task_exit` that the task in a slot has been
through; the code does not read it. -/
structure State where
  k : Task.Kernel
  magic : ℕ → ℕ
  devices : ℕ → Device.DeviceT ℕ
  ctrl : ℕ → CtrlT
  ctrlOf : ℕ → ℕ
  pc : ℕ → Pc
  made : ℕ
  did : ℕ → List Part

inductive Act where
  /-- A system call of the running process calls `device_request`. -/
  | request (dev buf count idx : ℕ) (flags : ℤ) (type : Device.ReqType)
  | fork
  /-- `task_exit(status)` up to `free_pde`. -/
  | exit (status : ℤ)
  /-- `task_exit` writes a block: its inode or file has the last reference or is dirty. -/
  | write (dev buf block : ℕ)
  /-- A part of `task_exit` is over. -/
  | next
  /-- The end of `task_exit`. -/
  | leave
  | waitpid (pid : ℤ)
  /-- The running process goes on in the call it was blocked in. -/
  | resume
  /-- It blocks on something else. -/
  | block (blist : Task.ListId) (state : Task.TaskState)
  /-- A task that blocked so is made ready. -/
  | wake (i : ℕ)
  /-- The interrupt of a controller. -/
  | irq (ctrl : ℕ)
  | preempt
  | dispatch (i : ℕ)

namespace State

variable (s : State)

def goto (i : ℕ) (p : Pc) : State := { s with pc := update s.pc i p }

def setCtrl (c : ℕ) (ctrl : CtrlT) : State := { s with ctrl := update s.ctrl c ctrl }

def setList (disk : ℕ) (l : List (Device.RequestT ℕ)) (direct : Device.Direct) : State :=
  let device := { s.devices disk with requestList := l, direct := direct }
  { s with devices := update s.devices disk device }

def finish (i : ℕ) (l : List Part) : State := { s with did := update s.did i (s.did i ++ l) }

/-- The running process: a task other than the idle task. -/
def process : Option (ℕ × Task.TaskT) :=
  match s.k.cpu with
  | none => none
  | some i => if i = 0 then none else (s.k.table i).map fun t => (i, t)

end State

variable (s : State) (i : ℕ)

/-- `task_block(current, blist, TASK_BLOCKED)` at this place of the code. -/
def block (blist : Task.ListId) (p : Pc) : Outcome State :=
  match s.k.table i with
  | some t => (Task.taskBlock s.k i t blist .blocked).andThen fun k => .next ({ s with k := k }.goto i p)
  | none => .failed

/-- `task_unblock(task)`. -/
def unblock : Outcome State :=
  match s.k.table i with
  | some t => (Task.taskUnblock s.k i t).andThen fun k => .next { s with k := k }
  | none => .failed

/-- What `schedule` does to the task that leaves. -/
def schedule (k : Task.Kernel) (i : ℕ) : Task.Kernel :=
  match k.table i with
  | some t =>
    if t.state = .running then { k.setTask i { t with state := .ready } with cpu := none }
    else { k with cpu := none }
  | none => { k with cpu := none }

/-- `device_request` has returned. -/
def returnTo : Caller → State
  | .other => s.goto i .out
  | .exit part writes => s.goto i (.exiting part (writes + 1))

/-- `device_request` from the return of `do_request` on. -/
def endRequest (disk : ℕ) (req : Device.RequestT ℕ) (caller : Caller) : Outcome State :=
  let device := s.devices disk
  let (nextreq, direct) := Device.requestNextreq device req
  let s := returnTo (s.setList disk (Chain.remove Device.RequestT.nr device.requestList req.nr) direct)
    i caller
  match nextreq with
  | none => .next s
  | some nextreq =>
    match nextreq.task with
    | none => .failed
    | some u =>
      .assert (s.magic u == Device.ONIX_MAGIC) <|
      unblock s u

/-- `lock_release(&ctrl->lock)` and what follows. -/
def lockRelease (disk : ℕ) (req : Device.RequestT ℕ) (caller : Caller) : Outcome State :=
  let c := s.ctrlOf disk
  let ctrl := s.ctrl c
  .assert (ctrl.holder == some i) <|
  if 1 < ctrl.repeats then
    endRequest (s.setCtrl c { ctrl with repeats := ctrl.repeats - 1 }) i disk req caller
  else
    .assert (ctrl.repeats == 1) <|
    .assert ctrl.value <|
    let s := s.setCtrl c { ctrl with holder := none, repeats := 0, value := false }
    match (s.k.lists (.other c)).getLast? with
    | none => endRequest s i disk req caller
    | some u =>
      .assert (s.magic u == Device.ONIX_MAGIC) <|
      (unblock s u).andThen fun s =>
      .next ({ s with k := schedule s.k i }.goto i (.yielded disk req caller))

/-- The loop over the sectors of `ide_pio_read` and `ide_pio_write`. -/
def transfer (disk : ℕ) (req : Device.RequestT ℕ) (caller : Caller) : ℕ → Outcome State
  | 0 => lockRelease s i disk req caller
  | left + 1 =>
    match s.k.table i with
    | some t =>
      if t.state = .running then
        let c := s.ctrlOf disk
        block (s.setCtrl c { s.ctrl c with waiter := some i }) i .blockList
          (.sectors disk req caller left)
      else transfer disk req caller left
    | none => .failed

/-- `lock_acquire(&ctrl->lock)` from the loop of `mutex_lock` on. -/
def mutexLock (disk : ℕ) (req : Device.RequestT ℕ) (caller : Caller) : Outcome State :=
  let c := s.ctrlOf disk
  let ctrl := s.ctrl c
  if ctrl.value then block s i (.other c) (.locking disk req caller)
  else
    .assert (ctrl.repeats == 0) <|
    transfer (s.setCtrl c { ctrl with holder := some i, repeats := 1, value := true }) i disk req
      caller req.count

/-- `do_request(req)`. -/
def doRequest (disk : ℕ) (req : Device.RequestT ℕ) (caller : Caller) : Outcome State :=
  let c := s.ctrlOf disk
  let ctrl := s.ctrl c
  .assert (0 < req.count) <|
  if ctrl.holder = some i then
    transfer (s.setCtrl c { ctrl with repeats := (ctrl.repeats + 1) % 2 ^ 32 }) i disk req caller
      req.count
  else mutexLock s i disk req caller

/-- `device_get(dev)`. -/
def deviceGet (dev : ℕ) (k : Device.DeviceT ℕ → Outcome State) : Outcome State :=
  .assert (dev < Device.DEVICE_NR) <|
  .assert ((s.devices dev).type ≠ .null) <|
  k (s.devices dev)

/-- `device_request(dev, buf, count, idx, flags, type)`. -/
def deviceRequest (dev buf count idx : ℕ) (flags : ℤ) (type : Device.ReqType) (caller : Caller) :
    Outcome State :=
  deviceGet s dev fun device =>
  .assert (device.type = .block) <|
  let offset := (idx + device.sectorStart) % 2 ^ 32
  let disk := if device.parent ≠ 0 then device.parent else dev
  deviceGet s disk fun device =>
  let req := ⟨s.made, disk, type, offset, count, flags, buf, none⟩
  let s := { s with made := s.made + 1 }
  if device.requestList = [] then
    doRequest (s.setList disk (Device.listInsertSort device.requestList req) device.direct) i disk
      req caller
  else
    let req := { req with task := some i }
    block (s.setList disk (Device.listInsertSort device.requestList req) device.direct) i .blockList
      (.queued disk req caller)

/-- `task_exit(status)` up to `free_pde`. -/
def enterExit (t : Task.TaskT) (status : ℤ) : Outcome State :=
  .assert (!t.node && t.state == .running) <|
  let k := s.k.setTask i { t with state := .died, status := status }
  .next { s with k := k, pc := update s.pc i (.exiting 0 0), did := update s.did i [] }

/-- `task_exit` from the loop over the children on. -/
def leaveExit (k : Task.Kernel) (i : ℕ) (t : Task.TaskT) : Outcome Task.Kernel :=
  let k := Task.reparent k t.pid t.ppid
  match k.table t.ppid with
  | none => .failed
  | some parent =>
    (if parent.state = .waiting ∧ (parent.waitpid = -1 ∨ parent.waitpid = t.pid) then
      Task.taskUnblock k t.ppid parent
    else .next k).andThen fun k => .next (schedule k i)

/-- A pass of the loop of `task_waitpid(pid, &status)`. -/
def waitPass (t : Task.TaskT) (pid : ℤ) : Outcome State :=
  (Task.taskWaitpid s.k i t pid).andThen fun r =>
    match r.2 with
    | .waits => .next ({ s with k := r.1 }.goto i (.waitpid pid))
    | _ => .next ({ s with k := r.1 }.goto i .out)

/-- Interrupts are on: nobody runs, or a process in user mode. -/
def State.calm : Bool :=
  match s.k.cpu with
  | none => true
  | some i => s.pc i == .out

/-- What the running process does. -/
def State.byProcess (f : ℕ → Task.TaskT → Outcome State) : Outcome State :=
  match s.process with
  | some (i, t) => f i t
  | none => .refused

def exec (s : State) : Act → Outcome State
  | .request dev buf count idx flags type => s.byProcess fun i _ =>
      .guard (s.pc i = .out) <| deviceRequest s i dev buf count idx flags type .other
  | .fork => s.byProcess fun i t => .guard (s.pc i = .out) <|
      (Task.taskFork s.k t).andThen fun r => .next ({ s with k := r.1 }.goto r.2 .out)
  | .exit status => s.byProcess fun i t => .guard (s.pc i = .out) <| enterExit s i t status
  | .write dev buf block => s.byProcess fun i _ =>
      match s.pc i with
      | .exiting part writes => .guard (part < files.length ∧ writes < 2) <|
          let idx := block * BLOCK_SECS % 2 ^ 32
          deviceRequest s i dev buf BLOCK_SECS idx 0 .write (.exit part writes)
      | _ => .refused
  | .next => s.byProcess fun i _ =>
      match s.pc i with
      | .exiting part _ => .guard (part < files.length) <|
          .next ((s.finish i ((parts.drop part).take 1)).goto i (.exiting (part + 1) 0))
      | _ => .refused
  | .leave => s.byProcess fun i t =>
      match s.pc i with
      | .exiting part _ => .guard (part = files.length) <|
          (leaveExit s.k i t).andThen fun k =>
            .next (({ s with k := k }.finish i (parts.drop part)).goto i .exited)
      | _ => .refused
  | .waitpid pid => s.byProcess fun i t => .guard (s.pc i = .out) <| waitPass s i t pid
  | .resume => s.byProcess fun i t =>
      match s.pc i with
      | .waitpid pid => waitPass s i t pid
      | .queued disk req caller => doRequest s i disk req caller
      | .locking disk req caller => mutexLock s i disk req caller
      | .sectors disk req caller left => transfer s i disk req caller left
      | .yielded disk req caller => endRequest s i disk req caller
      | _ => .refused
  | .block blist state => s.byProcess fun i t =>
      .guard (s.pc i = .out && (state == .blocked || state == .sleeping)) <|
        (Task.taskBlock s.k i t blist state).andThen fun k => .next { s with k := k }
  | .wake i =>
    match s.k.table i with
    | some t => .guard (s.calm && s.pc i == .out && (t.state == .blocked || t.state == .sleeping)) <|
        unblock s i
    | none => .refused
  | .irq c => .guard s.calm <|
      match (s.ctrl c).waiter with
      | some u => unblock (s.setCtrl c { s.ctrl c with waiter := none }) u
      | none => .next s
  | .preempt =>
    match s.k.cpu with
    | some i => .guard ((s.k.table i).isSome && s.pc i == .out) <|
        .next { s with k := schedule s.k i }
    | none => .refused
  | .dispatch i =>
    match s.k.table i with
    | some t => .guard (s.k.cpu == none && t.state == .ready) <|
        .assert (s.magic i == Device.ONIX_MAGIC) <|
        .next { s with k := { s.k.setTask i { t with state := .running } with cpu := some i } }
    | none => .refused

def Step (s : State) (a : Act) (s' : State) : Prop := exec s a = .next s'

/-- Tasks as after `task_init`, and idle disks. -/
structure Init (s : State) : Prop where
  created : ∀ i t, s.k.table i = some t → i < Task.NR_TASKS ∧ Task.Created i t
  idle : ∃ t, s.k.table 0 = some t
  first : ∃ t, s.k.table 1 = some t
  lists : ∀ l, s.k.lists l = []
  cpu : s.k.cpu = none
  pc : ∀ i, s.pc i = .out
  magic : ∀ i, s.magic i = Device.ONIX_MAGIC
  devices : ∀ d, (s.devices d).requestList = []
  ctrl : ∀ c, s.ctrl c = ⟨none, 0, false, none⟩

end Onix.Exit
