import Onix.Lib.Outcome

/-! `kernel/task.c`: the task table, blocking and unblocking, `task_fork`,
`task_exit` and `task_waitpid`. A call runs with the interrupts off until it
returns or gives up the processor, so each function is one atomic step up to
the call of `schedule`, which leaves `cpu` empty. -/

namespace Onix.Task

open Function

def NR_TASKS : ℕ := 64

/-- `task_state_t`. -/
inductive TaskState where
  | init | running | ready | blocked | sleeping | waiting | died
  deriving DecidableEq

/-- The lists a task's node can be on: `block_list`, `sleep_list`, or a list
another part of the kernel passes to `task_block`. -/
inductive ListId where
  | blockList | sleepList | other (n : ℕ)
  deriving DecidableEq

/-- `task_t`, less the user, memory and file fields. `node` says that the links of
the task's node are not NULL. -/
structure TaskT where
  node : Bool
  state : TaskState
  priority : ℕ
  ticks : ℤ
  jiffies : ℕ
  pid : ℕ
  ppid : ℕ
  status : ℤ
  waitpid : ℤ
  deriving DecidableEq

/-- `task_table` by slot, the lists of task nodes, and the running task's slot
(`none` while `schedule` chooses). -/
structure Kernel where
  table : ℕ → Option TaskT
  lists : ListId → List ℕ
  cpu : Option ℕ

variable (k : Kernel)

def Kernel.setTask (i : ℕ) (t : TaskT) : Kernel := { k with table := update k.table i (some t) }

/-- `get_free_task`: the first NULL slot; `none` is the panic. -/
def getFreeTask : Option ℕ := (List.range NR_TASKS).find? fun i => (k.table i).isNone

/-- `task_block(task, blist, state)` for the task in slot `i`. -/
def taskBlock (i : ℕ) (t : TaskT) (blist : ListId) (state : TaskState) : Outcome Kernel :=
  .assert (!t.node) <|
  .assert (!(k.lists blist).contains i) <|
  .assert (state ≠ .ready && state ≠ .running) <|
  let k := { k with lists := update k.lists blist (i :: k.lists blist) }
  let k := k.setTask i { t with node := true, state := state }
  .next (if k.cpu = some i then { k with cpu := none } else k)

/-- `task_unblock(task)` for the task in slot `i`: `list_remove` takes the node
off whatever list it is on. -/
def taskUnblock (i : ℕ) (t : TaskT) : Outcome Kernel :=
  .assert t.node <|
  let k := { k with lists := fun l => (k.lists l).erase i }
  .next (k.setTask i { t with node := false, state := .ready })

/-- The PCB that `task_fork` builds: a copy of the parent's with its own fields. -/
def forkChild (t : TaskT) (pid : ℕ) : TaskT :=
  { t with pid := pid, ppid := t.pid, ticks := t.priority, state := .ready }

/-- `task_fork` by the task `t`; the result is the child's slot and pid. -/
def taskFork (t : TaskT) : Outcome (Kernel × ℕ) :=
  .assert (!t.node && t.state == .running) <|
  match getFreeTask k with
  | none => .failed
  | some i => .next (k.setTask i (forkChild t i), i)

/-- The loop of `task_exit` over the slots from 2: the children of `pid` get the
parent `ppid`. -/
def reparent (pid ppid : ℕ) : Kernel :=
  { k with table := fun i =>
      if 2 ≤ i ∧ i < NR_TASKS then
        (k.table i).map fun c => if c.ppid = pid then { c with ppid := ppid } else c
      else k.table i }

/-- `task_exit(status)` by the task `t` in slot `i`, up to its `schedule`. The
NULL parent is the one dereference that can fail. -/
def taskExit (i : ℕ) (t : TaskT) (status : ℤ) : Outcome Kernel :=
  .assert (!t.node && t.state == .running) <|
  let k := k.setTask i { t with state := .died, status := status }
  let k := reparent k t.pid t.ppid
  let k := { k with cpu := none }
  match k.table t.ppid with
  | none => .failed
  | some parent =>
    if parent.state = .waiting ∧ (parent.waitpid = -1 ∨ parent.waitpid = t.pid) then
      taskUnblock k t.ppid parent
    else .next k

/-- The scan of `task_waitpid` over the slots `is`: the first exited child that
matches, and whether a live one was passed. -/
def waitScan (me : ℕ) (pid : ℤ) : List ℕ → Bool → Option (ℕ × TaskT) × Bool
  | [], hasChild => (none, hasChild)
  | i :: is, hasChild =>
    match k.table i with
    | none => waitScan me pid is hasChild
    | some ptr =>
      if ptr.ppid ≠ me then waitScan me pid is hasChild
      else if pid ≠ ptr.pid ∧ pid ≠ -1 then waitScan me pid is hasChild
      else if ptr.state = .died then (some (i, ptr), hasChild)
      else waitScan me pid is true

/-- How a pass of the loop of `task_waitpid` ends. -/
inductive WaitResult where
  /-- The exited child in slot `i` is taken off the table; `pid` and `status` are reported. -/
  | reaped (i : ℕ) (pid : ℕ) (status : ℤ)
  /-- No child matches: -1 is returned. -/
  | noChild
  /-- A live child matches: the task waits. -/
  | waits
  deriving DecidableEq

/-- One pass of the loop of `task_waitpid(pid, &status)` by the task `t` in slot `me`. -/
def taskWaitpid (me : ℕ) (t : TaskT) (pid : ℤ) : Outcome (Kernel × WaitResult) :=
  match waitScan k t.pid pid (List.range' 2 (NR_TASKS - 2)) false with
  | (some (i, child), _) =>
    .next ({ k with table := update k.table i none }, .reaped i child.pid child.status)
  | (none, true) =>
    let t := { t with waitpid := pid }
    match taskBlock (k.setTask me t) me t .blockList .waiting with
    | .next k => .next (k, .waits)
    | .refused => .refused
    | .failed => .failed
  | (none, false) => .next (k, .noChild)

/-- An exit as it happened: which process, its pid, the argument of `task_exit`. -/
structure Exit where
  serial : ℕ
  pid : ℕ
  status : ℤ
  deriving DecidableEq

/-- A report of `task_waitpid`: the child reported on, what was returned, the
process it was returned to, and the child's parent when the call was made. -/
structure Report where
  exit : Exit
  caller : ℕ
  parent : ℕ
  deriving DecidableEq

/-- The kernel with what a history needs. `call i` is the argument of the
`task_waitpid` that the task in slot `i` is inside of (a local variable of the
call). The code reads none of the rest: `serial i` numbers the process in slot
`i` among all processes, `forks` counts them, `exits` and `reports` are logs. -/
structure Sys where
  k : Kernel
  call : ℕ → Option ℤ
  serial : ℕ → ℕ
  forks : ℕ
  exits : List Exit
  reports : List Report

inductive Act where
  /-- The running process calls `task_fork`. -/
  | fork
  /-- The running process calls `task_exit(status)`. -/
  | exit (status : ℤ)
  /-- The running process calls `task_waitpid(pid, &status)`. -/
  | waitpid (pid : ℤ)
  /-- The running process goes on in the loop of its `task_waitpid`. -/
  | resume
  /-- The running process blocks for a disk, a lock or a time. -/
  | block (blist : ListId) (state : TaskState)
  /-- A task that blocked so is made ready. -/
  | wake (i : ℕ)
  /-- The clock or a yield: the running task becomes ready. -/
  | preempt
  /-- `schedule` switches to a ready task. -/
  | dispatch (i : ℕ)

/-- The running process: a task other than the idle task, which only yields. -/
def Sys.process (s : Sys) : Option (ℕ × TaskT) :=
  match s.k.cpu with
  | none => none
  | some i => if i = 0 then none else (s.k.table i).map fun t => (i, t)

/-- A pass of the loop of `task_waitpid`, with its entry in the log. -/
def waitPass (s : Sys) (i : ℕ) (t : TaskT) (pid : ℤ) : Outcome Sys :=
  match taskWaitpid s.k i t pid with
  | .next (k, .reaped j cpid status) =>
    let parent := match s.k.table j with
      | some c => s.serial c.ppid
      | none => 0
    .next { s with
      k := k
      call := update s.call i none
      reports := ⟨⟨s.serial j, cpid, status⟩, s.serial i, parent⟩ :: s.reports }
  | .next (k, .noChild) => .next { s with k := k, call := update s.call i none }
  | .next (k, .waits) => .next { s with k := k, call := update s.call i (some pid) }
  | .refused => .refused
  | .failed => .failed

def exec (s : Sys) : Act → Outcome Sys
  | .fork =>
    match s.process with
    | some (i, t) => .guard (s.call i).isNone <|
        match taskFork s.k t with
        | .next (k, j) => .next { s with
            k := k
            call := update s.call j none
            serial := update s.serial j s.forks
            forks := s.forks + 1 }
        | .refused => .refused
        | .failed => .failed
    | none => .refused
  | .exit status =>
    match s.process with
    | some (i, t) => .guard (s.call i).isNone <|
        match taskExit s.k i t status with
        | .next k => .next { s with k := k, exits := ⟨s.serial i, t.pid, status⟩ :: s.exits }
        | .refused => .refused
        | .failed => .failed
    | none => .refused
  | .waitpid pid =>
    match s.process with
    | some (i, t) => .guard (s.call i).isNone <| waitPass s i t pid
    | none => .refused
  | .resume =>
    match s.process with
    | some (i, t) =>
      match s.call i with
      | some pid => waitPass s i t pid
      | none => .refused
    | none => .refused
  | .block blist state =>
    match s.process with
    | some (i, t) => .guard ((s.call i).isNone && (state == .blocked || state == .sleeping)) <|
        match taskBlock s.k i t blist state with
        | .next k => .next { s with k := k }
        | .refused => .refused
        | .failed => .failed
    | none => .refused
  | .wake i =>
    match s.k.table i with
    | some t => .guard (t.state == .blocked || t.state == .sleeping) <|
        match taskUnblock s.k i t with
        | .next k => .next { s with k := k }
        | .refused => .refused
        | .failed => .failed
    | none => .refused
  | .preempt =>
    match s.k.cpu with
    | some i =>
      match s.k.table i with
      | some t => .guard (s.call i).isNone <|
          .next { s with k := { s.k.setTask i { t with state := .ready } with cpu := none } }
      | none => .refused
    | none => .refused
  | .dispatch i =>
    match s.k.table i with
    | some t => .guard (s.k.cpu == none && t.state == .ready) <|
        .next { s with k := { s.k.setTask i { t with state := .running } with cpu := some i } }
    | none => .refused

def Step (s : Sys) (a : Act) (s' : Sys) : Prop := exec s a = .next s'

/-- A task as `task_create` makes it in slot `i`. -/
structure Created (i : ℕ) (t : TaskT) : Prop where
  node : t.node = false
  state : t.state = .ready
  pid : t.pid = i
  ppid : t.ppid = 0

/-- After `task_init`: the idle task in slot 0, the first process in slot 1, and
any tasks created after them; nobody has been switched to yet. -/
structure Init (s : Sys) : Prop where
  created : ∀ i t, s.k.table i = some t → i < NR_TASKS ∧ Created i t
  idle : ∃ t, s.k.table 0 = some t
  first : ∃ t, s.k.table 1 = some t
  lists : ∀ l, s.k.lists l = []
  cpu : s.k.cpu = none
  serial : ∀ i j t u, s.k.table i = some t → s.k.table j = some u →
    s.serial i = s.serial j → i = j
  forks : ∀ i t, s.k.table i = some t → s.serial i < s.forks
  exits : s.exits = []
  reports : s.reports = []

end Onix.Task
