import Onix.Spec.Mutex
import Onix.Spec.Task

/-! The scheduler of `kernel/task.c` and `clock_handler` of `kernel/clock.c`, on the tasks
and lists of `Spec/Task`: which task `schedule` chooses, the sleep list, the time slices.
A call runs with the interrupts off until it returns or switches. -/

namespace Onix.Sched

open Function Onix.Task
open Mutex (ONIX_MAGIC)

/-- `1000 / HZ`. -/
def JIFFY : ℕ := 10

/-- `call i` is the argument of the `task_waitpid` that the task in slot `i` is inside of.
The code does not read `held`: how often the clock has come since the last `schedule`. -/
structure State where
  k : Kernel
  call : ℕ → Option ℤ
  magic : ℕ → ℕ
  jiffies : ℕ
  held : ℕ

inductive Act where
  | yield
  /-- The clock interrupt. -/
  | clock
  /-- The running task calls `task_block` for itself; `none` is the `NULL` list. -/
  | block (blist : Option ℕ) (state : TaskState)
  | unblock (i : ℕ)
  | sleep (ms : ℕ)
  | wakeup
  | fork
  | exit (status : ℤ)
  | waitpid (pid : ℤ)
  /-- The running task goes on in the loop of its `task_waitpid`. -/
  | resume

/-- `n` as an `int`. -/
def int32 (n : ℤ) : ℤ := Int.bmod n (2 ^ 32)

/-- `n` as a `u32`. -/
def u32 (n : ℤ) : ℕ := (n % 2 ^ 32).toNat

section Search

/-- `task_search` prefers `ptr` to `task`. -/
def better (task ptr : TaskT) : Bool := task.ticks < ptr.ticks || ptr.jiffies < task.jiffies

/-- One turn of the loop of `task_search` by the task in slot `current`. -/
def searchStep (k : Kernel) (current : ℕ) (state : TaskState) (best : Option (ℕ × TaskT)) (i : ℕ) :
    Option (ℕ × TaskT) :=
  match k.table i with
  | none => best
  | some ptr =>
    if ptr.state ≠ state then best
    else if current = i then best
    else
      match best with
      | none => some (i, ptr)
      | some (j, task) => if better task ptr then some (i, ptr) else some (j, task)

/-- `task_search(state)`; `idle_task` is in slot 0. -/
def taskSearch (k : Kernel) (current : ℕ) (state : TaskState) : Option ℕ :=
  match (List.range NR_TASKS).foldl (searchStep k current state) none with
  | some (i, _) => some i
  | none => if state = .ready then some 0 else none

end Search

/-- Change the task in slot `i`. -/
def modTask (k : Kernel) (i : ℕ) (f : TaskT → TaskT) : Kernel :=
  match k.table i with
  | none => k
  | some t => k.setTask i (f t)

/-- What `schedule` does to the task that calls it. -/
def outgoing (t : TaskT) : TaskT :=
  { t with
    state := if t.state = .running then .ready else t.state
    ticks := if t.ticks = 0 then t.priority else t.ticks }

variable (s : State)

/-- `schedule` by the task in slot `i`, with the switch. -/
def schedule (i : ℕ) : Outcome State :=
  match taskSearch s.k i .ready with
  | none => .failed
  | some n =>
    .assert (s.magic n == ONIX_MAGIC) <|
    let k := modTask s.k i outgoing
    let k := modTask k n fun t => { t with state := .running }
    .next { s with k := { k with cpu := some n }, held := 0 }

/-- `list_insert_sort` of `i` into the list `l`. -/
def insertSort (key : ℕ → ℤ) (i : ℕ) : List ℕ → List ℕ
  | [] => [i]
  | j :: l => if key j > key i then i :: j :: l else j :: insertSort key i l

/-- The `ticks` of the task in slot `i`. -/
def ticksOf (k : Kernel) (i : ℕ) : ℤ :=
  match k.table i with
  | none => 0
  | some t => t.ticks

/-- `task_sleep(ms)` by the task `t` in slot `i`. -/
def taskSleep (i : ℕ) (t : TaskT) (ms : ℕ) : Outcome State :=
  let ticks := if ms / JIFFY > 0 then ms / JIFFY else 1
  let t := { t with ticks := int32 (s.jiffies + ticks) }
  let k := s.k.setTask i t
  .assert (!t.node) <|
  let k := { k with lists := update k.lists .sleepList (insertSort (ticksOf k) i (k.lists .sleepList)) }
  let k := k.setTask i { t with node := true, state := .sleeping }
  schedule { s with k := { k with cpu := none } } i

/-- The loop of `task_wakeup` from the nodes `is` of the sleep list on. -/
def wakeLoop (jiffies : ℕ) : List ℕ → Kernel → Outcome Kernel
  | [], k => .next k
  | i :: is, k =>
    match k.table i with
    | none => .failed
    | some t =>
      if u32 t.ticks > jiffies then .next k
      else (taskUnblock k i { t with ticks := 0 }).andThen fun k => wakeLoop jiffies is k

/-- `task_wakeup()`. -/
def taskWakeup : Outcome State :=
  (wakeLoop s.jiffies (s.k.lists .sleepList) s.k).andThen fun k => .next { s with k := k }

/-- `clock_handler` up to `task->ticks--`, on the task in slot `i`. -/
def clockEntry (i : ℕ) : Outcome State :=
  (taskWakeup s).andThen fun s =>
  let s := { s with jiffies := (s.jiffies + 1) % 2 ^ 32 }
  .assert (s.magic i == ONIX_MAGIC) <|
  .next { s with k := modTask s.k i fun t => { t with jiffies := s.jiffies } }

/-- `clock_handler` from `task->ticks--` on. -/
def clockTick (i : ℕ) : Outcome State :=
  let s := { s with k := modTask s.k i fun t => { t with ticks := int32 (t.ticks - 1) }, held := s.held + 1 }
  if ticksOf s.k i = 0 then schedule s i else .next s

/-- The running task, as a process: a task other than the idle task, outside `task_waitpid`. -/
def process : Option (ℕ × TaskT) :=
  match s.k.cpu with
  | none => none
  | some i => if i = 0 || (s.call i).isSome then none else (s.k.table i).map fun t => (i, t)

/-- A pass of the loop of `task_waitpid(pid, &status)`. -/
def waitPass (i : ℕ) (t : TaskT) (pid : ℤ) : Outcome State :=
  (taskWaitpid s.k i t pid).andThen fun
    | (k, .waits) => schedule { s with k := k, call := update s.call i (some pid) } i
    | (k, _) => .next { s with k := k, call := update s.call i none }

/-- The list that `task_block` is given. -/
def blistOf : Option ℕ → ListId
  | none => .blockList
  | some n => .other n

/-- One action. The idle task only yields and takes interrupts; where the table is full
`task_fork` panics. -/
def exec (s : State) : Act → Outcome State
  | .yield =>
    match s.k.cpu with
    | some i => .guard (s.call i).isNone <| schedule s i
    | none => .refused
  | .clock =>
    match s.k.cpu with
    | some i => .guard (s.call i).isNone <| (clockEntry s i).andThen fun s => clockTick s i
    | none => .refused
  | .block blist state =>
    match process s with
    | some (i, t) => .guard (state == .blocked || state == .waiting) <|
        (taskBlock s.k i t (blistOf blist) state).andThen fun k => schedule { s with k := k } i
    | none => .refused
  | .unblock i =>
    match s.k.table i with
    | some t => .guard (t.state == .blocked || t.state == .waiting) <|
        (taskUnblock s.k i t).andThen fun k => .next { s with k := k }
    | none => .refused
  | .sleep ms =>
    match process s with
    | some (i, t) => taskSleep s i t ms
    | none => .refused
  | .wakeup => taskWakeup s
  | .fork =>
    match process s with
    | some (i, t) => .guard (getFreeTask s.k).isSome <|
        (taskFork s.k t).andThen fun (k, j) =>
        .next { s with k := k, call := update s.call j none, magic := update s.magic j (s.magic i) }
    | none => .refused
  | .exit status =>
    match process s with
    | some (i, t) => (taskExit s.k i t status).andThen fun k => schedule { s with k := k } i
    | none => .refused
  | .waitpid pid =>
    match process s with
    | some (i, t) => waitPass s i t pid
    | none => .refused
  | .resume =>
    match s.k.cpu with
    | none => .refused
    | some i =>
      match s.call i, s.k.table i with
      | some pid, some t => waitPass s i t pid
      | _, _ => .refused

def Step (s : State) (a : Act) (s' : State) : Prop := exec s a = .next s'

/-- A task as `task_create` makes it in slot `i`, or the one that has been switched to. -/
structure Created (s : State) (i : ℕ) (t : TaskT) : Prop where
  node : t.node = false
  state : t.state = if s.k.cpu = some i then .running else .ready
  pid : t.pid = i
  ppid : t.ppid = 0
  magic : s.magic i = ONIX_MAGIC

/-- The tasks of `task_init` and any created after them, one of them running. -/
structure Init (s : State) : Prop where
  created : ∀ i t, s.k.table i = some t → i < NR_TASKS ∧ Created s i t
  idle : ∃ t, s.k.table 0 = some t
  first : ∃ t, s.k.table 1 = some t
  lists : ∀ l, s.k.lists l = []
  running : ∃ i t, s.k.cpu = some i ∧ s.k.table i = some t
  call : ∀ i, s.call i = none

/-- The states in which a task's node is on a list. -/
def Linked (x : TaskState) : Prop := x = .blocked ∨ x = .sleeping ∨ x = .waiting

instance (x : TaskState) : Decidable (Linked x) := inferInstanceAs (Decidable (_ ∨ _))

end Onix.Sched
