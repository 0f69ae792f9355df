import Onix.Lib.Outcome
import Onix.Spec.Mutex

/-! `kernel/mutex.c` again, `mutex_t` alone: tasks that call `mutex_lock` and
`mutex_unlock` under any choice of the scheduler, with the order in which they called. -/

namespace Onix.Handoff

open Function
open Mutex (TaskState MutexT ONIX_MAGIC)

/-- Where a task is. -/
inductive Pc where
  /-- Outside `mutex_lock` and `mutex_unlock`. -/
  | out
  /-- `mutex_lock`: in `task_block` inside the loop, the test of `value` comes next. -/
  | retest
  /-- `mutex_unlock`: in the `task_yield`, only the return is left. -/
  | yielded
  deriving DecidableEq

/-- The mutex and the tasks. `cpu` is the running task, `none` while `schedule` chooses.
The code does not read the rest: `owner` took the mutex, `due` was made ready by
`mutex_unlock` and nobody has taken the mutex since, `arrival` is the number of a task's
call of `mutex_lock`. -/
structure State (τ : Type*) where
  mutex : MutexT τ
  cpu : Option τ
  state : τ → TaskState
  linked : τ → Bool
  magic : τ → ℕ
  pc : τ → Pc
  owner : Option τ
  due : Option τ
  arrival : τ → ℕ
  calls : ℕ

inductive Act (τ : Type*) where
  /-- The running task calls `mutex_lock`. -/
  | lock
  /-- The running task calls `mutex_unlock`. -/
  | unlock
  /-- The clock interrupt calls `schedule`. -/
  | preempt
  /-- The running task blocks on something else. -/
  | block
  /-- A task blocked on something else is made ready. -/
  | wake (t : τ)
  /-- `schedule` switches to a ready task. -/
  | dispatch (t : τ)

variable {τ : Type*} [DecidableEq τ] (s : State τ) (t : τ)

def State.goto (p : Pc) : State τ := { s with pc := update s.pc t p }

/-- `t` has called `mutex_lock`. -/
def State.called : State τ :=
  { s with arrival := update s.arrival t s.calls, calls := s.calls + 1 }

/-- `schedule` leaves a running task ready and gives up the processor. -/
def yieldCpu : State τ := { s with state := update s.state t .ready, cpu := none }

/-- The state in which the node of `t` is on a list and `schedule` chooses. -/
def State.parked : State τ :=
  { s with linked := update s.linked t true, state := update s.state t .blocked, cpu := none }

/-- `task_block(current, &mutex->waiters, TASK_BLOCKED)` up to the switch. -/
def taskBlock : Outcome (State τ) :=
  .assert (!s.linked t) <|
  .assert (!s.mutex.waiters.contains t) <|
  .next ({ s with mutex := { s.mutex with waiters := t :: s.mutex.waiters } }.parked t)

/-- `task_unblock(task)` for the task whose node is `tail.prev`. -/
def taskUnblock (w : τ) : Outcome (State τ) :=
  .assert (s.linked w) <|
  .next { s with
    mutex := { s.mutex with waiters := s.mutex.waiters.dropLast }
    linked := update s.linked w false
    state := update s.state w .ready }

/-- `mutex_lock` from the test of its loop: block again, or leave the loop and
take the mutex. `value++` on a `_Bool` stores true. -/
def mutexLock : Outcome (State τ) :=
  if s.mutex.value = true then taskBlock (s.goto t .retest) t
  else
    .assert (s.mutex.value == false) <|
    .next ({ s with mutex := { s.mutex with value := true }, owner := some t, due := none }.goto
      t .out)

/-- `mutex_unlock` up to its `task_yield`, or to its end where nobody waits.
`value--` on a `_Bool` toggles it. -/
def mutexUnlock : Outcome (State τ) :=
  .assert (s.mutex.value == true) <|
  let v := !s.mutex.value
  .assert (v == false) <|
  let s := { s with mutex := { s.mutex with value := v }, owner := none }
  match s.mutex.waiters.getLast? with
  | some w =>
    .assert (s.magic w == ONIX_MAGIC) <|
    (taskUnblock s w).andThen fun s => .next (yieldCpu ({ s with due := some w }.goto t .yielded) t)
  | none => .next { s with due := none }

/-- One action. -/
def exec (s : State τ) : Act τ → Outcome (State τ)
  | .lock =>
    match s.cpu with
    | some t => .guard (s.pc t == .out) <| mutexLock (s.called t) t
    | none => .refused
  | .unlock =>
    match s.cpu with
    | some t => .guard (s.pc t == .out) <| mutexUnlock s t
    | none => .refused
  | .preempt =>
    match s.cpu with
    | some t => .next (yieldCpu s t)
    | none => .refused
  | .block =>
    match s.cpu with
    | some t => .guard (s.pc t == .out) <| .next (s.parked t)
    | none => .refused
  | .wake u => .guard (s.state u == .blocked && s.pc u == .out) <|
      .next { s with linked := update s.linked u false, state := update s.state u .ready }
  | .dispatch u => .guard (s.cpu == none && s.state u == .ready) <|
      .assert (s.magic u == ONIX_MAGIC) <|
      let s := { s with state := update s.state u .running, cpu := some u }
      -- the interrupts stay off from `schedule` to the end of `mutex_lock`'s next test
      match s.pc u with
      | .retest => mutexLock s u
      | .yielded => .next (s.goto u .out)
      | .out => .next s

def Step (s : State τ) (a : Act τ) (s' : State τ) : Prop := exec s a = .next s'

/-- After `mutex_init`, before any task has called it. -/
structure Init (s : State τ) : Prop where
  value : s.mutex.value = false
  waiters : s.mutex.waiters = []
  pc : ∀ t, s.pc t = .out
  magic : ∀ t, s.magic t = ONIX_MAGIC
  cpu : ∀ t, s.state t = .running ↔ s.cpu = some t
  linked : ∀ t, s.linked t = true ↔ s.state t = .blocked
  due : s.due = none

/-- From `s` to `s'`, `t` takes the mutex. -/
def Takes (s s' : State τ) (t : τ) : Prop :=
  s.mutex.value = false ∧ s'.mutex.value = true ∧ s'.owner = some t

/-- `w` is in `mutex_lock` and has been since before every other task that is. -/
def Longest (s : State τ) (w : τ) : Prop :=
  s.pc w = .retest ∧ ∀ u, s.pc u = .retest → u ≠ w → s.arrival w < s.arrival u

end Onix.Handoff
