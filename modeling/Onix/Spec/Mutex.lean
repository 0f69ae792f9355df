import Onix.Lib.Outcome

/-! `kernel/mutex.c`: the reentrant `lock_t` over `mutex_t`, run by tasks that
the clock may preempt between any two statements outside the
interrupt-disabled parts of `mutex_lock` and `mutex_unlock`. -/

namespace Onix.Mutex

open Function

def ONIX_MAGIC : ℕ := 0x20220205

/-- The states of `task_state_t` that the lock code can see a task in;
`blocked` is any state in which the task's node is on a list. -/
inductive TaskState where
  | ready | running | blocked
  deriving DecidableEq

/-- The statement a task executes next. -/
inductive Pc where
  /-- Outside `lock_acquire` and `lock_release`. -/
  | out
  /-- `lock_acquire`: `holder != current` was seen, `mutex_lock` is to be called. -/
  | locking
  /-- `mutex_lock`: in `task_block` inside the loop, the test of `value` comes next. -/
  | retest
  /-- `mutex_lock` has returned, `lock->holder = current` comes next. -/
  | locked
  /-- `assert(lock->repeat == 0)` comes next. -/
  | owned
  /-- `lock->repeat = 1` comes next. -/
  | counting
  /-- `lock->repeat++` comes next. -/
  | nesting
  /-- `lock_release`: the holder was checked, `lock->repeat > 1` comes next. -/
  | releasing
  /-- `lock->repeat--` comes next. -/
  | unnesting
  /-- `assert(lock->repeat == 1)` comes next. -/
  | last
  /-- `lock->holder = NULL` comes next. -/
  | dropping
  /-- `lock->repeat = 0` comes next. -/
  | clearing
  /-- The call of `mutex_unlock` comes next. -/
  | unlocking
  /-- `mutex_unlock`: in the `task_yield`, only the return is left. -/
  | yielded
  deriving DecidableEq

/-- `mutex_t`; `waiters` is the list from `head.next` to `tail.prev`. -/
structure MutexT (τ : Type*) where
  value : Bool
  waiters : List τ

/-- `lock_t`; `repeats` is the `u32 repeat`. -/
structure LockT (τ : Type*) where
  holder : Option τ
  mutex : MutexT τ
  repeats : ℕ

/-- The lock and the tasks. `cpu` is the running task, `none` while `schedule`
chooses (or the idle task runs). `linked` says that a task's node is on a list.
`depth` counts the calls of `lock_acquire` that returned less the calls of
`lock_release`; the code does not read it. -/
structure State (τ : Type*) where
  lock : LockT τ
  cpu : Option τ
  state : τ → TaskState
  linked : τ → Bool
  magic : τ → ℕ
  pc : τ → Pc
  depth : τ → ℕ

inductive Act (τ : Type*) where
  /-- The running task calls `lock_acquire`. -/
  | acquire
  /-- The running task calls `lock_release`. -/
  | release
  /-- The running task executes its next statement of the call it is in. -/
  | step
  /-- The clock interrupt calls `schedule`. -/
  | preempt
  /-- The running task, outside the lock code, blocks on something else. -/
  | block
  /-- A task blocked on something else is made ready. -/
  | wake (t : τ)
  /-- `schedule` switches to a ready task. -/
  | dispatch (t : τ)

variable {τ : Type*} [DecidableEq τ]

namespace State

variable (s : State τ) (t : τ)

def goto (p : Pc) : State τ := { s with pc := update s.pc t p }

def setLock (l : LockT τ) : State τ := { s with lock := l }

def setDepth (d : ℕ) : State τ := { s with depth := update s.depth t d }

end State

variable (s : State τ) (t : τ)

/-- `schedule` leaves a running task ready and gives up the processor. -/
def yieldCpu : State τ :=
  { s with state := update s.state t .ready, cpu := none }

/-- `task_block(current, &mutex->waiters, TASK_BLOCKED)` up to the switch. -/
def taskBlock : Outcome (State τ) :=
  .assert (!s.linked t) <|
  .assert (!s.lock.mutex.waiters.contains t) <|
  .next { s with
    lock := { s.lock with mutex := { s.lock.mutex with waiters := t :: s.lock.mutex.waiters } }
    linked := update s.linked t true
    state := update s.state t .blocked
    cpu := none }

/-- `task_unblock(task)` for the task whose node is `tail.prev`. -/
def taskUnblock (w : τ) : Outcome (State τ) :=
  .assert (s.linked w) <|
  .next { s with
    lock := { s.lock with
      mutex := { s.lock.mutex with waiters := s.lock.mutex.waiters.dropLast } }
    linked := update s.linked w false
    state := update s.state w .ready }

/-- `mutex_lock` from the test of its loop: block again, or leave the loop and
take the mutex. `value++` on a `_Bool` stores true. -/
def mutexLock : Outcome (State τ) :=
  if s.lock.mutex.value = true then taskBlock (s.goto t .retest) t
  else
    .assert (s.lock.mutex.value == false) <|
    .next ((s.setLock { s.lock with mutex := { s.lock.mutex with value := true } }).goto t .locked)

/-- `mutex_unlock` up to its `task_yield`, or to its end where nobody waits.
`value--` on a `_Bool` toggles it. -/
def mutexUnlock : Outcome (State τ) :=
  .assert (s.lock.mutex.value == true) <|
  let v := !s.lock.mutex.value
  .assert (v == false) <|
  let s := s.setLock { s.lock with mutex := { s.lock.mutex with value := v } }
  match s.lock.mutex.waiters.getLast? with
  | some w =>
    .assert (s.magic w == ONIX_MAGIC) <|
    match taskUnblock s w with
    | .next s => .next (yieldCpu (s.goto t .yielded) t)
    | o => o
  | none => .next (s.goto t .out)

/-- The next statement of `lock_acquire` or `lock_release`. -/
def statement : Outcome (State τ) :=
  let l := s.lock
  match s.pc t with
  | .out | .retest | .yielded => .refused
  | .locking => mutexLock s t
  | .locked => .next ((s.setLock { l with holder := some t }).goto t .owned)
  | .owned => .assert (l.repeats == 0) <| .next (s.goto t .counting)
  | .counting =>
    .next (((s.setLock { l with repeats := 1 }).goto t .out).setDepth t (s.depth t + 1))
  | .nesting =>
    .next (((s.setLock { l with repeats := (l.repeats + 1) % 2 ^ 32 }).goto t .out).setDepth t
      (s.depth t + 1))
  | .releasing => .next (s.goto t (if l.repeats > 1 then .unnesting else .last))
  | .unnesting => .next ((s.setLock { l with repeats := l.repeats - 1 }).goto t .out)
  | .last => .assert (l.repeats == 1) <| .next (s.goto t .dropping)
  | .dropping => .next ((s.setLock { l with holder := none }).goto t .clearing)
  | .clearing => .next ((s.setLock { l with repeats := 0 }).goto t .unlocking)
  | .unlocking => mutexUnlock s t

/-- One action. Nested calls are released as often as they were acquired:
`release` needs a positive depth. -/
def exec (s : State τ) : Act τ → Outcome (State τ)
  | .acquire =>
    match s.cpu with
    | some t => .guard (s.pc t == .out) <|
        .next (s.goto t (if s.lock.holder ≠ some t then .locking else .nesting))
    | none => .refused
  | .release =>
    match s.cpu with
    | some t => .guard (s.pc t == .out && 0 < s.depth t) <|
        .assert (s.lock.holder == some t) <|
        .next ((s.goto t .releasing).setDepth t (s.depth t - 1))
    | none => .refused
  | .step =>
    match s.cpu with
    | some t => statement s t
    | none => .refused
  | .preempt =>
    match s.cpu with
    | some t => .next (yieldCpu s t)
    | none => .refused
  | .block =>
    match s.cpu with
    | some t => .guard (s.pc t == .out) <|
        .next { s with
          linked := update s.linked t true, state := update s.state t .blocked, cpu := none }
    | none => .refused
  | .wake u => .guard (s.state u == .blocked && s.pc u == .out) <|
      .next { s with linked := update s.linked u false, state := update s.state u .ready }
  | .dispatch u => .guard (s.cpu == none && s.state u == .ready) <|
      .assert (s.magic u == ONIX_MAGIC) <|
      let s := { s with state := update s.state u .running, cpu := some u }
      -- the interrupts stay off from `schedule` to the end of `mutex_lock`'s next test
      match s.pc u with
      | .retest => mutexLock s u
      | .yielded => .next (s.goto u .out)
      | _ => .next s

def Step (s : State τ) (a : Act τ) (s' : State τ) : Prop := exec s a = .next s'

/-- After `lock_init`, before any task has called the lock code. -/
structure Init (s : State τ) : Prop where
  holder : s.lock.holder = none
  value : s.lock.mutex.value = false
  waiters : s.lock.mutex.waiters = []
  repeats : s.lock.repeats = 0
  pc : ∀ t, s.pc t = .out
  depth : ∀ t, s.depth t = 0
  magic : ∀ t, s.magic t = ONIX_MAGIC
  cpu : ∀ t, s.state t = .running ↔ s.cpu = some t
  linked : ∀ t, s.linked t = true ↔ s.state t = .blocked

end Onix.Mutex
