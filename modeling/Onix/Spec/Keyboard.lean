import Onix.Lib.Outcome
import Onix.Spec.Fifo
import Onix.Spec.Keymap
import Onix.Spec.Mutex

/-! `kernel/keyboard.c` at run time: the interrupt queues characters, tasks read them under
a lock. The interrupts are off in the handler and in system calls, so that a task is only
interrupted where it blocks, where it yields and outside `keyboard_read`. -/

namespace Onix.Keyboard

open Function
open Mutex (TaskState LockT MutexT)

def BUFFER_SIZE : ℕ := 64

/-- Where a task is that does not run; a running task is at `out`. -/
inductive Pc where
  /-- Outside `keyboard_read`. -/
  | out
  /-- `keyboard_read` of `count` characters: in the `task_block` of `mutex_lock`. -/
  | acquiring (count : ℕ)
  /-- `keyboard_read`: in its `task_block`, `left` characters are still to come. -/
  | reading (left : ℕ)
  /-- `mutex_unlock`: in the `task_yield`, only the returns are left. -/
  | yielded
  deriving DecidableEq

/-- The keyboard and the tasks. `cpu` is the running task, `none` while `schedule` chooses;
`linked` says that a task's node is on a list. The code does not read the rest, nor the
number that goes with a character in `fifo`: `queued` are the characters given to `fifo_put`,
`delivered` and `dropped` those that `keyboard_read` and `fifo_put` took out of the queue. -/
structure State (τ : Type*) where
  keys : Keys
  fifo : Fifo (Byte × ℕ)
  waiter : Option τ
  lock : LockT τ
  cpu : Option τ
  state : τ → TaskState
  linked : τ → Bool
  pc : τ → Pc
  queued : List Byte
  delivered : List (Byte × ℕ)
  dropped : List (Byte × ℕ)

inductive Act (τ : Type*) where
  /-- The keyboard interrupts with a scan code. -/
  | interrupt (code : Byte)
  /-- The running task calls `keyboard_read`. -/
  | read (count : ℕ)
  /-- The clock interrupts the running task. -/
  | preempt
  /-- The running task blocks on something else. -/
  | block
  /-- A task blocked on something else is made ready. -/
  | wake (t : τ)
  /-- `schedule` switches to a ready task. -/
  | dispatch (t : τ)

variable {τ : Type*} [DecidableEq τ] (s : State τ) (t : τ)

def State.goto (p : Pc) : State τ := { s with pc := update s.pc t p }

/-- `schedule` leaves a running task ready and gives up the processor. -/
def yieldCpu : State τ := { s with state := update s.state t .ready, cpu := none }

/-- `task_block(t, .., TASK_BLOCKED)`, without the list, up to the switch. -/
def taskBlock : Outcome (State τ) :=
  .assert (!s.linked t) <|
  .next { s with linked := update s.linked t true, state := update s.state t .blocked, cpu := none }

/-- `task_unblock(w)`: `list_remove` takes the node from the list it is in. -/
def taskUnblock (w : τ) : Outcome (State τ) :=
  .assert (s.linked w) <|
  .next { s with
    lock := { s.lock with mutex := { s.lock.mutex with waiters := s.lock.mutex.waiters.erase w } }
    linked := update s.linked w false
    state := update s.state w .ready }

/-- `mutex_unlock`. -/
def mutexUnlock : Outcome (State τ) :=
  .assert (s.lock.mutex.value == true) <|
  let v := !s.lock.mutex.value
  .assert (v == false) <|
  let s := { s with lock := { s.lock with mutex := { s.lock.mutex with value := v } } }
  match s.lock.mutex.waiters.getLast? with
  | some w => (taskUnblock s w).andThen fun s => .next (yieldCpu (s.goto t .yielded) t)
  | none => .next (s.goto t .out)

/-- `lock_release`, the end of `keyboard_read`. -/
def lockRelease : Outcome (State τ) :=
  .assert (s.lock.holder == some t) <|
  if 1 < s.lock.repeats then
    .next ({ s with lock := { s.lock with repeats := s.lock.repeats - 1 } }.goto t .out)
  else
    .assert (s.lock.repeats == 1) <|
    mutexUnlock { s with lock := { s.lock with holder := none, repeats := 0 } } t

/-- The loop of `keyboard_read`, with `left` characters to come. -/
def readLoop (s : State τ) (t : τ) : (left : ℕ) → Outcome (State τ)
  | 0 => lockRelease s t
  | n + 1 =>
    if s.fifo.empty then taskBlock ({ s with waiter := some t }.goto t (.reading (n + 1))) t
    else
      match s.fifo.get with
      | none => .failed
      | some (ch, fifo) => readLoop { s with fifo := fifo, delivered := s.delivered ++ [ch] } t n

/-- `mutex_lock` from the test of its loop, and the rest of `keyboard_read`. -/
def mutexLock (count : ℕ) : Outcome (State τ) :=
  if s.lock.mutex.value = true then
    .assert (!s.lock.mutex.waiters.contains t) <|
    taskBlock ({ s with lock := { s.lock with
      mutex := { s.lock.mutex with waiters := t :: s.lock.mutex.waiters } } }.goto t
        (.acquiring count)) t
  else
    .assert (s.lock.mutex.value == false) <|
    .assert (s.lock.repeats == 0) <|
    readLoop { s with lock := ⟨some t, { s.lock.mutex with value := true }, 1⟩ } t count

/-- `keyboard_read`. -/
def keyboardRead (count : ℕ) : Outcome (State τ) :=
  if s.lock.holder ≠ some t then mutexLock s t count
  else readLoop { s with lock := { s.lock with repeats := s.lock.repeats + 1 } } t count

/-- `keyboard_handler`. -/
def keyboardHandler (code : Byte) : Outcome (State τ) :=
  let (keys, ch) := scan s.keys code
  let s := { s with keys := keys }
  match ch with
  | none => .next s
  | some ch =>
    match s.fifo.put (ch, s.queued.length) with
    | none => .failed
    | some (dropped, fifo) =>
      let s := { s with
        fifo := fifo, queued := s.queued ++ [ch], dropped := s.dropped ++ dropped }
      match s.waiter with
      | none => .next s
      | some w => (taskUnblock s w).andThen fun s => .next { s with waiter := none }

/-- One action. -/
def exec (s : State τ) : Act τ → Outcome (State τ)
  | .interrupt code => keyboardHandler s code
  | .read count =>
    match s.cpu with
    | some t => .guard (s.pc t == .out) <| keyboardRead s t count
    | none => .refused
  | .preempt =>
    match s.cpu with
    | some t => .guard (s.pc t == .out) <| .next (yieldCpu s t)
    | none => .refused
  | .block =>
    match s.cpu with
    | some t => .guard (s.pc t == .out) <| taskBlock s t
    | none => .refused
  | .wake u => .guard (s.state u == .blocked && s.pc u == .out) <| taskUnblock s u
  | .dispatch u => .guard (s.cpu == none && s.state u == .ready) <|
      let now := { s.goto u .out with state := update s.state u .running, cpu := some u }
      match s.pc u with
      | .out | .yielded => .next now
      | .acquiring count => mutexLock now u count
      | .reading left => readLoop now u left

def Step (s : State τ) (a : Act τ) (s' : State τ) : Prop := exec s a = .next s'

/-- After `keyboard_init`, before any task has called `keyboard_read`. -/
structure Init (s : State τ) : Prop where
  fifo : ∃ buf, s.fifo = Fifo.init buf BUFFER_SIZE
  waiter : s.waiter = none
  lock : s.lock = ⟨none, ⟨false, []⟩, 0⟩
  pc : ∀ t, s.pc t = .out
  cpu : ∀ t, s.state t = .running ↔ s.cpu = some t
  linked : ∀ t, s.linked t = true ↔ s.state t = .blocked
  queued : s.queued = []
  delivered : s.delivered = []
  dropped : s.dropped = []

/-- The characters that were queued and neither delivered nor dropped, with their numbers. -/
def State.undelivered : List (Byte × ℕ) := s.fifo.contents

/-- A task that waits in `keyboard_read` for a character. -/
def Sleeping (s : State τ) (t : τ) : Prop := (∃ n, s.pc t = .reading n) ∧ s.state t = .blocked

/-- A task in `keyboard_read` is ready to run. -/
def Awake (s : State τ) : Prop :=
  ∃ t, ((∃ n, s.pc t = .acquiring n) ∨ ∃ n, s.pc t = .reading n) ∧ s.state t = .ready

/-- From `s` to `s'` nothing is dropped, or the oldest undelivered character is, and there
are as many undelivered ones as the queue holds. -/
def Drops (s s' : State τ) : Prop :=
  s'.dropped = s.dropped ∨ ∃ ch rest, s.undelivered = ch :: rest ∧
    s.undelivered.length = BUFFER_SIZE - 1 ∧ s'.dropped = s.dropped ++ [ch]

end Onix.Keyboard
