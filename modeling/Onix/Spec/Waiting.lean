import Onix.Spec.Buffer
import Onix.Spec.Mutex

/-! `getblk` and `brelse` of `kernel/buffer.c` called by many tasks: a task that finds no
buffer waits in `wait_list`, a task that releases a dirty buffer waits for the device.
Between these the interrupts are off. -/

namespace Onix.Waiting

open Function
open Mutex (TaskState)

/-- Where a task is. -/
inductive Pc where
  /-- Outside `getblk` and `brelse`. -/
  | out
  /-- `getblk(dev, block)`: in the `task_block` of `get_free_buffer`. -/
  | waiting (dev block : ℕ)
  /-- `brelse(bf)`: in the `device_request` of `bwrite`. -/
  | writing (bf : ℕ)
  deriving DecidableEq

/-- The buffers, `wait_list` from head to tail, and the tasks. `cpu` is the running task,
`none` while `schedule` chooses; `linked` says that a task's node is on a list. -/
structure State (τ δ : Type) where
  pool : Buffer.State δ
  waitList : List τ
  cpu : Option τ
  state : τ → TaskState
  linked : τ → Bool
  pc : τ → Pc

inductive Act (τ δ : Type) where
  /-- The running task calls `getblk(dev, block)`. -/
  | getblk (dev block : ℕ)
  /-- The running task gives a buffer new contents and sets `dirty`. -/
  | modify (bf : ℕ) (d : δ)
  /-- The running task calls `brelse(bf)`. -/
  | brelse (bf : ℕ)
  /-- The clock interrupts the running task. -/
  | preempt
  /-- The device has written the buffer of a task. -/
  | written (t : τ)
  /-- `schedule` switches to a ready task. -/
  | dispatch (t : τ)

variable {τ δ : Type} [DecidableEq τ] (s : State τ δ) (t : τ)

def State.goto (p : Pc) : State τ δ := { s with pc := update s.pc t p }

/-- The state in which the node of `t` is on a list and `schedule` chooses. -/
def State.parked : State τ δ :=
  { s with linked := update s.linked t true, state := update s.state t .blocked, cpu := none }

/-- `task_block(running_task(), &wait_list, TASK_BLOCKED)` up to the switch. -/
def taskBlock : Outcome (State τ δ) :=
  .assert (!s.linked t) <|
  .assert (!s.waitList.contains t) <|
  .next ({ s with waitList := t :: s.waitList }.parked t)

/-- `list_remove(&task->node)` for a task in `wait_list`, or in no list any more. -/
def listRemove (w : τ) : Outcome (State τ δ) :=
  .assert (s.linked w) <|
  .next { s with waitList := s.waitList.erase w, linked := update s.linked w false }

/-- `task_unblock(task)`. -/
def taskUnblock (w : τ) : Outcome (State τ δ) :=
  (listRemove s w).andThen fun s => .next { s with state := update s.state w .ready }

/-- The end of `brelse`: `list_popback(&wait_list)` unless it is empty, and `task_unblock`
of the task it gives. -/
def wakeOne : Outcome (State τ δ) :=
  match s.waitList.getLast? with
  | none => .next s
  | some w => (listRemove s w).andThen fun s => taskUnblock s w

/-- `brelse` from `bf->count--` on. -/
def release (bf : ℕ) : Outcome (State τ δ) :=
  let b := s.pool.buffers bf
  let count := Buffer.int32 (b.count - 1)
  .assert (0 ≤ count) <|
  let s := { s with pool := s.pool.set bf { b with count := count } }
  if count ≠ 0 then .next s
  else
    .assert (!b.rnode) <|
    .assert (!s.pool.freeList.contains bf) <|
    wakeOne { s with pool := { s.pool.set bf { b with count := count, rnode := true } with
      freeList := bf :: s.pool.freeList } }

/-- `brelse(bf)`. -/
def brelse (bf : ℕ) : Outcome (State τ δ) :=
  if (s.pool.buffers bf).dirty then .next ((s.goto t (.writing bf)).parked t) else release s bf

/-- `brelse(bf)` after the `device_request` of its `bwrite`. -/
def afterWrite (bf : ℕ) : Outcome (State τ δ) :=
  let b := s.pool.buffers bf
  release { s with pool := s.pool.set bf { b with dirty := false, valid := true } } bf

/-- The loop of `get_free_buffer` and the rest of `getblk`. -/
def getFree (dev block : ℕ) : Outcome (State τ δ) :=
  match Buffer.getFreeBuffer s.pool with
  | .refused => taskBlock (s.goto t (.waiting dev block)) t
  | .failed => .failed
  | .next (pool, bf) =>
    .assert ((pool.buffers bf).count == 0) <|
    .assert ((pool.buffers bf).dirty == false) <|
    let pool := pool.set bf { pool.buffers bf with count := 1, dev := dev, block := block }
    (Buffer.hashLocate pool bf).andThen fun pool => .next ({ s with pool := pool }.goto t .out)

/-- `getblk(dev, block)`. -/
def getblk (dev block : ℕ) : Outcome (State τ δ) :=
  (Buffer.getFromHashTable s.pool dev block).andThen fun (pool, r) =>
  match r with
  | some bf =>
    let b := pool.buffers bf
    .next { s with pool := pool.set bf { b with count := Buffer.int32 (b.count + 1) } }
  | none => getFree { s with pool := pool } t dev block

/-- One action; a buffer that is released or changed is one that `getblk` can have given. -/
def exec (s : State τ δ) : Act τ δ → Outcome (State τ δ)
  | .getblk dev block =>
    match s.cpu with
    | some t => getblk s t dev block
    | none => .refused
  | .modify bf d =>
    .guard (s.cpu.isSome && bf < s.pool.carved && 0 < (s.pool.buffers bf).count) <|
    .next { s with pool := s.pool.set bf { s.pool.buffers bf with data := d, dirty := true } }
  | .brelse bf =>
    match s.cpu with
    | some t => .guard (bf < s.pool.carved) <| brelse s t bf
    | none => .refused
  | .preempt =>
    match s.cpu with
    | some t => .next { s with state := update s.state t .ready, cpu := none }
    | none => .refused
  | .written t =>
    match s.pc t with
    | .writing bf => .guard (s.state t == .blocked) <|
        .next { s with
          pool := { s.pool with disk := update s.pool.disk (s.pool.buffers bf).key (s.pool.buffers bf).data }
          linked := update s.linked t false, state := update s.state t .ready }
    | _ => .refused
  | .dispatch t => .guard (s.cpu == none && s.state t == .ready) <|
      let s := { s with state := update s.state t .running, cpu := some t }
      match s.pc t with
      | .out => .next s
      | .waiting dev block => getFree s t dev block
      | .writing bf => afterWrite (s.goto t .out) bf

def Step (s : State τ δ) (a : Act τ δ) (s' : State τ δ) : Prop := exec s a = .next s'

/-- After `buffer_init`, in memory that is zero, before any task has called it. -/
structure Init (s : State τ δ) : Prop where
  carved : s.pool.carved = 0
  freeList : s.pool.freeList = []
  hashTable : ∀ i, s.pool.hashTable i = []
  zero : ∀ bf, (s.pool.buffers bf).hnode = false ∧ (s.pool.buffers bf).rnode = false
  waitList : s.waitList = []
  pc : ∀ t, s.pc t = .out
  cpu : ∀ t, s.state t = .running ↔ s.cpu = some t
  linked : ∀ t, s.linked t = true ↔ s.state t = .blocked

/-- At most one buffer for each block is in the hash table. -/
def Unique (s : State τ δ) : Prop := ∀ i j a b, a ∈ s.pool.hashTable i → b ∈ s.pool.hashTable j →
  (s.pool.buffers a).key = (s.pool.buffers b).key → a = b

end Onix.Waiting
