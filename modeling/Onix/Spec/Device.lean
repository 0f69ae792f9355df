import Onix.Lib.Chain
import Onix.Lib.Outcome

/-! `device_request` of `kernel/device.c`: the request list of a disk, which the
tasks hand on to one another. What `do_request` does is left open: it may block
any number of times. -/

namespace Onix.Device

open Function

def DEVICE_NR : ℕ := 64

def ONIX_MAGIC : ℕ := 0x20220205

inductive DeviceType where
  | null | char | block
  deriving DecidableEq

/-- `REQ_READ` and `REQ_WRITE`. -/
inductive ReqType where
  | read | write
  deriving DecidableEq

/-- `DIRECT_UP` and `DIRECT_DOWN`. -/
inductive Direct where
  | up | down
  deriving DecidableEq

/-- `request_t`; `nr` stands for the address that `kmalloc` gave. The links of a
new request are `NULL`: its memory comes zeroed or from an earlier request. -/
structure RequestT (τ : Type*) where
  nr : ℕ
  dev : ℕ
  type : ReqType
  idx : ℕ
  count : ℕ
  flags : ℤ
  buf : ℕ
  task : Option τ
  deriving DecidableEq

/-- `device_t`; `sectorStart` is what `ioctl` answers to `DEV_CMD_SECTOR_START`,
`requestList` the list from `head.next` to `tail.prev`. -/
structure DeviceT (τ : Type*) where
  type : DeviceType
  parent : ℕ
  sectorStart : ℕ
  requestList : List (RequestT τ)
  direct : Direct

inductive TaskState where
  | ready | running | blocked
  deriving DecidableEq

/-- Where a task is in its call of `device_request` for a disk. -/
inductive Pc (τ : Type*) where
  /-- Outside `device_request`. -/
  | out
  /-- In `task_block`, before `do_request`. -/
  | queued (disk : ℕ) (req : RequestT τ)
  /-- In `do_request`. -/
  | serving (disk : ℕ) (req : RequestT τ)
  deriving DecidableEq

/-- `cpu` is the running task, `linked` says that a task's node is on a list.
`made` are the requests so far and `performed` those that `do_request` was called
for; the code reads neither. -/
structure State (τ : Type*) where
  devices : ℕ → DeviceT τ
  cpu : Option τ
  state : τ → TaskState
  linked : τ → Bool
  magic : τ → ℕ
  pc : τ → Pc τ
  made : List (RequestT τ)
  performed : List (RequestT τ)

/-- What the running task does up to its next blocking point, and what the
scheduler and interrupts do in between. -/
inductive Act (τ : Type*) where
  /-- The running task calls `device_request`. -/
  | request (dev buf count idx : ℕ) (flags : ℤ) (type : ReqType)
  /-- It blocks in `do_request`. -/
  | pause
  /-- Its `do_request` returns. -/
  | finish
  /-- Outside `device_request` it blocks on something else. -/
  | block
  /-- Outside `device_request` it gives the processor up. -/
  | preempt
  /-- A task blocked in `do_request` or on something else is made ready. -/
  | wake (t : τ)
  /-- `schedule` switches to a ready task. -/
  | dispatch (t : τ)

variable {τ : Type*} [DecidableEq τ]

namespace State

variable (s : State τ)

def goto (t : τ) (p : Pc τ) : State τ := { s with pc := update s.pc t p }

def setList (disk : ℕ) (l : List (RequestT τ)) (direct : Direct) : State τ :=
  let device := { s.devices disk with requestList := l, direct := direct }
  { s with devices := update s.devices disk device }

end State

/-- `element_node_key(node, offset)` of a request's `idx`. -/
def RequestT.key (req : RequestT τ) : ℤ := Int.bmod req.idx (2 ^ 32)

/-- `list_insert_sort`: before the first request with a greater key. -/
def listInsertSort (l : List (RequestT τ)) (req : RequestT τ) : List (RequestT τ) :=
  l.orderedInsert (fun req ptr => req.key < ptr.key) req

/-- `request_nextreq`: the request, and the direction from then on. -/
def requestNextreq (device : DeviceT τ) (req : RequestT τ) : Option (RequestT τ) × Direct :=
  let next := Chain.next RequestT.nr device.requestList req.nr
  let prev := Chain.prev RequestT.nr device.requestList req.nr
  let direct :=
    if device.direct = .up ∧ next = none then .down
    else if device.direct = .down ∧ prev = none then .up
    else device.direct
  (if direct = .up then next else prev, direct)

variable (s : State τ) (t : τ)

/-- `task_block(task, NULL, TASK_BLOCKED)` by the running task. -/
def taskBlock : Outcome (State τ) :=
  .assert (!s.linked t) <|
  .next { s with
    linked := update s.linked t true, state := update s.state t .blocked, cpu := none }

/-- `task_unblock(task)`. -/
def taskUnblock : Outcome (State τ) :=
  .assert (s.linked t) <|
  .next { s with linked := update s.linked t false, state := update s.state t .ready }

/-- `device_get(dev)`. -/
def deviceGet (dev : ℕ) (k : DeviceT τ → Outcome (State τ)) : Outcome (State τ) :=
  .assert (dev < DEVICE_NR) <|
  .assert ((s.devices dev).type ≠ .null) <|
  k (s.devices dev)

/-- The call of `do_request(req)`. -/
def enterRequest (disk : ℕ) (req : RequestT τ) : State τ :=
  { s.goto t (.serving disk req) with performed := s.performed ++ [req] }

/-- `device_request` up to `do_request`, or to the task's blocking before it. -/
def deviceRequest (dev buf count idx : ℕ) (flags : ℤ) (type : ReqType) : Outcome (State τ) :=
  deviceGet s dev fun device =>
  .assert (device.type = .block) <|
  let offset := (idx + device.sectorStart) % 2 ^ 32
  let disk := if device.parent ≠ 0 then device.parent else dev
  deviceGet s disk fun device =>
  let req := ⟨s.made.length, disk, type, offset, count, flags, buf, none⟩
  if device.requestList = [] then
    let s := s.setList disk (listInsertSort device.requestList req) device.direct
    .next (enterRequest { s with made := s.made ++ [req] } t disk req)
  else
    let req := { req with task := some t }
    let s := s.setList disk (listInsertSort device.requestList req) device.direct
    taskBlock ({ s with made := s.made ++ [req] }.goto t (.queued disk req)) t

/-- `device_request` from the return of `do_request` on. -/
def endRequest (disk : ℕ) (req : RequestT τ) : Outcome (State τ) :=
  let device := s.devices disk
  let (nextreq, direct) := requestNextreq device req
  let s := (s.setList disk (Chain.remove RequestT.nr device.requestList req.nr) direct).goto t .out
  match nextreq with
  | none => .next s
  | some nextreq =>
    match nextreq.task with
    | none => .failed
    | some u =>
      .assert (s.magic u == ONIX_MAGIC) <|
      taskUnblock s u

def exec (s : State τ) : Act τ → Outcome (State τ)
  | .request dev buf count idx flags type =>
    match s.cpu with
    | some t => .guard (s.pc t = .out) <| deviceRequest s t dev buf count idx flags type
    | none => .refused
  | .pause =>
    match s.cpu with
    | some t =>
      match s.pc t with
      | .serving _ _ => taskBlock s t
      | _ => .refused
    | none => .refused
  | .finish =>
    match s.cpu with
    | some t =>
      match s.pc t with
      | .serving disk req => endRequest s t disk req
      | _ => .refused
    | none => .refused
  | .block =>
    match s.cpu with
    | some t => .guard (s.pc t = .out) <| taskBlock s t
    | none => .refused
  | .preempt =>
    match s.cpu with
    | some t => .guard (s.pc t = .out) <|
        .next { s with state := update s.state t .ready, cpu := none }
    | none => .refused
  | .wake u =>
    match s.pc u with
    | .queued _ _ => .refused
    | _ => .guard (s.state u = .blocked) <| taskUnblock s u
  | .dispatch u =>
    .guard (s.cpu = none ∧ s.state u = .ready) <|
    .assert (s.magic u == ONIX_MAGIC) <|
    let s := { s with state := update s.state u .running, cpu := some u }
    match s.pc u with
    | .queued disk req => .next (enterRequest s u disk req)
    | _ => .next s

def Step (s : State τ) (a : Act τ) (s' : State τ) : Prop := exec s a = .next s'

/-- Before any task has called `device_request`. -/
structure Init (s : State τ) : Prop where
  empty : ∀ d, (s.devices d).requestList = []
  pc : ∀ t, s.pc t = .out
  cpu : ∀ t, s.state t = .running ↔ s.cpu = some t
  linked : ∀ t, s.linked t = true ↔ s.state t = .blocked
  magic : ∀ t, s.magic t = ONIX_MAGIC
  made : s.made = []
  performed : s.performed = []

end Onix.Device
