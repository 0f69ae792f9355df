import Onix.Lib.Ata
import Onix.Lib.Outcome

/-! `kernel/ide.c`: the transfers of any number of tasks on the two disks of a controller, with
interrupts on. Interrupts are off in the driver from the call on, except while the task is blocked. -/

namespace Onix.Ide

open Function Ata

def IDE_FEATURE : ℕ := 1
def IDE_SECTOR : ℕ := 2
def IDE_LBA_LOW : ℕ := 3
def IDE_LBA_MID : ℕ := 4
def IDE_LBA_HIGH : ℕ := 5
def IDE_HDDEVSEL : ℕ := 6
def IDE_COMMAND : ℕ := 7

def IDE_CMD_READ : BitVec 8 := 0x20
def IDE_CMD_WRITE : BitVec 8 := 0x30

def IDE_SR_NULL : BitVec 8 := 0x00
def IDE_SR_DRQ : BitVec 8 := 0x08
def IDE_SR_DRDY : BitVec 8 := 0x40
def IDE_SR_BSY : BitVec 8 := 0x80

def IDE_LBA_MASTER : BitVec 8 := 0b11100000
def IDE_LBA_SLAVE : BitVec 8 := 0b11110000

/-- `disk->selector` -/
def selector (slave : Bool) : BitVec 8 := if slave then IDE_LBA_SLAVE else IDE_LBA_MASTER

/-- `ide_busy_wait`; while it waits the drive may get through with a sector, and `none` stands for a loop
without end. The controllers report no errors. -/
def ideBusyWait (mask : BitVec 8) (c : Channel) : Option Channel :=
  if reached c then some c
  else do
    let c ← c.finish
    if reached c then some c else none
where
  reached (c : Channel) : Bool := c.status &&& IDE_SR_BSY = 0 && c.status &&& mask = mask

/-- `ide_select_drive` -/
def ideSelectDrive (slave : Bool) (c : Channel) : Option Channel := c.outb IDE_HDDEVSEL (selector slave)

/-- `ide_select_sector` -/
def ideSelectSector (slave : Bool) (lba : BitVec 32) (count : BitVec 8) (c : Channel) : Option Channel := do
  let c ← c.outb IDE_FEATURE 0
  let c ← c.outb IDE_SECTOR count
  let c ← c.outb IDE_LBA_LOW ((lba &&& 0xff).setWidth 8)
  let c ← c.outb IDE_LBA_MID (((lba >>> 8) &&& 0xff).setWidth 8)
  let c ← c.outb IDE_LBA_HIGH (((lba >>> 16) &&& 0xff).setWidth 8)
  c.outb IDE_HDDEVSEL (((lba >>> 24) &&& 0xf).setWidth 8 ||| selector slave)

/-- `ide_pio_read_sector` -/
def idePioReadSector (c : Channel) : Option (List Word × Channel) := Channel.inws 256 c

/-- `ide_pio_write_sector` -/
def idePioWriteSector (buf : Sector) (c : Channel) : Option Channel := Channel.outws buf.1 c

/-- `ide_pio_read` and `ide_pio_write` up to the command. -/
def ideCommand (slave : Bool) (lba : BitVec 32) (count cmd : BitVec 8) (c : Channel) : Option Channel := do
  let c ← ideSelectDrive slave c
  let c ← ideBusyWait IDE_SR_DRDY c
  let c ← ideSelectSector slave lba count c
  c.outb IDE_COMMAND cmd

/-- What a caller asks for: sectors to read, or the sectors in its buffer to write. -/
inductive Io where
  | read (count : ℕ)
  | write (buf : List Sector)

def Io.count : Io → ℕ
  | read count => count
  | write buf => buf.length

/-- A call of `ide_pio_read` or `ide_pio_write`. -/
structure Call where
  slave : Bool
  lba : ℕ
  io : Io

/-- The sectors can be counted in 8 bits and addressed in 28. -/
structure Call.Proper (a : Call) : Prop where
  count_pos : 0 < a.io.count
  count_lt : a.io.count < 2 ^ 8
  lba_le : a.lba + a.io.count ≤ 2 ^ 28

/-- Where a task is in its call. -/
inductive Pc where
  | out
  /-- In `lock_acquire`. -/
  | acquiring (a : Call)
  /-- Blocked for the sector behind those that have been read. -/
  | reading (a : Call) (got : List (List Word))
  /-- Blocked for the sector `i - 1` of its buffer. -/
  | writing (a : Call) (i : ℕ)

/-- The call of a task that is in a transfer. -/
def Pc.transfer : Pc → Option Call
  | reading a _ => some a
  | writing a _ => some a
  | _ => none

/-- A call that has been served, and what it read. -/
structure Served where
  call : Call
  got : List (List Word)

/-- `ready` says that a task in a transfer is not blocked. -/
structure State (τ : Type*) where
  channel : Channel
  holder : Option τ
  waiter : Option τ
  pc : τ → Pc
  ready : τ → Bool
  served : List Served

inductive Act (τ : Type*) where
  /-- A task calls the driver. -/
  | call (t : τ) (a : Call)
  /-- It gets `ctrl->lock`. -/
  | acquire (t : τ)
  /-- It goes on after `task_block`. -/
  | resume (t : τ)
  /-- The drive is through with a sector. -/
  | drive
  /-- `ide_handler` -/
  | interrupt

variable {τ : Type*} [DecidableEq τ] (s : State τ) (t : τ)

/-- `ctrl->waiter = task; task_block(task, NULL, TASK_BLOCKED);` -/
def waitAt (pc : Pc) : State τ :=
  { s with waiter := some t, pc := update s.pc t pc, ready := update s.ready t false }

/-- The end of the call, with `lock_release`. -/
def done (a : Call) (got : List (List Word)) : State τ :=
  { s with holder := none, pc := update s.pc t .out, served := s.served ++ [⟨a, got⟩] }

/-- Go on with the channel; the driver is stuck or breaks the protocol where there is none. -/
def withChannel (c : Option Channel) (k : State τ → Outcome (State τ)) : Outcome (State τ) :=
  match c with
  | none => .failed
  | some c => k { s with channel := c }

/-- `ide_pio_read` and `ide_pio_write` from `lock_acquire` to the first `task_block`. -/
def begin (a : Call) : Outcome (State τ) :=
  .assert (0 < a.io.count) <|
  let s := { s with holder := some t }
  let command count cmd := ideCommand a.slave (BitVec.ofNat 32 a.lba) count cmd s.channel
  match a.io with
  | .read count =>
    withChannel s (command (BitVec.ofNat 8 count) IDE_CMD_READ) fun s => .next (waitAt s t (.reading a []))
  | .write buf =>
    withChannel s (command (BitVec.ofNat 8 buf.length) IDE_CMD_WRITE) fun s =>
      match buf with
      | [] => .failed
      | sector :: _ =>
        withChannel s (idePioWriteSector sector s.channel) fun s => .next (waitAt s t (.writing a 1))

/-- `ide_pio_read` from `task_block` to the next, or to its end. -/
def readTurn (a : Call) (got : List (List Word)) : Outcome (State τ) :=
  withChannel s (ideBusyWait IDE_SR_DRQ s.channel) fun s =>
  match idePioReadSector s.channel with
  | none => .failed
  | some (ws, c) =>
    let s := { s with channel := c }
    let got := got ++ [ws]
    .next (if got.length < a.io.count then waitAt s t (.reading a got) else done s t a got)

/-- `ide_pio_write` from `task_block` to the next, or to its end. -/
def writeTurn (a : Call) (buf : List Sector) (i : ℕ) : Outcome (State τ) :=
  withChannel s (ideBusyWait IDE_SR_NULL s.channel) fun s =>
  match buf[i]? with
  | none => .next (done s t a [])
  | some sector => withChannel s (idePioWriteSector sector s.channel) fun s =>
    .next (waitAt s t (.writing a (i + 1)))

/-- `ide_handler`; `task_unblock` asserts that the task is blocked. -/
def ideHandler : Outcome (State τ) :=
  let s := { s with channel := s.channel.ack }
  match s.waiter with
  | none => .next s
  | some t => .assert (!s.ready t) <| .next { s with ready := update s.ready t true, waiter := none }

def exec : Act τ → Outcome (State τ)
  | .call t a =>
    match s.pc t with
    | .out => .next { s with pc := update s.pc t (.acquiring a) }
    | _ => .refused
  | .acquire t =>
    match s.pc t, s.holder with
    | .acquiring a, none => begin s t a
    | _, _ => .refused
  | .resume t =>
    .guard (s.ready t) <|
    match s.pc t with
    | .reading a got => readTurn s t a got
    | .writing a i =>
      match a.io with
      | .write buf => writeTurn s t a buf i
      | .read _ => .refused
    | _ => .refused
  | .drive =>
    match s.channel.finish with
    | none => .refused
    | some c => .next { s with channel := c }
  | .interrupt => .guard s.channel.intrq (ideHandler s)

def Step (s : State τ) (a : Act τ) (s' : State τ) : Prop := exec s a = .next s'

/-- Calls ask for sectors that there are. -/
def Proper (_ : State τ) : Act τ → Prop
  | .call _ a => a.Proper
  | _ => True

instance (a : Call) : Decidable a.Proper :=
  decidable_of_iff (0 < a.io.count ∧ a.io.count < 2 ^ 8 ∧ a.lba + a.io.count ≤ 2 ^ 28)
    ⟨fun h => ⟨h.1, h.2.1, h.2.2⟩, fun h => ⟨h.count_pos, h.count_lt, h.lba_le⟩⟩

instance (s : State τ) : (a : Act τ) → Decidable (Proper s a)
  | .call _ a => inferInstanceAs (Decidable a.Proper)
  | .acquire _ | .resume _ | .drive | .interrupt => .isTrue trivial

/-- No transfer is going on; the line may still be up from before. -/
structure Init (s : State τ) : Prop where
  idle : s.channel.phase = .idle
  prompt : s.channel.prompt = true
  holder : s.holder = none
  waiter : s.waiter = none
  pc : ∀ t, s.pc t = .out
  served : s.served = []

/-- What is on a disk after a write. -/
def written (disk : Bool → ℕ → Sector) (slave : Bool) (lba : ℕ) (buf : List Sector) : Bool → ℕ → Sector :=
  fun b k => if b = slave ∧ lba ≤ k then (buf[k - lba]?).getD (disk b k) else disk b k

/-- What is in `n` sectors of a disk. -/
def sectors (d : Bool → ℕ → Sector) (slave : Bool) (lba n : ℕ) : List (List Word) :=
  (List.range n).map fun i => (d slave (lba + i)).1

/-- The calls one after the other, each on the disks as those before it left them. -/
inductive Serves (disk : Bool → ℕ → Sector) : List Served → (Bool → ℕ → Sector) → Prop where
  | nil : Serves disk [] disk
  | read {es : List Served} {d : Bool → ℕ → Sector} {slave : Bool} {lba count : ℕ} (h : Serves disk es d) :
      Serves disk (es ++ [⟨⟨slave, lba, .read count⟩, sectors d slave lba count⟩]) d
  | write {es : List Served} {d : Bool → ℕ → Sector} {slave : Bool} {lba : ℕ} {buf : List Sector}
      (h : Serves disk es d) :
      Serves disk (es ++ [⟨⟨slave, lba, .write buf⟩, []⟩]) (written d slave lba buf)

end Onix.Ide
