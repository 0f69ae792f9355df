import Onix.Lib.Outcome

/-! The buffer cache under many tasks: `bread`, `bwrite` and `brelse` of
`kernel/buffer.c` and `iput` of `fs/inode.c`, which other tasks may overtake while
a sector is on its way. The order in which a disk serves its requests is left
open. A task that finds no free buffer is not modelled; nor are the hash chains. -/

namespace Onix.Writeback

open Function

def BLOCK_SECS : ℕ := 2

/-- `buffer_t`; `rnode` says that the buffer is on `free_list`, `lock` that its lock
is taken, `fresh` that it has not been carved yet. -/
structure BufferT (δ : Type*) where
  dev : ℕ
  block : ℕ
  data : ℕ → δ
  count : ℤ
  rnode : Bool
  lock : Bool
  dirty : Bool
  valid : Bool
  fresh : Bool

/-- The fields of `inode_t` that `iput` uses; `buf` is `none` where the slot is free. -/
structure InodeT (β : Type*) where
  buf : Option β
  count : ℕ

/-- Who has called `bread` without its `brelse` yet; `iget` leaves this to the inode. -/
inductive Holder (τ ι : Type*) where
  | task (t : τ)
  | inode (i : ι)
  deriving DecidableEq

/-- What a task does when its `bwrite` is over. -/
inductive After (ι : Type*) where
  /-- It returns to a caller that holds the buffer itself or through an inode. -/
  | ret (via : Option ι)
  /-- `brelse` goes on. -/
  | brelse
  /-- `iput` goes on to `inode->count--`. -/
  | iput (i : ι)
  /-- The `brelse` of `iput` goes on. -/
  | last (i : ι)
  deriving DecidableEq

/-- Where a task is. -/
inductive Pc (β ι : Type*) where
  | out
  /-- `bread` waits for the lock of the buffer. -/
  | locking (b : β)
  /-- In `device_request`, with the next sector to be read. -/
  | reading (b : β) (dev block sector : ℕ)
  /-- In `device_request`, with the next sector to be written. -/
  | writing (b : β) (dev block sector : ℕ) (after : After ι)
  deriving DecidableEq

/-- `table` is the hash table. `holders` are those of a buffer, `refs` those who have
the inode, `unsent` the sectors that were modified after they were last written to
the disk; the code reads none of these three. -/
structure State (τ β ι δ : Type*) where
  disk : ℕ → ℕ → ℕ → δ
  buffer : β → BufferT δ
  table : ℕ → ℕ → Option β
  inode : ι → InodeT β
  pc : τ → Pc β ι
  holders : β → List (Holder τ ι)
  refs : ι → List τ
  unsent : β → ℕ → Bool

/-- What a task does up to its next blocking point. -/
inductive Act (τ β ι δ : Type*) where
  /-- `bread`; where the block has no buffer, `get_free_buffer` finds `b`. -/
  | bread (t : τ) (dev block : ℕ) (b : β)
  /-- The lock that `bread` waits for is free. -/
  | lock (t : τ)
  /-- A sector is transferred. -/
  | sector (t : τ)
  /-- `device_request` returns. -/
  | done (t : τ)
  /-- A sector of a buffer is modified and `dirty` set. -/
  | modify (b : β) (sector : ℕ) (value : δ)
  /-- `bwrite` of a buffer that the task holds, itself or through an inode. -/
  | bwrite (t : τ) (b : β) (via : Option ι)
  | brelse (t : τ) (b : β)
  /-- The end of `iget`: the inode keeps the buffer that the task holds. -/
  | iget (t : τ) (i : ι) (b : β)
  /-- `iget` of an inode in use. -/
  | again (t : τ) (i : ι)
  | iput (t : τ) (i : ι)

variable {τ β ι δ : Type*} [DecidableEq τ] [DecidableEq β] [DecidableEq ι]

namespace State

variable (s : State τ β ι δ)

def set (b : β) (bf : BufferT δ) : State τ β ι δ := { s with buffer := update s.buffer b bf }

def goto (t : τ) (p : Pc β ι) : State τ β ι δ := { s with pc := update s.pc t p }

def setTable (dev block : ℕ) (o : Option β) : State τ β ι δ :=
  { s with table := update s.table dev (update (s.table dev) block o) }

def hold (h : Holder τ ι) (b : β) : State τ β ι δ :=
  { s with holders := update s.holders b (h :: s.holders b) }

def unhold (h : Holder τ ι) (b : β) : State τ β ι δ :=
  { s with holders := update s.holders b ((s.holders b).erase h) }

def setInode (i : ι) (inode : InodeT β) (refs : List τ) : State τ β ι δ :=
  { s with inode := update s.inode i inode, refs := update s.refs i refs }

end State

variable (s : State τ β ι δ) (t : τ)

/-- `bread` from `lock_acquire` on. -/
def lockBuffer (b : β) : State τ β ι δ :=
  let bf := s.buffer b
  if bf.lock then s.goto t (.locking b)
  else if bf.valid then s.goto t .out
  else (s.set b { bf with lock := true }).goto t (.reading b bf.dev bf.block 0)

/-- `bread(dev, block)`. -/
def bread (dev block : ℕ) (free : β) : Outcome (State τ β ι δ) :=
  match s.table dev block with
  | some b =>
    let bf := s.buffer b
    let s := (s.set b { bf with rnode := false, count := bf.count + 1 }).hold (.task t) b
    .next (if bf.valid then s.goto t .out else lockBuffer s t b)
  | none =>
    let bf := s.buffer free
    .guard (bf.fresh || bf.rnode) <|
    -- a buffer from the free list leaves its place in the hash table
    let s := if bf.fresh then s else s.setTable bf.dev bf.block none
    .assert (bf.count == 0) <|
    .assert (bf.dirty == false) <|
    let s := s.set free { bf with
      dev := dev, block := block, count := 1, rnode := false, valid := false, fresh := false }
    .next (lockBuffer ((s.setTable dev block (some free)).hold (.task t) free) t free)

/-- `brelse` after its `bwrite`. -/
def release (h : Holder τ ι) (b : β) : Outcome (State τ β ι δ) :=
  let bf := s.buffer b
  let s := (s.set b { bf with count := bf.count - 1 }).unhold h b
  .assert (0 ≤ bf.count - 1) <|
  if bf.count - 1 ≠ 0 then .next s
  else
    .assert (bf.rnode == false) <|
    .next (s.set b { bf with count := bf.count - 1, rnode := true })

/-- `iput` after its `brelse`. -/
def putInode (i : ι) : State τ β ι δ := s.setInode i ⟨none, 0⟩ []

/-- The call of `bwrite(bf)`; where the buffer is not dirty it goes on at once. -/
def startWrite (b : β) (after : After ι) (k : Outcome (State τ β ι δ)) : Outcome (State τ β ι δ) :=
  let bf := s.buffer b
  if bf.dirty then .next (s.goto t (.writing b bf.dev bf.block 0 after)) else k

/-- What follows a `bwrite`. -/
def goOn (b : β) : After ι → Outcome (State τ β ι δ)
  | .ret _ => .next (s.goto t .out)
  | .brelse => release (s.goto t .out) (.task t) b
  | .last i => (release (s.goto t .out) (.inode i) b).andThen fun s => .next (putInode s i)
  | .iput i =>
    let inode := s.inode i
    let s := s.setInode i { inode with count := inode.count - 1 } ((s.refs i).erase t)
    if inode.count - 1 ≠ 0 then .next (s.goto t .out)
    else startWrite s t b (.last i)
      ((release (s.goto t .out) (.inode i) b).andThen fun s => .next (putInode s i))

def exec (s : State τ β ι δ) : Act τ β ι δ → Outcome (State τ β ι δ)
  | .bread t dev block b => .guard (s.pc t = .out) <| bread s t dev block b
  | .lock t =>
    match s.pc t with
    | .locking b => .guard (!(s.buffer b).lock) <| .next (lockBuffer s t b)
    | _ => .refused
  | .sector t =>
    match s.pc t with
    | .reading b dev block k => .guard (k < BLOCK_SECS) <|
        let bf := s.buffer b
        .next ((s.set b { bf with data := update bf.data k (s.disk dev block k) }).goto t
          (.reading b dev block (k + 1)))
    | .writing b dev block k after => .guard (k < BLOCK_SECS) <|
        let sectors := update (s.disk dev block) k ((s.buffer b).data k)
        .next ({ s with
          disk := update s.disk dev (update (s.disk dev) block sectors)
          unsent := update s.unsent b (update (s.unsent b) k false) }.goto t
            (.writing b dev block (k + 1) after))
    | _ => .refused
  | .done t =>
    match s.pc t with
    | .reading b _ _ k => .guard (k = BLOCK_SECS) <|
        let bf := s.buffer b
        .next (({ s with unsent := update s.unsent b fun _ => false }.set b
          { bf with dirty := false, valid := true, lock := false }).goto t .out)
    | .writing b _ _ k after => .guard (k = BLOCK_SECS) <|
        let bf := s.buffer b
        goOn (s.set b { bf with dirty := false, valid := true }) t b after
    | _ => .refused
  | .modify b k value =>
    let bf := s.buffer b
    .guard (bf.valid && s.holders b ≠ [] && k < BLOCK_SECS) <|
    .next ({ s with unsent := update s.unsent b (update (s.unsent b) k true) }.set b
      { bf with data := update bf.data k value, dirty := true })
  | .bwrite t b none => .guard (s.pc t = .out ∧ .task t ∈ s.holders b) <|
      startWrite s t b (.ret none) (.next s)
  | .bwrite t b (some i) => .guard (s.pc t = .out ∧ t ∈ s.refs i ∧ (s.inode i).buf = some b) <|
      startWrite s t b (.ret (some i)) (.next s)
  | .brelse t b => .guard (s.pc t = .out ∧ .task t ∈ s.holders b) <|
      startWrite s t b .brelse (goOn s t b .brelse)
  | .iget t i b => .guard (s.pc t = .out ∧ .task t ∈ s.holders b ∧ (s.inode i).buf.isNone) <|
      .next (((s.unhold (.task t) b).hold (.inode i) b).setInode i ⟨some b, 1⟩ [t])
  | .again t i => .guard (s.pc t = .out ∧ s.refs i ≠ []) <|
      .next (s.setInode i { s.inode i with count := (s.inode i).count + 1 } (t :: s.refs i))
  | .iput t i => .guard (s.pc t = .out ∧ t ∈ s.refs i) <|
      match (s.inode i).buf with
      | some b => startWrite s t b (.iput i) (goOn s t b (.iput i))
      | none => .failed

def Step (s : State τ β ι δ) (a : Act τ β ι δ) (s' : State τ β ι δ) : Prop := exec s a = .next s'

/-- Before any block has been read. -/
structure Init (s : State τ β ι δ) : Prop where
  fresh : ∀ b, (s.buffer b).fresh = true ∧ (s.buffer b).valid = false ∧ (s.buffer b).lock = false ∧
    (s.buffer b).dirty = false ∧ (s.buffer b).rnode = false ∧ (s.buffer b).count = 0
  table : ∀ dev block, s.table dev block = none
  inode : ∀ i, s.inode i = ⟨none, 0⟩
  pc : ∀ t, s.pc t = .out
  holders : ∀ b, s.holders b = []
  refs : ∀ i, s.refs i = []

end Onix.Writeback
