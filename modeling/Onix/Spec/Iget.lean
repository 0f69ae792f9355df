import Onix.Lib.Bytes
import Onix.Lib.Outcome

/-! `iget` and `iput` of `fs/inode.c` under many tasks, which overtake each other where
`bread` of `kernel/buffer.c` blocks: it waits for a free buffer, for the lock of the
buffer or for the disk. Which free slot or buffer is taken is left open. -/

namespace Onix.Iget

open Function

def BLOCK_INODES : ℕ := 32

/-- The fields of `super_block_t` that `iget` uses. -/
structure SuperT (ι : Type*) where
  inodes : ℕ
  imapBlocks : ℕ
  zmapBlocks : ℕ
  inodeList : List ι

/-- `inode_t`; `dev` is `none` for `EOF`, `desc` a buffer and the number of a descriptor
in its block. Both `buf` and `desc` stay as they were when the slot becomes free. -/
structure InodeT (β : Type*) where
  dev : Option ℕ
  nr : ℕ
  count : ℕ
  buf : Option β
  desc : Option (β × ℕ)

/-- `buffer_t`; one with `count` 0 is free. -/
structure BufferT where
  dev : ℕ
  block : ℕ
  count : ℕ
  valid : Bool
  lock : Bool

/-- The arguments of a call of `iget` and the inode that it returns. -/
structure Call (ι : Type*) where
  dev : ℕ
  nr : ℕ
  inode : ι
  deriving DecidableEq

/-- Where a task is: in the `bread` of a call of `iget`, or not. -/
inductive Pc (ι β : Type*) where
  | out
  /-- `get_free_buffer` has found none. -/
  | waiting (c : Call ι)
  | locking (c : Call ι) (b : β)
  | reading (c : Call ι) (b : β)
  deriving DecidableEq

/-- `chain` are the buffers in the hash table, the latest first. `refs` are the calls of
`iget` that have returned and have not been answered by an `iput`, `holders` the inodes
that a buffer was got for; the code reads neither. -/
structure State (τ ι β : Type*) where
  sb : ℕ → SuperT ι
  inode : ι → InodeT β
  buffer : β → BufferT
  chain : List β
  pc : τ → Pc ι β
  refs : List (τ × Call ι)
  holders : β → List ι

/-- What a task does up to its next blocking point. -/
inductive Act (τ ι β : Type*) where
  /-- `iget`, for which `get_free_inode` would find `i` and `get_free_buffer` `b`. -/
  | iget (t : τ) (dev nr : ℕ) (i : ι) (b : Option β)
  /-- `get_free_buffer` goes on with buffer `b`. -/
  | wake (t : τ) (b : β)
  /-- The lock that `bread` waits for is free. -/
  | lock (t : τ)
  /-- `device_request` returns. -/
  | done (t : τ)
  | iput (t : τ) (c : Call ι)

variable {τ ι β : Type*} [DecidableEq τ] [DecidableEq ι] [DecidableEq β]

/-- `inode_block(sb, nr)`. -/
def inodeBlock (sb : SuperT ι) (nr : ℕ) : ℕ :=
  2 + sb.imapBlocks + sb.zmapBlocks + sub32 nr 1 / BLOCK_INODES

namespace State

variable (s : State τ ι β)

def setInode (i : ι) (inode : InodeT β) : State τ ι β := { s with inode := update s.inode i inode }

def set (b : β) (bf : BufferT) : State τ ι β := { s with buffer := update s.buffer b bf }

def goto (t : τ) (p : Pc ι β) : State τ ι β := { s with pc := update s.pc t p }

def setList (dev : ℕ) (l : List ι) : State τ ι β :=
  { s with sb := update s.sb dev { s.sb dev with inodeList := l } }

/-- The block that a call of `iget` reads. -/
def blockOf (c : Call ι) : ℕ := inodeBlock (s.sb c.dev) c.nr

/-- `get_from_hash_table(dev, block)`. -/
def lookup (dev block : ℕ) : Option β :=
  s.chain.find? fun b => (s.buffer b).dev = dev ∧ (s.buffer b).block = block

/-- `find_inode(dev, nr)`. -/
def findInode (dev nr : ℕ) : Option ι :=
  (s.sb dev).inodeList.find? fun i => (s.inode i).nr = nr

end State

variable (s : State τ ι β) (t : τ) (c : Call ι)

/-- `iget` after its `bread`. -/
def finish (b : β) : State τ ι β :=
  let inode := s.inode c.inode
  ({ s.setInode c.inode { inode with
      buf := some b, desc := some (b, sub32 inode.nr 1 % BLOCK_INODES) } with
    refs := (t, c) :: s.refs }).goto t .out

/-- `bread` from `lock_acquire` on. -/
def lockBuffer (b : β) : State τ ι β :=
  let bf := s.buffer b
  if bf.lock then s.goto t (.locking c b)
  else if bf.valid then finish s t c b
  else (s.set b { bf with lock := true }).goto t (.reading c b)

/-- `getblk` of a buffer from `get_free_buffer`, and `bread` behind it. -/
def takeBuffer (b : β) : State τ ι β :=
  let bf := s.buffer b
  lockBuffer { s.set b { bf with dev := c.dev, block := s.blockOf c, count := 1, valid := false } with
    chain := b :: s.chain.erase b
    holders := update s.holders b [c.inode] } t c b

/-- `bread(dev, block)`. -/
def bread (free : Option β) : Outcome (State τ ι β) :=
  match s.lookup c.dev (s.blockOf c) with
  | some b =>
    let bf := s.buffer b
    let s := { s.set b { bf with count := bf.count + 1 } with
      holders := update s.holders b (c.inode :: s.holders b) }
    .next (if bf.valid then finish s t c b else lockBuffer s t c b)
  | none =>
    match free with
    | some b => .guard ((s.buffer b).count = 0) <| .next (takeBuffer s t c b)
    | none => .next (s.goto t (.waiting c))

/-- The end of `iput` for the last reference. -/
def putInode (b : β) : Outcome (State τ ι β) :=
  let i := c.inode
  let bf := s.buffer b
  .assert (0 < bf.count) <|
  .assert (i ∈ (s.sb c.dev).inodeList) <|
  .next (({ s.set b { bf with count := bf.count - 1 } with
    holders := update s.holders b ((s.holders b).erase i) }.setList c.dev
      ((s.sb c.dev).inodeList.erase i)).setInode i { s.inode i with dev := none })

def exec (s : State τ ι β) : Act τ ι β → Outcome (State τ ι β)
  | .iget t dev nr i free => .guard (s.pc t = .out) <|
    match s.findInode dev nr with
    | some j =>
      let inode := s.inode j
      .next { s.setInode j { inode with count := (inode.count + 1) % 2 ^ 32 } with
        refs := (t, ⟨dev, nr, j⟩) :: s.refs }
    | none =>
      .assert (nr ≤ (s.sb dev).inodes) <|
      .guard ((s.inode i).dev.isNone) <|
      .assert (i ∉ (s.sb dev).inodeList) <|
      let inode := s.inode i
      bread ((s.setInode i { inode with
        dev := some dev, nr := nr, count := (inode.count + 1) % 2 ^ 32 }).setList dev
          (i :: (s.sb dev).inodeList)) t ⟨dev, nr, i⟩ free
  | .wake t b =>
    match s.pc t with
    | .waiting c => .guard ((s.buffer b).count = 0) <| .next (takeBuffer s t c b)
    | _ => .refused
  | .lock t =>
    match s.pc t with
    | .locking c b => .guard (!(s.buffer b).lock) <| .next (lockBuffer s t c b)
    | _ => .refused
  | .done t =>
    match s.pc t with
    | .reading c b =>
      .next (finish (s.set b { s.buffer b with valid := true, lock := false }) t c b)
    | _ => .refused
  | .iput t c => .guard (s.pc t = .out ∧ (t, c) ∈ s.refs) <|
    let inode := s.inode c.inode
    match inode.buf with
    | none => .failed
    | some b =>
      let s := { s.setInode c.inode { inode with count := sub32 inode.count 1 } with
        refs := s.refs.erase (t, c) }
      if sub32 inode.count 1 ≠ 0 then .next s else putInode s c b

def Step (s : State τ ι β) (a : Act τ ι β) (s' : State τ ι β) : Prop := exec s a = .next s'

/-- Before any inode has been read. -/
structure Init (s : State τ ι β) : Prop where
  sb : ∀ dev, (s.sb dev).inodeList = []
  inode : ∀ i, (s.inode i).dev = none ∧ (s.inode i).count = 0
  buffer : ∀ b, (s.buffer b).count = 0
  pc : ∀ t, s.pc t = .out
  refs : s.refs = []
  holders : ∀ b, s.holders b = []

end Onix.Iget
