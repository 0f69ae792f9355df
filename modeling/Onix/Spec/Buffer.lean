import Onix.Lib.Cache
import Onix.Lib.Outcome

/-! `kernel/buffer.c`, used by one task: the lock of a buffer is then always free
and is left out. A `buffer_t *` is the index of the header in the order they are
carved; a list is the sequence of the nodes between head and tail. -/

namespace Onix.Buffer

open Function

def BLOCK_SIZE : ℕ := 1024

def KERNEL_BUFFER_MEM : ℕ := 0x800000

def KERNEL_BUFFER_SIZE : ℕ := 0x400000

/-- `sizeof(buffer_t)`. -/
def HEADER_SIZE : ℕ := 64

def HASH_COUNT : ℕ := 31

/-- `EOF` as the `dev_t` of a fresh buffer. -/
def NODEV : ℕ := 2 ^ 32 - 1

/-- A device and a block of it, both as `u32`. -/
abbrev Key := ℕ × ℕ

/-- `buffer_t`; `hnode` and `rnode` say that the links of the node are not NULL. -/
structure BufferT (δ : Type) where
  data : δ
  dev : ℕ
  block : ℕ
  count : ℤ
  hnode : Bool
  rnode : Bool
  dirty : Bool
  valid : Bool

/-- The headers, how many are carved (`buffer_count`), `free_list`, `hash_table`,
and the disks. -/
structure State (δ : Type) where
  buffers : ℕ → BufferT δ
  carved : ℕ
  freeList : List ℕ
  hashTable : ℕ → List ℕ
  disk : Key → δ

variable {δ : Type} (s : State δ) (dev block bf : ℕ)

def BufferT.key (b : BufferT δ) : Key := (b.dev, b.block)

def State.set (b : BufferT δ) : State δ := { s with buffers := update s.buffers bf b }

/-- `buffer_ptr` after `n` carvings. -/
def bufferPtr (n : ℕ) : ℕ := KERNEL_BUFFER_MEM + HEADER_SIZE * n

/-- `buffer_data` after `n` carvings. -/
def bufferData (n : ℕ) : ℕ := KERNEL_BUFFER_MEM + KERNEL_BUFFER_SIZE - BLOCK_SIZE - BLOCK_SIZE * n

def hash : ℕ := (dev ^^^ block) % HASH_COUNT

/-- `list_remove(&bf->rnode)`. -/
def removeRnode : Outcome (State δ) :=
  .assert (s.buffers bf).rnode <|
  .next { s.set bf { s.buffers bf with rnode := false } with freeList := s.freeList.erase bf }

/-- `get_from_hash_table`. -/
def getFromHashTable : Outcome (State δ × Option ℕ) :=
  match (s.hashTable (hash dev block)).find? fun bf => (s.buffers bf).key = (dev, block) with
  | none => .next (s, none)
  | some bf =>
    if s.freeList.contains bf then (removeRnode s bf).andThen fun s => .next (s, some bf)
    else .next (s, some bf)

/-- `hash_locate`. -/
def hashLocate : Outcome (State δ) :=
  let idx := hash (s.buffers bf).dev (s.buffers bf).block
  .assert (!(s.hashTable idx).contains bf) <|
  .next { s.set bf { s.buffers bf with hnode := true } with
    hashTable := update s.hashTable idx (bf :: s.hashTable idx) }

/-- `hash_remove`. -/
def hashRemove : Outcome (State δ) :=
  let idx := hash (s.buffers bf).dev (s.buffers bf).block
  .assert ((s.hashTable idx).contains bf) <|
  .assert (s.buffers bf).hnode <|
  .next { s.set bf { s.buffers bf with hnode := false } with
    hashTable := update s.hashTable idx ((s.hashTable idx).erase bf) }

/-- `get_new_buffer`: carve a header and a data block, if they do not meet. -/
def getNewBuffer : Option (State δ × ℕ) :=
  let bf := s.carved
  if bufferPtr bf + HEADER_SIZE < bufferData bf then
    some ({ s.set bf { s.buffers bf with
      dev := NODEV, block := 0, count := 0, dirty := false, valid := false } with
      carved := s.carved + 1 }, bf)
  else none

/-- `get_free_buffer`; refused where the task has to wait for a buffer. -/
def getFreeBuffer : Outcome (State δ × ℕ) :=
  match getNewBuffer s with
  | some r => .next r
  | none =>
    match s.freeList.getLast? with
    | none => .refused
    | some bf =>
      (removeRnode s bf).andThen fun s =>
      (hashRemove s bf).andThen fun s =>
      .next (s.set bf { s.buffers bf with valid := false }, bf)

/-- `n` as an `int`. -/
def int32 (n : ℤ) : ℤ := Int.bmod n (2 ^ 32)

/-- `getblk`. -/
def getblk : Outcome (State δ × ℕ) :=
  (getFromHashTable s dev block).andThen fun (s, r) =>
  match r with
  | some bf =>
    .next (s.set bf { s.buffers bf with count := int32 ((s.buffers bf).count + 1) }, bf)
  | none =>
    (getFreeBuffer s).andThen fun (s, bf) =>
    .assert ((s.buffers bf).count == 0) <|
    .assert ((s.buffers bf).dirty == false) <|
    let s := s.set bf { s.buffers bf with count := 1, dev := dev, block := block }
    (hashLocate s bf).andThen fun s => .next (s, bf)

/-- `bread`. -/
def bread : Outcome (State δ × ℕ) :=
  (getblk s dev block).andThen fun (s, bf) =>
  if (s.buffers bf).valid then .next (s, bf)
  else
    let b := s.buffers bf
    .next (s.set bf { b with data := s.disk b.key, dirty := false, valid := true }, bf)

/-- `bwrite`. -/
def bwrite : State δ :=
  let b := s.buffers bf
  if b.dirty = false then s
  else
    { s.set bf { b with dirty := false, valid := true } with
      disk := update s.disk b.key b.data }

/-- `brelse` for a buffer that is not NULL; no task waits for a buffer. -/
def brelse : Outcome (State δ) :=
  let s := if (s.buffers bf).dirty then bwrite s bf else s
  let s := s.set bf { s.buffers bf with count := int32 ((s.buffers bf).count - 1) }
  .assert (0 ≤ (s.buffers bf).count) <|
  if (s.buffers bf).count ≠ 0 then .next s
  else
    .assert (!(s.buffers bf).rnode) <|
    .assert (!s.freeList.contains bf) <|
    .next { s.set bf { s.buffers bf with rnode := true } with freeList := bf :: s.freeList }

/-- The buffers and, beside them, the cache of blocks that their user sees. -/
structure Sys (δ : Type) where
  s : State δ
  c : Cache Key δ

inductive Act (δ : Type) where
  /-- `bread(dev, block)`. -/
  | bread (dev block : ℕ)
  /-- New contents for a held buffer, then `dirty = true`. -/
  | modify (bf : ℕ) (d : δ)
  /-- `bwrite` of a held buffer. -/
  | bwrite (bf : ℕ)
  /-- `brelse` of a held buffer. -/
  | brelse (bf : ℕ)

/-- Buffer `bf` was returned by a `bread` that no `brelse` has matched yet. -/
def Sys.Held (y : Sys δ) : Prop := bf < y.s.carved ∧ 0 < y.c.count (y.s.buffers bf).key

instance (y : Sys δ) : Decidable (y.Held bf) := inferInstanceAs (Decidable (_ ∧ _))

def exec (y : Sys δ) : Act δ → Outcome (Sys δ)
  | .bread dev block =>
    (Buffer.bread y.s dev block).andThen fun (s, _) => .next ⟨s, y.c.hold (dev, block)⟩
  | .modify bf d =>
    .guard (y.Held bf) <|
    let b := y.s.buffers bf
    .next ⟨y.s.set bf { b with data := d, dirty := true }, (y.c.put b.key d).mark b.key⟩
  | .bwrite bf =>
    .guard (y.Held bf) <|
    .next ⟨Buffer.bwrite y.s bf, y.c.clean (y.s.buffers bf).key⟩
  | .brelse bf =>
    .guard (y.Held bf) <|
    (Buffer.brelse y.s bf).andThen fun s =>
    match y.c.drop (y.s.buffers bf).key with
    | some c => .next ⟨s, c⟩
    | none => .failed

def Step (y : Sys δ) (a : Act δ) (y' : Sys δ) : Prop := exec y a = .next y'

/-- After `buffer_init`, in memory that is zero; the cache shows the disks. -/
structure Init (y : Sys δ) : Prop where
  carved : y.s.carved = 0
  freeList : y.s.freeList = []
  hashTable : ∀ i, y.s.hashTable i = []
  zero : ∀ bf, (y.s.buffers bf).hnode = false ∧ (y.s.buffers bf).rnode = false
  data : y.c.data = y.s.disk
  disk : y.c.disk = y.s.disk
  count : ∀ κ, y.c.count κ = 0
  dirty : ∀ κ, y.c.dirty κ = false

end Onix.Buffer
