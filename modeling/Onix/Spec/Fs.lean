import Onix.Lib.Cache
import Onix.Lib.Prog
import Onix.Spec.Bitmap

/-! `fs.h`: the file system of one device as its functions see it. A `buffer_t *`
is the number of the block it holds, an `inode_t *` an index of `inode_table`, a
pointer into a buffer's data a block and an address. The buffers are a cache of
blocks: which `buffer_t` holds a block is the business of `kernel/buffer.c`. -/

namespace Onix.Fs

open Function Prog

abbrev Block := Bytes

def BLOCK_SIZE : ℕ := 1024

def IMAP_NR : ℕ := 8

def ZMAP_NR : ℕ := 8

/-- `sizeof(inode_desc_t)`. -/
def DESC_SIZE : ℕ := 32

def BLOCK_BITS : ℕ := BLOCK_SIZE * 8

def BLOCK_INODES : ℕ := BLOCK_SIZE / DESC_SIZE

def BLOCK_INDEXES : ℕ := BLOCK_SIZE / 2

def DIRECT_BLOCK : ℕ := 7

def INDIRECT1_BLOCK : ℕ := BLOCK_INDEXES

def INDIRECT2_BLOCK : ℕ := INDIRECT1_BLOCK * INDIRECT1_BLOCK

def TOTAL_BLOCK : ℕ := DIRECT_BLOCK + INDIRECT1_BLOCK + INDIRECT2_BLOCK

/-- The device number of a free `inode_t`. -/
def NODEV : ℤ := -1

/-- The fields of `super_desc_t` that are read after mounting; nothing writes them. -/
structure SuperDesc where
  inodes : ℕ
  zones : ℕ
  imapBlocks : ℕ
  zmapBlocks : ℕ
  firstdatazone : ℕ

/-- `super_block_t`. -/
structure SuperBlock where
  desc : SuperDesc
  imaps : ℕ → Option ℕ
  zmaps : ℕ → Option ℕ
  inodeList : List ℕ

/-- `inode_t`; `desc` is descriptor number `slot` of the block in `buf`. -/
structure InodeT where
  slot : ℕ
  buf : ℕ
  dev : ℤ
  nr : ℕ
  count : ℕ
  atime : ℕ
  ctime : ℕ

/-- `file_t`. -/
structure FileT where
  inode : Option ℕ
  count : ℕ
  offset : ℤ
  flags : ℕ
  mode : ℕ

/-- The fields of `task_t` that the file system uses. -/
structure TaskT where
  uid : ℕ
  gid : ℕ
  ipwd : ℕ
  iroot : ℕ
  umask : ℕ
  files : ℕ → Option ℕ
  pwd : Bytes := fun _ => 0

/-- `clock n` is what the `n`-th reading of the time gives, `ticks` counts them. -/
structure State where
  cache : Cache ℕ Block
  dev : ℤ
  sb : SuperBlock
  inodeTable : ℕ → InodeT
  fileTable : ℕ → FileT
  tasks : ℕ → TaskT
  running : ℕ
  clock : ℕ → ℕ
  ticks : ℕ

variable (s : State) (i b v : ℕ)

def State.data : Block := s.cache.data b

def State.setData (d : Block) : State := { s with cache := s.cache.put b d }

def State.setDirty : State := { s with cache := s.cache.mark b }

def State.task : TaskT := s.tasks s.running

def State.setInode (inode : InodeT) : State :=
  { s with inodeTable := update s.inodeTable i inode }

section Desc

/-- The block of the descriptor of inode `i`. -/
def State.ibuf : ℕ := (s.inodeTable i).buf

/-- The address of the descriptor of inode `i` in its block. -/
def State.idesc : ℕ := DESC_SIZE * (s.inodeTable i).slot

def State.mode : ℕ := (s.data (s.ibuf i)).rd16 (s.idesc i)

def State.uid : ℕ := (s.data (s.ibuf i)).rd16 (s.idesc i + 2)

def State.size : ℕ := (s.data (s.ibuf i)).rd32 (s.idesc i + 4)

def State.mtime : ℕ := (s.data (s.ibuf i)).rd32 (s.idesc i + 8)

def State.gid : ℕ := (s.data (s.ibuf i)).rd8 (s.idesc i + 12)

def State.nlinks : ℕ := (s.data (s.ibuf i)).rd8 (s.idesc i + 13)

/-- The address of `desc->zone`. -/
def State.izone : ℕ := s.idesc i + 14

def State.setMode : State := s.setData (s.ibuf i) ((s.data (s.ibuf i)).wr16 (s.idesc i) v)

def State.setUid : State := s.setData (s.ibuf i) ((s.data (s.ibuf i)).wr16 (s.idesc i + 2) v)

def State.setSize : State := s.setData (s.ibuf i) ((s.data (s.ibuf i)).wr32 (s.idesc i + 4) v)

def State.setMtime : State := s.setData (s.ibuf i) ((s.data (s.ibuf i)).wr32 (s.idesc i + 8) v)

def State.setGid : State := s.setData (s.ibuf i) ((s.data (s.ibuf i)).wr8 (s.idesc i + 12) v)

def State.setNlinks : State := s.setData (s.ibuf i) ((s.data (s.ibuf i)).wr8 (s.idesc i + 13) v)

/-- `inode->buf->dirty = true`. -/
def State.dirtyInode : State := s.setDirty (s.ibuf i)

end Desc

/-- `time()`. -/
def time : Prog State ℕ := do
  let t ← peek fun s => s.clock s.ticks
  poke fun s => { s with ticks := s.ticks + 1 }
  return t

/-- `get_super(dev)` with the `assert(sb)` its callers make. -/
def getSuper (dev : ℤ) : Prog State SuperBlock := do
  assert (dev = (← peek State.dev))
  peek State.sb

/-- `bread(dev, block)`. -/
def bread (dev : ℤ) (block : ℕ) : Prog State ℕ := do
  assert (dev = (← peek State.dev))
  poke fun s => { s with cache := s.cache.hold block }
  return block

/-- `bwrite(buf)`. -/
def bwrite (buf : Option ℕ) : Prog State Unit :=
  match buf with
  | none => stop
  | some b => poke fun s => { s with cache := s.cache.clean b }

/-- `brelse(buf)`. -/
def brelse (buf : Option ℕ) : Prog State Unit :=
  match buf with
  | none => pure ()
  | some b => fun s => (s.cache.drop b).map fun c => ((), { s with cache := c })

end Onix.Fs
