import Onix.Spec.Bmap

/-! `fs/inode.c`: the inodes in memory and the contents of a file. -/

namespace Onix.Fs

open Function Prog

def INODE_NR : ℕ := 64

def IFMT : ℕ := 0o170000

def IFREG : ℕ := 0o100000

def IFDIR : ℕ := 0o040000

def isDir (mode : ℕ) : Bool := mode &&& IFMT == IFDIR

def isFile (mode : ℕ) : Bool := mode &&& IFMT == IFREG

def State.modInode (s : State) (i : ℕ) (f : InodeT → InodeT) : State :=
  s.setInode i (f (s.inodeTable i))

/-- `get_free_inode()`. -/
def getFreeInode : Prog State ℕ := do
  let table ← peek State.inodeTable
  lift ((List.range INODE_NR).find? fun i => (table i).dev = NODEV)

/-- `put_free_inode(inode)`. -/
def putFreeInode (inode : ℕ) : Prog State Unit := do
  assert (inode ≠ 0)
  assert ((← peek fun s => (s.inodeTable inode).count) = 0)
  poke fun s => s.modInode inode fun n => { n with dev := NODEV }

/-- `inode_block(sb, nr)`. -/
def inodeBlock (sb : SuperBlock) (nr : ℕ) : ℕ :=
  2 + sb.desc.imapBlocks + sb.desc.zmapBlocks + sub32 nr 1 / BLOCK_INODES

/-- `find_inode(dev, nr)`. -/
def findInode (dev : ℤ) (nr : ℕ) : Prog State (Option ℕ) := do
  let sb ← getSuper dev
  let table ← peek State.inodeTable
  return sb.inodeList.find? fun i => (table i).nr = nr

/-- `inode->atime = time()`. -/
def touch (inode : ℕ) : Prog State Unit := do
  let t ← time
  poke fun s => s.modInode inode fun n => { n with atime := t }

/-- The part of `iget` for an inode that is not in memory. -/
def igetNew (dev : ℤ) (nr : ℕ) : Prog State ℕ := do
  let sb ← getSuper dev
  assert (nr ≤ sb.desc.inodes)
  let inode ← getFreeInode
  poke fun s => s.modInode inode fun n =>
    { n with dev := dev, nr := nr, count := (n.count + 1) % 2 ^ 32 }
  assert (inode ∉ sb.inodeList)
  poke fun s => { s with sb := { s.sb with inodeList := inode :: s.sb.inodeList } }
  let buf ← bread dev (inodeBlock sb nr)
  poke fun s => s.modInode inode fun n => { n with buf := buf, slot := sub32 nr 1 % BLOCK_INODES }
  poke fun s => s.modInode inode fun n => { n with ctime := s.mtime inode }
  touch inode
  return inode

/-- `iget(dev, nr)`. -/
def iget (dev : ℤ) (nr : ℕ) : Prog State ℕ := do
  match ← findInode dev nr with
  | some inode => do
    poke fun s => s.modInode inode fun n => { n with count := (n.count + 1) % 2 ^ 32 }
    touch inode
    return inode
  | none => igetNew dev nr

/-- `iput(inode)` of an inode, not `NULL`. -/
def iputInode (inode : ℕ) : Prog State Unit := do
  let buf ← peek fun s => s.ibuf inode
  when (← peek fun s => s.cache.dirty buf) (bwrite (some buf))
  poke fun s => s.modInode inode fun n => { n with count := sub32 n.count 1 }
  if (← peek fun s => (s.inodeTable inode).count) ≠ 0 then return ()
  else do
    brelse (some buf)
    assert (inode ∈ (← peek fun s => s.sb.inodeList))
    poke fun s => { s with sb := { s.sb with inodeList := s.sb.inodeList.erase inode } }
    putFreeInode inode

/-- `iput(inode)`. -/
def iput (inode : Option ℕ) : Prog State Unit :=
  match inode with
  | none => pure ()
  | some i => iputInode i

/-- The part of a file that one turn of the loops of `inode_read` and `inode_write`
copies: `chars` bytes from `offset` on, at `start` in their block. -/
structure Chunk where
  offset : ℤ
  start : ℕ
  chars : ℕ
  deriving DecidableEq

/-- `(u32)offset`. -/
def u32 (offset : ℤ) : ℕ := (offset % 2 ^ 32).toNat

def chunk (left : ℕ) (offset : ℤ) : Chunk :=
  let start := u32 (offset.tmod BLOCK_SIZE)
  ⟨offset, start, min (sub32 BLOCK_SIZE start) left⟩

/-- The turns for `left` bytes from `offset` on; each copies at least one. -/
def chunks : (n left : ℕ) → ℤ → List Chunk
  | 0, _, _ => []
  | n + 1, left, offset =>
    if left = 0 then []
    else
      let c := chunk left offset
      c :: chunks n (left - c.chars) (offset + c.chars)

/-- `(idx_t)(offset / BLOCK_SIZE)`. -/
def Chunk.block (c : Chunk) : ℕ := u32 (c.offset.tdiv BLOCK_SIZE)

/-- The copy stays inside the block. -/
def Chunk.Inside (c : Chunk) : Prop := c.start + c.chars ≤ BLOCK_SIZE

instance (c : Chunk) : Decidable c.Inside := inferInstanceAs (Decidable (_ ≤ _))

/-- The loop of `inode_read`. A copy from outside the block is not followed. -/
def readLoop (inode : ℕ) : List Chunk → Prog State (List Byte)
  | [] => pure []
  | c :: cs => do
    let nr ← bmap inode c.block false
    assert (nr ≠ 0)
    let bf ← bread (← peek fun s => (s.inodeTable inode).dev) nr
    assert c.Inside
    let bytes ← peek fun s => (s.data bf).read c.start c.chars
    brelse (some bf)
    return bytes ++ (← readLoop inode cs)

/-- `inode_read(inode, buf, len, offset)`: the bytes read, `none` for `EOF`. -/
def inodeRead (inode len : ℕ) (offset : ℤ) : Prog State (Option (List Byte)) := do
  let mode ← peek fun s => s.mode inode
  assert (isFile mode || isDir mode)
  let size ← peek fun s => s.size inode
  if size ≤ u32 offset then return none
  else do
    let left := min len (size - u32 offset)
    let bytes ← readLoop inode (chunks left left offset)
    touch inode
    return some bytes

/-- One turn of the loop of `inode_write`. -/
def writeChunk (inode : ℕ) (c : Chunk) (bytes : List Byte) : Prog State Unit := do
  let nr ← bmap inode c.block true
  assert (nr ≠ 0)
  let bf ← bread (← peek fun s => (s.inodeTable inode).dev) nr
  poke fun s => s.setDirty bf
  when ((← peek fun s => s.size inode) < u32 (c.offset + c.chars))
    (poke fun s => (s.setSize inode (u32 (c.offset + c.chars))).dirtyInode inode)
  assert c.Inside
  poke fun s => s.setData bf ((s.data bf).write c.start bytes)
  brelse (some bf)

/-- The loop of `inode_write`. A copy to outside the block is not followed. -/
def writeLoop (inode : ℕ) : List Chunk → List Byte → Prog State Unit
  | [], _ => pure ()
  | c :: cs, bytes => do
    writeChunk inode c (bytes.take c.chars)
    writeLoop inode cs (bytes.drop c.chars)

/-- `inode_write(inode, buf, len, offset)`: the number of bytes written. -/
def inodeWrite (inode : ℕ) (bytes : List Byte) (offset : ℤ) : Prog State ℕ := do
  assert ((← peek fun s => s.mode inode) ≠ 0)
  writeLoop inode (chunks bytes.length bytes.length offset) bytes
  touch inode
  poke fun s => s.setMtime inode (s.inodeTable inode).atime
  bwrite (some (← peek fun s => s.ibuf inode))
  return bytes.length

/-- `inode_bfree(inode, array, index, level)` for the array at `addr` in block `buf`. -/
def inodeBfree (inode : ℕ) : (level buf addr index : ℕ) → Prog State Unit
  | 0, buf, addr, index => do
    let cell ← peek fun s => (s.data buf).rd16 (addr + 2 * index)
    if cell = 0 then return ()
    else bfree (← peek fun s => (s.inodeTable inode).dev) cell
  | level + 1, buf, addr, index => do
    let cell ← peek fun s => (s.data buf).rd16 (addr + 2 * index)
    if cell = 0 then return ()
    else do
      let dev ← peek fun s => (s.inodeTable inode).dev
      let b ← bread dev cell
      loop (fun i => inodeBfree inode level b 0 i) BLOCK_INDEXES 0
      brelse (some b)
      bfree dev (← peek fun s => (s.data buf).rd16 (addr + 2 * index))

/-- `inode_bfree` of `desc->zone[index]`, which is set to 0. -/
def freeZone (inode level index : ℕ) : Prog State Unit := do
  let buf ← peek fun s => s.ibuf inode
  let zone ← peek fun s => s.izone inode
  inodeBfree inode level buf zone index
  poke fun s => s.setData buf ((s.data buf).wr16 (zone + 2 * index) 0)

/-- `inode_truncate(inode)`. -/
def inodeTruncate (inode : ℕ) : Prog State Unit := do
  let mode ← peek fun s => s.mode inode
  if !isFile mode && !isDir mode then return ()
  else do
    loop (freeZone inode 0) DIRECT_BLOCK 0
    freeZone inode 1 DIRECT_BLOCK
    freeZone inode 2 (DIRECT_BLOCK + 1)
    poke fun s => (s.setSize inode 0).dirtyInode inode
    let t ← time
    poke fun s => s.setMtime inode t
    bwrite (some (← peek fun s => s.ibuf inode))

end Onix.Fs
