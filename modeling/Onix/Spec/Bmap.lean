import Onix.Spec.Fs

/-! `fs/bmap.c`: allocating and freeing blocks and inodes, and the map from a
file's blocks to the device's. -/

namespace Onix.Fs

open Function Prog

/-- The loop of `balloc` and `ialloc` over the bitmap blocks from `i`: the last
buffer looked at and the bit found. -/
def scanMaps (maps : ℕ → Option ℕ) (length : ℕ) (offset : ℕ → ℕ) (limit : ℕ) :
    ℕ → ℕ → Option ℕ → Prog State (Option ℕ × ℕ)
  | 0, _, buf => pure (buf, EOF)
  | n + 1, i, _ =>
    match maps i with
    | none => stop
    | some buf => do
      let data ← peek fun s => s.data buf
      let (bit, map) ← lift (bitmapScan (bitmapMake data BLOCK_SIZE length (offset i)) 1)
      poke fun s => s.setData buf map.bits
      if bit ≠ EOF then do
        assert (bit < limit)
        poke fun s => s.setDirty buf
        return (some buf, bit)
      else scanMaps maps length offset limit n (i + 1) (some buf)

/-- The loop of `bfree` and `ifree`: the buffer whose bit was cleared. -/
def clearMaps (maps : ℕ → Option ℕ) (length : ℕ) (offset : ℕ → ℕ) (idx : ℕ) :
    ℕ → ℕ → Prog State (Option ℕ)
  | 0, _ => stop
  | n + 1, i =>
    if idx > BLOCK_BITS * (i + 1) then clearMaps maps length offset idx n (i + 1)
    else
      match maps i with
      | none => stop
      | some buf => do
        let data ← peek fun s => s.data buf
        let map := bitmapMake data BLOCK_SIZE length (offset i)
        assert (← lift (bitmapTest map idx))
        let map ← lift (bitmapSet map idx false)
        poke fun s => (s.setData buf map.bits).setDirty buf
        return some buf

/-- The `offset` of zone bitmap block `i` in `balloc`. -/
def ballocOffset (sb : SuperBlock) (i : ℕ) : ℕ := sub32 (i * BLOCK_SIZE + sb.desc.firstdatazone) 1

/-- The `offset` of zone bitmap block `i` in `bfree`. -/
def bfreeOffset (sb : SuperBlock) (i : ℕ) : ℕ := sub32 (BLOCK_BITS * i + sb.desc.firstdatazone) 1

/-- The `offset` of inode bitmap block `i`. -/
def imapOffset (i : ℕ) : ℕ := i * BLOCK_BITS

/-- `balloc(dev)`. -/
def balloc (dev : ℤ) : Prog State ℕ := do
  let sb ← getSuper dev
  let (buf, bit) ← scanMaps sb.zmaps BLOCK_SIZE (ballocOffset sb) sb.desc.zones ZMAP_NR 0 none
  bwrite buf
  return bit

/-- `bfree(dev, idx)`. -/
def bfree (dev : ℤ) (idx : ℕ) : Prog State Unit := do
  let sb ← getSuper dev
  assert (idx < sb.desc.zones)
  let buf ← clearMaps sb.zmaps BLOCK_SIZE (bfreeOffset sb) idx ZMAP_NR 0
  bwrite buf

/-- `ialloc(dev)`. -/
def ialloc (dev : ℤ) : Prog State ℕ := do
  let sb ← getSuper dev
  let (buf, bit) ← scanMaps sb.imaps BLOCK_BITS imapOffset sb.desc.inodes IMAP_NR 0 none
  bwrite buf
  return bit

/-- `ifree(dev, idx)`. -/
def ifree (dev : ℤ) (idx : ℕ) : Prog State Unit := do
  let sb ← getSuper dev
  assert (idx < sb.desc.inodes)
  let buf ← clearMaps sb.imaps BLOCK_BITS imapOffset idx IMAP_NR 0
  bwrite buf

/-- One turn of the loop of `bmap`: the cell `array[index]` of the array at
`addr` in the block of `buf`, filled where it is empty and `create` is set. -/
def bmapCell (dev : ℤ) (create : Bool) (buf addr index : ℕ) : Prog State ℕ := do
  let cell ← peek fun s => (s.data buf).rd16 (addr + 2 * index)
  if cell = 0 && create then do
    let nr ← balloc dev
    poke fun s => (s.setData buf ((s.data buf).wr16 (addr + 2 * index) nr)).setDirty buf
  brelse (some buf)
  peek fun s => (s.data buf).rd16 (addr + 2 * index)

/-- The loop of `bmap` from `level` down. -/
def bmapLoop (dev : ℤ) (create : Bool) :
    (level buf addr index block divider : ℕ) → Prog State ℕ
  | 0, buf, addr, index, _, _ => bmapCell dev create buf addr index
  | level + 1, buf, addr, index, block, divider => do
    let cell ← bmapCell dev create buf addr index
    if cell = 0 then return cell
    else do
      let buf ← bread dev cell
      bmapLoop dev create level buf 0 (block / divider % 2 ^ 16) (block % divider)
        (divider / BLOCK_INDEXES)

/-- `bmap(inode, block, create)`. -/
def bmap (inode block : ℕ) (create : Bool) : Prog State ℕ := do
  assert (block < TOTAL_BLOCK)
  let dev ← peek fun s => (s.inodeTable inode).dev
  let buf ← peek fun s => s.ibuf inode
  let zone ← peek fun s => s.izone inode
  poke fun s => { s with cache := s.cache.hold buf }
  if block < DIRECT_BLOCK then bmapLoop dev create 0 buf zone block block 1
  else do
    let block := block - DIRECT_BLOCK
    if block < INDIRECT1_BLOCK then bmapLoop dev create 1 buf zone DIRECT_BLOCK block 1
    else do
      let block := block - INDIRECT1_BLOCK
      assert (block < INDIRECT2_BLOCK)
      bmapLoop dev create 2 buf zone (DIRECT_BLOCK + 1) block BLOCK_INDEXES

end Onix.Fs
