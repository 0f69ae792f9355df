import Onix.Lib.Trace
import Onix.Spec.Inode

/-! `inode_truncate` with its calls of `bread` and `bfree` noted. -/

namespace Onix.Fs

open Function Prog

inductive BlockCall where
  | bread (block : ℕ)
  | bfree (idx : ℕ)
  deriving DecidableEq

/-- `inode_bfree(inode, array, index, level)`, noted. -/
def inodeBfreeNoted (inode : ℕ) : (level buf addr index : ℕ) → Noted State BlockCall Unit
  | 0, buf, addr, index => do
    let cell ← still (peek fun s => (s.data buf).rd16 (addr + 2 * index))
    if cell = 0 then return ()
    else do
      let dev ← still (peek fun s => (s.inodeTable inode).dev)
      note (.bfree cell) (bfree dev cell)
  | level + 1, buf, addr, index => do
    let cell ← still (peek fun s => (s.data buf).rd16 (addr + 2 * index))
    if cell = 0 then return ()
    else do
      let dev ← still (peek fun s => (s.inodeTable inode).dev)
      let b ← note (.bread cell) (bread dev cell)
      loop (fun i => inodeBfreeNoted inode level b 0 i) BLOCK_INDEXES 0
      still (brelse (some b))
      let cell ← still (peek fun s => (s.data buf).rd16 (addr + 2 * index))
      note (.bfree cell) (bfree dev cell)

/-- `inode_bfree` of `desc->zone[index]`, which is set to 0. -/
def freeZoneNoted (inode level index : ℕ) : Noted State BlockCall Unit := do
  let buf ← still (peek fun s => s.ibuf inode)
  let zone ← still (peek fun s => s.izone inode)
  inodeBfreeNoted inode level buf zone index
  still (poke fun s => s.setData buf ((s.data buf).wr16 (zone + 2 * index) 0))

/-- The end of `inode_truncate`. -/
def truncated (inode : ℕ) : Prog State Unit := do
  poke fun s => (s.setSize inode 0).dirtyInode inode
  let t ← time
  poke fun s => s.setMtime inode t
  bwrite (some (← peek fun s => s.ibuf inode))

/-- `inode_truncate(inode)`, noted. -/
def inodeTruncateNoted (inode : ℕ) : Noted State BlockCall Unit := do
  let mode ← still (peek fun s => s.mode inode)
  if !isFile mode && !isDir mode then return ()
  else do
    loop (freeZoneNoted inode 0) DIRECT_BLOCK 0
    freeZoneNoted inode 1 DIRECT_BLOCK
    freeZoneNoted inode 2 (DIRECT_BLOCK + 1)
    still (truncated inode)

theorem inodeBfreeNoted_erases (inode level buf addr index : ℕ) :
    Erases (inodeBfreeNoted inode level buf addr index) (inodeBfree inode level buf addr index) := by
  induction level generalizing buf addr index with
  | zero =>
    exact (erases_still _).bind fun _ => .ite (erases_pure ()) ((erases_still _).bind fun _ =>
      erases_note _ _)
  | succ level ih =>
    unfold inodeBfreeNoted inodeBfree
    exact (erases_still _).bind fun _ => .ite (erases_pure ()) ((erases_still _).bind fun _ =>
      (erases_note _ _).bind fun _ => (erases_loop (fun _ => ih _ _ _) _ _).bind fun _ =>
      (erases_still _).bind fun _ => (erases_still _).bind fun _ => erases_note _ _)

theorem freeZoneNoted_erases (inode level index : ℕ) :
    Erases (freeZoneNoted inode level index) (freeZone inode level index) :=
  (erases_still _).bind fun _ => (erases_still _).bind fun _ =>
    (inodeBfreeNoted_erases _ _ _ _ _).bind fun _ => erases_still _

/-- Without the notes it is `inode_truncate`. -/
theorem inodeTruncateNoted_erases (inode : ℕ) :
    Erases (inodeTruncateNoted inode) (inodeTruncate inode) :=
  (erases_still _).bind fun _ => .ite (erases_pure ())
    ((erases_loop (fun _ => freeZoneNoted_erases _ _ _) _ _).bind fun _ =>
      (freeZoneNoted_erases _ _ _).bind fun _ => (freeZoneNoted_erases _ _ _).bind fun _ =>
      erases_still (truncated inode))

end Onix.Fs
