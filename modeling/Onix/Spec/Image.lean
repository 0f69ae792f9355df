import Onix.Spec.File

/-! A mounted volume made from its inodes and blocks: one block each for the inode
bitmap, the zone bitmap and the descriptors, then the data. Inode 1 is the root. -/

namespace Onix.Fs

open Function Cstr

def le16 (v : ℕ) : List Byte := [BitVec.ofNat 8 v, BitVec.ofNat 8 (v / 2 ^ 8)]

def le32 (v : ℕ) : List Byte := le16 v ++ le16 (v / 2 ^ 16)

/-- `inode_desc_t`. -/
structure Desc where
  mode : ℕ
  uid : ℕ
  size : ℕ
  nlinks : ℕ
  zone : List ℕ

def Desc.bytes (d : Desc) : List Byte :=
  le16 d.mode ++ le16 d.uid ++ le32 d.size ++ le32 0 ++ [0, BitVec.ofNat 8 d.nlinks] ++
    (d.zone ++ List.replicate (9 - d.zone.length) 0).flatMap le16

/-- `dentry_t`. -/
def dentry (nr : ℕ) (name : Str) : List Byte :=
  le16 nr ++ name ++ List.replicate (NAME_LEN - name.length) 0

def blockOf (bytes : List Byte) : Block := fun i => bytes.getD i 0

/-- The block of a bitmap. -/
def bitmapOf (bit : ℕ → Bool) : Block := fun i =>
  BitVec.ofNat 8 ((List.range 8).foldr (fun j n => 2 * n + (bit (8 * i + j)).toNat) 0)

structure Image where
  descs : List Desc
  blocks : List (List Byte)
  uid : ℕ

def Image.data (m : Image) (b : ℕ) : Block :=
  if b = 2 then bitmapOf fun k => k ≤ m.descs.length ∨ BLOCK_INODES < k
  else if b = 3 then bitmapOf fun k => k ≤ m.blocks.length ∨ 64 ≤ 4 + k
  else if b = 4 then blockOf (m.descs.flatMap Desc.bytes)
  else blockOf (m.blocks.getD (b - 5) [])

def freeInodeT : InodeT :=
  { slot := 0, buf := 0, dev := NODEV, nr := 0, count := 0, atime := 0, ctime := 0 }

/-- The volume right after mounting, with the root as directory of the task. -/
def Image.mount (m : Image) : State where
  cache := {
    data := m.data
    count b := if b = 2 ∨ b = 3 ∨ b = 4 then 1 else 0
    dirty _ := false
    disk := m.data }
  dev := 1
  sb := {
    desc := { inodes := BLOCK_INODES, zones := 64, imapBlocks := 1, zmapBlocks := 1,
              firstdatazone := 5 }
    imaps i := if i = 0 then some 2 else none
    zmaps i := if i = 0 then some 3 else none
    inodeList := [0] }
  inodeTable i := if i = 0 then { freeInodeT with buf := 4, dev := 1, nr := 1, count := 3 }
    else freeInodeT
  fileTable _ := { inode := none, count := 0, offset := 0, flags := 0, mode := 0 }
  tasks _ := { uid := m.uid, gid := m.uid, ipwd := 0, iroot := 0, umask := 0o022,
               files := fun _ => none, pwd := strcpy (fun _ => 0) 0 [SEPARATOR1] }
  running := 0
  clock _ := 0
  ticks := 0

/-- The path of a file `a` in the root. -/
def fileA : Str := [SEPARATOR1, 0x61]

end Onix.Fs
