import Onix.Lib.Outcome
import Onix.Spec.Fs

/-! `bmap(inode, block, true)` of `fs/bmap.c` by many tasks on one inode and one file
block. They overtake each other at the disk accesses: the `bwrite` of `balloc`, the
`brelse` of the array and the `bread` of the next one. Which free zone `balloc` finds is
left open. -/

namespace Onix.Reckon

open Function Fs

/-- The local variables of the loop of `bmap`, but for the array. -/
structure Frame where
  level : ℕ
  index : ℕ
  block : ℕ
  divider : ℕ
  deriving DecidableEq

/-- Before label `reckon`. -/
def first (block : ℕ) : Frame :=
  if block < DIRECT_BLOCK then ⟨0, block, block, 1⟩
  else
    let block := block - DIRECT_BLOCK
    if block < INDIRECT1_BLOCK then ⟨1, DIRECT_BLOCK, block, 1⟩
    else ⟨2, DIRECT_BLOCK + 1, block - INDIRECT1_BLOCK, BLOCK_INDEXES⟩

/-- One level down. -/
def Frame.next (f : Frame) : Frame :=
  ⟨f.level - 1, f.block / f.divider % 2 ^ 16, f.block % f.divider, f.divider / BLOCK_INDEXES⟩

/-- The disk access that a task is in: `array` is `none` for `inode->desc->zone` and a
block for the cells of an index block. -/
inductive Pc where
  | out
  | balloc (array : Option ℕ) (f : Frame) (nr : ℕ)
  | brelse (array : Option ℕ) (f : Frame)
  | bread (block : ℕ) (f : Frame)
  deriving DecidableEq

/-- The arrays as the cache shows them, and the zones whose bit is set. `rets` are the
calls that have returned, with their values; the code does not read it. -/
structure State (τ : Type*) where
  array : Option ℕ → ℕ → ℕ
  used : ℕ → Bool
  pc : τ → Pc
  rets : List (τ × ℕ)

/-- Both with the zone that `balloc` finds where it is called. -/
inductive Act (τ : Type*) where
  | bmap (t : τ) (nr : ℕ)
  /-- The disk access of `t` is over. -/
  | go (t : τ) (nr : ℕ)

variable {τ : Type*} [DecidableEq τ]

namespace State

variable (s : State τ)

def put (array : Option ℕ) (index v : ℕ) : State τ :=
  { s with array := update s.array array (update (s.array array) index v) }

def goto (t : τ) (p : Pc) : State τ := { s with pc := update s.pc t p }

def mark (nr : ℕ) : State τ := { s with used := update s.used nr true }

def ret (t : τ) (v : ℕ) : State τ := { s.goto t .out with rets := (t, v) :: s.rets }

end State

/-- A turn of the loop up to its first disk access. -/
def turn (s : State τ) (t : τ) (array : Option ℕ) (f : Frame) (nr : ℕ) : Outcome (State τ) :=
  if s.array array f.index = 0 then
    .guard (0 < nr ∧ nr < 2 ^ 16 ∧ !s.used nr) <| .next ((s.mark nr).goto t (.balloc array f nr))
  else .next (s.goto t (.brelse array f))

def exec (block : ℕ) (s : State τ) : Act τ → Outcome (State τ)
  | .bmap t nr => .guard (s.pc t = .out) <|
    .assert (block < TOTAL_BLOCK) <| turn s t none (first block) nr
  | .go t nr =>
    match s.pc t with
    | .out => .refused
    | .balloc array f nr => .next ((s.put array f.index nr).goto t (.brelse array f))
    | .brelse array f =>
      let v := s.array array f.index
      .next (if f.level = 0 ∨ v = 0 then s.ret t v else s.goto t (.bread v f))
    | .bread b f => turn s t (some b) f.next nr

def Step (block : ℕ) (s : State τ) (a : Act τ) (s' : State τ) : Prop := exec block s a = .next s'

/-- The loop from `f` by a task alone that creates nothing. -/
def State.reckon (s : State τ) : ℕ → Option ℕ → Frame → ℕ
  | 0, array, f => s.array array f.index
  | level + 1, array, f =>
    if s.array array f.index = 0 then 0
    else s.reckon level (some (s.array array f.index)) f.next

/-- `bmap(inode, block, false)`. -/
def State.bmap (s : State τ) (block : ℕ) : ℕ := s.reckon (first block).level none (first block)

/-- In the `balloc` for the cell. -/
def Pc.Fills (array : Option ℕ) (index : ℕ) : Pc → Prop
  | .balloc a f _ => a = array ∧ f.index = index
  | _ => False

def State.Filling (s : State τ) (array : Option ℕ) (index : ℕ) : Prop :=
  ∃ t, (s.pc t).Fills array index

/-- The block is not mapped, and nobody is in `bmap`. -/
structure Init (block : ℕ) (s : State τ) : Prop where
  unmapped : s.bmap block = 0
  pc : ∀ t, s.pc t = .out
  rets : s.rets = []

end Onix.Reckon
