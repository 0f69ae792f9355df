import Onix.Lib.Turns
import Onix.Spec.Namei

/-! The loop of `named` turn by turn: what it is that it ends. -/

namespace Onix.Fs

open Function Prog Cstr

/-- The variables of the loop of `named`. -/
structure Turn where
  inode : ℕ
  left : Str
  buf : Option ℕ

/-- One turn of the loop of `named`: it goes on, or `named` returns. -/
def namedTurn (right : Str) (x : Turn) : Prog State (Turn ⊕ Option (ℕ × Str)) := do
  brelse x.buf
  match ← findEntry x.inode x.left with
  | none => do
    iput (some x.inode)
    return .inr none
  | some (entry, next) => do
    let dev ← peek fun s => (s.inodeTable x.inode).dev
    iput (some x.inode)
    let inode ← iget dev (← peek fun s => s.entryNr entry)
    if !(← peek fun s => isDir (s.mode inode) && s.permission inode P_EXEC) then do
      brelse (some entry.buf)
      iput (some inode)
      return .inr none
    else if right.length = next.length then do
      brelse (some entry.buf)
      return .inr (some (inode, next))
    else return .inl ⟨inode, next, some entry.buf⟩

/-- The directory, the path and `right` with which `named` comes to its loop, if it does. -/
def entersFrom (inode : ℕ) (left : Str) : Option (ℕ × Str × Str) :=
  if deref left = EOS then none else (strrsep left).map fun right => (inode, left, right.tail)

def State.enters (s : State) (pathname : Str) : Option (ℕ × Str × Str) :=
  if isSeparator (deref pathname) then entersFrom s.task.iroot pathname.tail
  else entersFrom s.task.ipwd pathname

/-- `inode->count++`. -/
def State.counted (s : State) (inode : ℕ) : State :=
  s.modInode inode fun n => { n with count := (n.count + 1) % 2 ^ 32 }

end Onix.Fs
