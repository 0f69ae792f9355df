import Onix.Spec.Inode

/-! What the functions of `fs/inode.c` are for: a volume is a collection of files with numbers,
each of them a mode, a size and bytes. -/

namespace Onix.Fs

open Function

/-- A file. A byte is `none` where the file has no block. -/
structure Content where
  mode : ℕ
  size : ℕ
  byte : ℕ → Option Byte

abbrev Files := ℕ → Option Content

/-- `out` is what the reading of `left` bytes from `n` on returned, `none` for `EOF`. -/
inductive FileOp where
  | read (n left : ℕ) (out : Option (List Byte))
  | write (n : ℕ) (bytes : List Byte)
  | truncate

/-- What may become of a file. A write that adds a block to it leaves open what is in the rest of
that block. -/
def Content.After (f : Content) : FileOp → Content → Prop
  | .read n _ none, g => g = f ∧ f.size ≤ n
  | .read n left (some out), g => g = f ∧ n < f.size ∧ out.length = min left (f.size - n) ∧
      ∀ p, n ≤ p → p < n + out.length → f.byte p = some (out.getD (p - n) 0)
  | .write n bytes, g => g.mode = f.mode ∧
      g.size = (if bytes = [] then f.size else max f.size (n + bytes.length)) ∧
      (∀ p, n ≤ p → p < n + bytes.length → g.byte p = some (bytes.getD (p - n) 0)) ∧
      ∀ p c, ¬ (n ≤ p ∧ p < n + bytes.length) → f.byte p = some c → g.byte p = some c
  | .truncate, g => g = if isFile f.mode ∨ isDir f.mode then ⟨f.mode, 0, fun _ => none⟩ else f

/-- One file changes, the others do not. -/
def Files.Step (f : Files) (a : ℕ × FileOp) (g : Files) : Prop :=
  ∃ c d, f a.1 = some c ∧ c.After a.2 d ∧ g = update f a.1 (some d)

end Onix.Fs
