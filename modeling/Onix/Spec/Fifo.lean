import Mathlib

/-! `lib/fifo.c`: the circular queue, for elements of any kind. -/

namespace Onix

open Function

/-- `fifo_t`. -/
structure Fifo (α : Type*) where
  buf : ℕ → α
  length : ℕ
  head : ℕ
  tail : ℕ

namespace Fifo

variable {α : Type*} (f : Fifo α)

/-- `fifo_next`. -/
def next (pos : ℕ) : ℕ := (pos + 1) % 2 ^ 32 % f.length

/-- `fifo_init`. -/
def init (buf : ℕ → α) (length : ℕ) : Fifo α := ⟨buf, length, 0, 0⟩

/-- `fifo_full`. -/
def full : Bool := f.next f.head = f.tail

/-- `fifo_empty`. -/
def empty : Bool := f.head = f.tail

/-- `fifo_get`; `none` is the failed assertion. -/
def get : Option (α × Fifo α) :=
  if f.empty then none else some (f.buf f.tail, { f with tail := f.next f.tail })

/-- The loop of `fifo_put`: what it takes out is dropped. The bound on the turns is
never met, see `Holds.put`. -/
def makeRoom (f : Fifo α) : (turns : ℕ) → Option (List α × Fifo α)
  | 0 => none
  | n + 1 =>
    if f.full then
      match f.get with
      | none => none
      | some (a, f) => (makeRoom f n).map fun (dropped, f) => (a :: dropped, f)
    else some ([], f)

/-- `fifo_put`, with what it dropped. -/
def put (a : α) : Option (List α × Fifo α) :=
  (makeRoom f (f.length + 1)).map fun (dropped, f) =>
    (dropped, { f with buf := update f.buf f.head a, head := f.next f.head })

/-- The elements in the queue, the oldest first. -/
def contents : List α :=
  (List.range ((f.head + f.length - f.tail) % f.length)).map fun i => f.buf ((f.tail + i) % f.length)

end Fifo

end Onix
