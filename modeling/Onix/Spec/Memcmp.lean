import Onix.Spec.Path

/-! `memcmp` of `lib/string.c` on memory, with the addresses it reads. -/

namespace Onix.Bytes

/-- The loop of `memcmp` at its end: `count`, the pointers and the addresses read through them. -/
structure Scan where
  count : ℕ
  lptr : ℕ
  rptr : ℕ
  lread : List ℕ
  rread : List ℕ

/-- The result of `memcmp`, and the addresses read on either side. -/
structure Comparison where
  value : ℤ
  lread : List ℕ
  rread : List ℕ
  deriving DecidableEq

variable (b : Bytes) (lhs rhs count : ℕ)

/-- The loop of `memcmp`; the last `count--` is done where the test of the loop fails. -/
def memcmpLoop (lptr rptr : ℕ) : (count : ℕ) → Scan
  | 0 => ⟨2 ^ 32 - 1, lptr, rptr, [], []⟩
  | count + 1 =>
    if b lptr = b rptr then
      let s := memcmpLoop (lptr + 1) (rptr + 1) count
      { s with lread := lptr :: s.lread, rread := rptr :: s.rread }
    else ⟨count, lptr, rptr, [lptr], [rptr]⟩

/-- `memcmp(lhs, rhs, count)`. -/
def memcmp : Comparison :=
  let s := b.memcmpLoop lhs rhs count
  if s.count = 0 then ⟨0, s.lread, s.rread⟩
  else ⟨Cstr.compare (b s.lptr) (b s.rptr), s.lread ++ [s.lptr], s.rread ++ [s.rptr]⟩

/-- A comparison of the `count` bytes at `lhs` and `rhs`: it reads no others, and its sign is
that of the first two that differ. -/
structure Compares (c : Comparison) : Prop where
  lread : ∀ a ∈ c.lread, lhs ≤ a ∧ a < lhs + count
  rread : ∀ a ∈ c.rread, rhs ≤ a ∧ a < rhs + count
  zero : c.value = 0 ↔ ∀ i < count, b (lhs + i) = b (rhs + i)
  sign : ∀ i < count, (∀ j < i, b (lhs + j) = b (rhs + j)) → b (lhs + i) ≠ b (rhs + i) →
    c.value.sign = ((b (lhs + i)).toInt - (b (rhs + i)).toInt).sign

end Onix.Bytes
