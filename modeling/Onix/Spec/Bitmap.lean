import Onix.Lib.Bytes

/-! `kernel/bitmap.c`. -/

namespace Onix

def EOF : ℕ := 2 ^ 32 - 1

/-- `bitmap_t`; `size` is the size of the object that `bits` points into: an
access beyond it is not modelled and stops. -/
structure BitmapT where
  bits : Bytes
  size : ℕ
  length : ℕ
  offset : ℕ

/-- `bitmap_make`. -/
def bitmapMake (bits : Bytes) (size length offset : ℕ) : BitmapT := ⟨bits, size, length, offset⟩

variable (map : BitmapT)

/-- `bitmap_test`; `none` is a failed assertion. -/
def bitmapTest (index : ℕ) : Option Bool :=
  if index < map.offset then none
  else
    let idx := index - map.offset
    if map.length ≤ idx / 8 ∨ map.size ≤ idx / 8 then none else some (map.bits.bit idx)

/-- `bitmap_set`. -/
def bitmapSet (index : ℕ) (value : Bool) : Option BitmapT :=
  if index < map.offset then none
  else
    let idx := index - map.offset
    if map.size ≤ idx / 8 then none else some { map with bits := map.bits.setBit idx value }

/-- The first loop of `bitmap_scan`: `start` where a run was found, and `counter`. -/
def scanLoop (count : ℕ) : ℕ → ℕ → ℕ → Option (Option ℕ × ℕ)
  | 0, _, counter => some (none, counter)
  | bitsLeft + 1, nextBit, counter =>
    match bitmapTest map ((map.offset + nextBit) % 2 ^ 32) with
    | none => none
    | some b =>
      let counter := if b then 0 else counter + 1
      let nextBit := nextBit + 1
      if counter = count then some (some (nextBit - count), counter)
      else scanLoop count bitsLeft nextBit counter

/-- The second loop of `bitmap_scan`. -/
def setLoop (map : BitmapT) : ℕ → ℕ → Option BitmapT
  | 0, _ => some map
  | bitsLeft + 1, nextBit =>
    match bitmapSet map ((map.offset + nextBit) % 2 ^ 32) true with
    | none => none
    | some map => setLoop map bitsLeft (nextBit + 1)

/-- `bitmap_scan`, the result as a `u32`. -/
def bitmapScan (count : ℕ) : Option (ℕ × BitmapT) :=
  match scanLoop map count (map.length * 8 % 2 ^ 32) 0 0 with
  | none => none
  | some (none, _) => some (EOF, map)
  | some (some start, counter) =>
    (setLoop map counter start).map fun map => ((start + map.offset) % 2 ^ 32, map)

end Onix
