import Mathlib.Order.Bounds.Basic
import Onix.Sanity.BitmapScan

/-! `bitmap_scan` is first fit: it takes the lowest run that is long enough and
nothing else, what it took can be given back, and it fails only where there is
no such run. -/

namespace Onix

variable {map map' : BitmapT} {count index n s : ℕ}

open Bytes

namespace BitmapT

/-- `bitmap_test` finds each of the `count` bits from index `s` clear. -/
def Free (map : BitmapT) (count s : ℕ) : Prop := ∀ k < count, bitmapTest map (s + k) = some false

/-- `map'` is `map` with the `count` bits from index `s` set. -/
structure Took (map map' : BitmapT) (count s : ℕ) : Prop where
  set : ∀ k < count, bitmapTest map' (s + k) = some true
  bit : ∀ i, i + map.offset < s ∨ s + count ≤ i + map.offset → map'.bits.bit i = map.bits.bit i
  size : map'.size = map.size
  length : map'.length = map.length
  offset : map'.offset = map.offset

end BitmapT

open BitmapT

/-- `bitmap_set` to 0 of `count` bits from `index`. -/
def clearBits (map : BitmapT) (index : ℕ) : (count : ℕ) → Option BitmapT
  | 0 => some map
  | n + 1 =>
    match bitmapSet map index false with
    | none => none
    | some map => clearBits map (index + 1) n

/-- `bitmap_test` on any index. -/
theorem bitmapTest_false (h : map.Fits) :
    bitmapTest map index = some false ↔
      map.offset ≤ index ∧ index < map.offset + map.length * 8 ∧
        map.bits.bit (index - map.offset) = false := by
  by_cases hin : map.offset ≤ index ∧ index < map.offset + map.length * 8
  · have := bitmapTest_eq h (k := index - map.offset) (by omega)
    rw [Nat.add_sub_cancel' hin.1] at this
    rw [this, Option.some_inj]
    exact ⟨fun hb => ⟨hin.1, hin.2, hb⟩, fun hb => hb.2.2⟩
  · refine ⟨fun ht => ?_, fun hb => absurd ⟨hb.1, hb.2.1⟩ hin⟩
    unfold bitmapTest at ht
    split at ht
    · exact absurd ht (by simp)
    · dsimp only at ht
      rw [if_pos (Or.inl (by omega))] at ht
      exact absurd ht (by simp)

/-- The runs that `bitmap_test` finds are the clear runs of the first bits. -/
theorem free_iff (h : map.Fits) (hcount : 0 < count) :
    map.Free count s ↔
      ∃ k, s = k + map.offset ∧ k + count ≤ map.length * 8 ∧ map.bits.Clear k count := by
  constructor
  · intro hf
    have hfirst := (bitmapTest_false h).mp (hf 0 hcount)
    have hlast := (bitmapTest_false h).mp (hf (count - 1) (by omega))
    refine ⟨s - map.offset, by omega, by omega, fun j hj hlt => ?_⟩
    have := ((bitmapTest_false h).mp (hf (j + map.offset - s) (by omega))).2.2
    rwa [show s + (j + map.offset - s) - map.offset = j by omega] at this
  · rintro ⟨k, rfl, hle, hclear⟩ j hj
    apply (bitmapTest_false h).mpr
    refine ⟨by omega, by omega, ?_⟩
    exact hclear _ (by omega) (by omega)

theorem clearBits_spec (h : map.Fits) (n k : ℕ) (hn : k + n ≤ map.length * 8) :
    ∃ bits, clearBits map (k + map.offset) n = some { map with bits := bits } ∧
      ∀ j, bits.bit j = if k ≤ j ∧ j < k + n then false else map.bits.bit j := by
  induction n generalizing map k with
  | zero => exact ⟨map.bits, rfl, fun j => by rw [if_neg (by omega)]⟩
  | succ n ih =>
    unfold clearBits
    rw [Nat.add_comm k, bitmapSet_eq h (by omega)]
    have hfits : BitmapT.Fits { map with bits := map.bits.setBit k false } := ⟨h.size, h.index⟩
    obtain ⟨bits, hbits, hbit⟩ := ih hfits (k + 1) (by dsimp only; omega)
    refine ⟨bits, ?_, fun j => ?_⟩
    · rw [← hbits]
      dsimp only
      congr 1
      omega
    · rw [hbit j]
      dsimp only
      rw [bit_setBit]
      by_cases hj : j = k
      · subst hj
        simp
      · rw [if_neg hj]
        by_cases hj' : k + 1 ≤ j ∧ j < k + 1 + n
        · rw [if_pos hj', if_pos (by omega)]
        · rw [if_neg hj', if_neg (by omega)]

/-- Clearing what was set over a clear run gives the map back. -/
theorem clearBits_restores {bits : Bytes} (h : map.Fits) (hn : s + count ≤ map.length * 8)
    (hclear : map.bits.Clear s count)
    (hbit : ∀ j, bits.bit j = if s ≤ j ∧ j < s + count then true else map.bits.bit j) :
    clearBits { map with bits := bits } (s + map.offset) count = some map := by
  have hfits : BitmapT.Fits { map with bits := bits } := ⟨h.size, h.index⟩
  obtain ⟨bits', he, hbit'⟩ := clearBits_spec hfits count s hn
  have hsame : bits' = map.bits := by
    apply ext_bit
    intro j
    rw [hbit' j]
    by_cases hj : s ≤ j ∧ j < s + count
    · rw [if_pos hj, hclear j hj.1 hj.2]
    · rw [if_neg hj]
      dsimp only
      rw [hbit j, if_neg hj]
  rw [he, hsame]

/-- `bitmap_scan` never stops; it returns the lowest free run, and has then
taken that run and no other bit, or EOF where no run is free. -/
theorem bitmapScan_first_fit (map : BitmapT) (count : ℕ) (hsize : map.length ≤ map.size)
    (hindex : map.length * 8 + map.offset < 2 ^ 31) (hcount : 1 ≤ count) :
    ∃ r map', bitmapScan map count = some (r, map') ∧
      (r = EOF ↔ ∀ s, ¬ map.Free count s) ∧
      (r = EOF → map' = map) ∧
      (r ≠ EOF → IsLeast {s | map.offset ≤ s ∧ map.Free count s} r ∧ map.Took map' count r ∧
        clearBits map' r count = some map) := by
  have hfits : map.Fits := ⟨hsize, by omega⟩
  rcases bitmapScan_spec hfits hcount with ⟨s, bits, hs, he, hbit⟩ | ⟨hnone, he⟩
  · have hle := hs.le
    have hne : s + map.offset ≠ EOF := by
      unfold EOF
      omega
    have hfree : map.Free count (s + map.offset) :=
      (free_iff hfits hcount).mpr ⟨s, rfl, hle, hs.clear⟩
    refine ⟨s + map.offset, _, he, ?_, fun h => absurd h hne, fun _ => ⟨⟨⟨by omega, hfree⟩, ?_⟩, ?_, ?_⟩⟩
    · exact ⟨fun h => absurd h hne, fun h => absurd hfree (h _)⟩
    · intro t ht
      obtain ⟨k, rfl, -, hclear⟩ := (free_iff hfits hcount).mp ht.2
      by_contra hlt
      exact hs.first k (by omega) hclear
    · refine ⟨fun k hk => ?_, fun i hi => ?_, rfl, rfl, rfl⟩
      · have hfits' : BitmapT.Fits { map with bits := bits } := ⟨hsize, hfits.index⟩
        have := bitmapTest_eq hfits' (k := s + k) (by dsimp only; omega)
        dsimp only at this
        rw [show s + map.offset + k = map.offset + (s + k) by omega, this, hbit,
          if_pos (by omega)]
      · dsimp only
        rw [hbit, if_neg (by omega)]
    · exact clearBits_restores hfits hle hs.clear hbit
  · refine ⟨EOF, map, he, ⟨fun _ t ht => ?_, fun _ => rfl⟩, fun _ => rfl, fun h => absurd rfl h⟩
    obtain ⟨k, -, hle, hclear⟩ := (free_iff hfits hcount).mp ht
    exact hnone k hle hclear

/-- A map of two bytes at index 8, its first bit in use: a run of 3 is at 9. -/
theorem bitmapScan_first_fit_two :
    ∃ map : BitmapT, map.length = 2 ∧ map.offset = 8 ∧ map.bits.bit 0 = true ∧
      ∃ r map', bitmapScan map 3 = some (r, map') ∧ (r = EOF ↔ ∀ s, ¬ map.Free 3 s) ∧
        (r = EOF → map' = map) ∧
        (r ≠ EOF → IsLeast {s | map.offset ≤ s ∧ map.Free 3 s} r ∧ map.Took map' 3 r ∧
          clearBits map' r 3 = some map) :=
  ⟨⟨fun i => if i = 0 then 1#8 else 0#8, 2, 2, 8⟩, rfl, rfl, by decide,
    bitmapScan_first_fit _ 3 (by decide) (by decide) (by decide)⟩

end Onix
