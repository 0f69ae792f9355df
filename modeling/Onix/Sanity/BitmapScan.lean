import Onix.Spec.Bitmap

/-! What `bitmap_test`, `bitmap_set` and `bitmap_scan` do on a bitmap whose bits
all lie in its object and whose indices do not wrap. -/

namespace Onix

open Function

namespace Bytes

variable {b c : Bytes} {s n count k : ℕ}

/-- The `n` bits from `s` are 0. -/
def Clear (b : Bytes) (s n : ℕ) : Prop := ∀ k, s ≤ k → k < s + n → b.bit k = false

theorem ext_bit (h : ∀ k, b.bit k = c.bit k) : b = c := by
  funext i
  refine BitVec.eq_of_getLsbD_eq fun j hj => ?_
  have := h (8 * i + j)
  simpa only [bit, show (8 * i + j) / 8 = i by omega, show (8 * i + j) % 8 = j by omega] using this

theorem Clear.snoc (h : b.Clear s n) (hk : b.bit (s + n) = false) : b.Clear s (n + 1) := by
  intro k hs hn
  by_cases he : k = s + n
  · rw [he, hk]
  · exact h k hs (by omega)

/-- The first run of `count` zeros among the first `n` bits starts at `s`. -/
structure FirstRun (b : Bytes) (n count s : ℕ) : Prop where
  le : s + count ≤ n
  clear : b.Clear s count
  first : ∀ t < s, ¬ b.Clear t count

theorem FirstRun.unique {s t : ℕ} (h : FirstRun b n count s) (h' : FirstRun b n count t) :
    s = t := by
  rcases Nat.lt_trichotomy s t with hlt | rfl | hlt
  · exact absurd h.clear (h'.first s hlt)
  · rfl
  · exact absurd h'.clear (h.first t hlt)

end Bytes

open Bytes

variable {map : BitmapT} {count k s : ℕ} {value : Bool}

/-- The bits lie in the object and the indices fit in 32 bits. -/
structure BitmapT.Fits (map : BitmapT) : Prop where
  size : map.length ≤ map.size
  index : map.offset + map.length * 8 < 2 ^ 32

theorem bitmapTest_eq (h : map.Fits) (hk : k < map.length * 8) :
    bitmapTest map (map.offset + k) = some (map.bits.bit k) := by
  have := h.size
  unfold bitmapTest
  rw [if_neg (by omega)]
  simp only [Nat.add_sub_cancel_left]
  rw [if_neg (by omega)]

theorem bitmapSet_eq {b : Bool} (h : map.Fits) (hk : k < map.length * 8) :
    bitmapSet map (map.offset + k) b =
      some { map with bits := map.bits.setBit k b } := by
  have := h.size
  unfold bitmapSet
  rw [if_neg (by omega)]
  simp only [Nat.add_sub_cancel_left]
  rw [if_neg (by omega)]

/-- The first loop, from bit `k` with `counter` zeros just passed. -/
theorem scanLoop_spec (h : map.Fits) (n k counter : ℕ) (hn : k + n = map.length * 8)
    (hc : counter ≤ k) (hlt : counter < count) (hclear : map.bits.Clear (k - counter) counter)
    (hstart : k - counter = 0 ∨ map.bits.bit (k - counter - 1) = true)
    (hnone : ∀ t, t + count ≤ k → ¬ map.bits.Clear t count) :
    (∃ s, map.bits.FirstRun (map.length * 8) count s ∧
      scanLoop map count n k counter = some (some s, count)) ∨
    ((∀ t, t + count ≤ map.length * 8 → ¬ map.bits.Clear t count) ∧
      ∃ c, scanLoop map count n k counter = some (none, c)) := by
  induction n generalizing k counter with
  | zero =>
    refine Or.inr ⟨fun t ht => hnone t (by omega), counter, rfl⟩
  | succ n ih =>
    have hwrap : (map.offset + k) % 2 ^ 32 = map.offset + k := by
      have := h.index
      exact Nat.mod_eq_of_lt (by omega)
    unfold scanLoop
    rw [hwrap, bitmapTest_eq h (by omega)]
    -- a run that ends with bit `k` starts where the counter started or later
    have late : ∀ t, t + count = k + 1 → map.bits.Clear t count → k - counter ≤ t := by
      intro t ht hcl
      by_contra hlt'
      rcases hstart with h0 | h1
      · omega
      · rw [hcl (k - counter - 1) (by omega) (by omega)] at h1
        exact absurd h1 (by decide)
    cases hb : map.bits.bit k with
    | true =>
      simp only [if_true]
      rw [if_neg (by omega)]
      refine ih (k + 1) 0 (by omega) (by omega) (by omega) (fun j _ _ => by omega)
        (Or.inr (by simpa using hb)) fun t ht hcl => ?_
      by_cases he : t + count = k + 1
      · rw [hcl k (by omega) (by omega)] at hb
        exact absurd hb (by decide)
      · exact hnone t (by omega) hcl
    | false =>
      simp only [Bool.false_eq_true, if_false]
      have hclear' : map.bits.Clear (k - counter) (counter + 1) :=
        hclear.snoc (by rwa [Nat.sub_add_cancel hc])
      by_cases he : counter + 1 = count
      · rw [if_pos he]
        refine Or.inl ⟨k + 1 - count, ⟨by omega, ?_, fun t ht hcl => hnone t (by omega) hcl⟩, by
          rw [he]⟩
        rw [← he, show k + 1 - (counter + 1) = k - counter by omega]
        exact hclear'
      · rw [if_neg he]
        refine ih (k + 1) (counter + 1) (by omega) (by omega) (by omega) ?_ ?_ fun t ht hcl => ?_
        · rwa [show k + 1 - (counter + 1) = k - counter by omega]
        · rwa [show k + 1 - (counter + 1) = k - counter by omega]
        · by_cases he' : t + count = k + 1
          · have := late t he' hcl
            omega
          · exact hnone t (by omega) hcl

/-- The second loop sets the `n` bits from `k`. -/
theorem setLoop_spec (h : map.Fits) (n k : ℕ) (hn : k + n ≤ map.length * 8) :
    ∃ bits, setLoop map n k = some { map with bits := bits } ∧
      ∀ j, bits.bit j = if k ≤ j ∧ j < k + n then true else map.bits.bit j := by
  induction n generalizing map k with
  | zero => exact ⟨map.bits, rfl, fun j => by rw [if_neg (by omega)]⟩
  | succ n ih =>
    have hwrap : (map.offset + k) % 2 ^ 32 = map.offset + k := by
      have := h.index
      exact Nat.mod_eq_of_lt (by omega)
    unfold setLoop
    rw [hwrap, bitmapSet_eq h (by omega)]
    have hfits : BitmapT.Fits { map with bits := map.bits.setBit k true } := ⟨h.size, h.index⟩
    obtain ⟨bits, hbits, hbit⟩ := ih hfits (k + 1) (by dsimp only; omega)
    refine ⟨bits, hbits, fun j => ?_⟩
    rw [hbit j]
    dsimp only
    rw [bit_setBit]
    by_cases hj : j = k
    · subst hj
      simp
    · rw [if_neg hj]
      by_cases hj' : k + 1 ≤ j ∧ j < k + 1 + n
      · rw [if_pos hj', if_pos (by omega)]
      · rw [if_neg hj', if_neg (by omega)]

/-- `bitmap_scan` finds the first run of `count` zeros and sets it, or returns
EOF where there is none and changes nothing. -/
theorem bitmapScan_spec (h : map.Fits) (hcount : 0 < count) :
    (∃ s bits, map.bits.FirstRun (map.length * 8) count s ∧
      bitmapScan map count = some (s + map.offset, { map with bits := bits }) ∧
      ∀ j, bits.bit j = if s ≤ j ∧ j < s + count then true else map.bits.bit j) ∨
    ((∀ t, t + count ≤ map.length * 8 → ¬ map.bits.Clear t count) ∧
      bitmapScan map count = some (EOF, map)) := by
  have hlen : map.length * 8 % 2 ^ 32 = map.length * 8 := by
    have := h.index
    exact Nat.mod_eq_of_lt (by omega)
  unfold bitmapScan
  rw [hlen]
  rcases scanLoop_spec h (map.length * 8) 0 0 (by omega) (by omega) hcount
    (fun k _ _ => by omega) (Or.inl rfl)
    (fun t ht => by omega) with ⟨s, hs, he⟩ | ⟨hnone, c, he⟩
  · obtain ⟨bits, hbits, hbit⟩ := setLoop_spec h count s hs.le
    refine Or.inl ⟨s, bits, hs, ?_, hbit⟩
    have := h.index
    have := hs.le
    rw [he]
    dsimp only
    rw [hbits, Option.map_some, Nat.mod_eq_of_lt (by dsimp only; omega)]
  · exact Or.inr ⟨hnone, by rw [he]⟩

section One

variable {b : Bytes} {n : ℕ}

namespace Bytes

/-- All of the first `n` bits are 1. -/
def Full (b : Bytes) (n : ℕ) : Prop := ∀ t < n, b.bit t = true

/-- Bit `k` is the first 0 among the first `n` bits. -/
structure FirstZero (b : Bytes) (n k : ℕ) : Prop where
  lt : k < n
  zero : b.bit k = false
  full : b.Full k

theorem full_or_firstZero (b : Bytes) (n : ℕ) : b.Full n ∨ ∃ k, b.FirstZero n k := by
  induction n with
  | zero => exact Or.inl fun t ht => by omega
  | succ n ih =>
    rcases ih with hfull | ⟨k, hk⟩
    · cases hb : b.bit n with
      | true =>
        refine Or.inl fun t ht => ?_
        rcases Nat.lt_succ_iff_lt_or_eq.mp ht with ht | rfl
        · exact hfull t ht
        · exact hb
      | false => exact Or.inr ⟨n, by omega, hb, hfull⟩
    · exact Or.inr ⟨k, Nat.lt_succ_of_lt hk.lt, hk.zero, hk.full⟩

theorem clear_one {t : ℕ} : b.Clear t 1 ↔ b.bit t = false :=
  ⟨fun h => h t (Nat.le_refl t) (by omega), fun h k hk hlt => by rwa [show k = t by omega]⟩

end Bytes

theorem bitmapScan_one (h : map.Fits) (hk : map.bits.FirstZero (map.length * 8) k) :
    bitmapScan map 1 = some (k + map.offset, { map with bits := map.bits.setBit k true }) := by
  rcases bitmapScan_spec h Nat.one_pos with ⟨s, bits, hs, he, hbit⟩ | ⟨hnone, -⟩
  · have hrun : map.bits.FirstRun (map.length * 8) 1 k :=
      ⟨hk.lt, clear_one.mpr hk.zero, fun t ht hc => by
        rw [clear_one, hk.full t ht] at hc
        exact absurd hc (by decide)⟩
    obtain rfl := hs.unique hrun
    have hbits : bits = map.bits.setBit s true := ext_bit fun j => by
      rw [hbit, bit_setBit]
      by_cases hj : j = s
      · simp [hj]
      · rw [if_neg hj, if_neg (by omega)]
    rw [he, hbits]
  · exact absurd (clear_one.mpr hk.zero) (hnone k hk.lt)

theorem bitmapScan_full (h : map.Fits) (hfull : map.bits.Full (map.length * 8)) :
    bitmapScan map 1 = some (EOF, map) := by
  rcases bitmapScan_spec h Nat.one_pos with ⟨s, bits, hs, -, -⟩ | ⟨-, he⟩
  · have hlt : s < map.length * 8 := hs.le
    have := clear_one.mp hs.clear
    rw [hfull s hlt] at this
    exact absurd this (by decide)
  · exact he

end One

end Onix
