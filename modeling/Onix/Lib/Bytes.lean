import Mathlib

/-! Bytes in memory and the little-endian words they make. -/

namespace Onix

open Function

abbrev Byte := BitVec 8

/-- Bytes by address. -/
abbrev Bytes := ℕ → Byte

/-- Subtraction of `u32` values. -/
def sub32 (a b : ℕ) : ℕ := if b ≤ a then a - b else 2 ^ 32 - (b - a)

theorem sub32_of_le {a b : ℕ} (h : b ≤ a) : sub32 a b = a - b := if_pos h

namespace Bytes

variable (b : Bytes) (i j v w : ℕ)

def rd8 : ℕ := (b i).toNat

def rd16 : ℕ := b.rd8 i + 2 ^ 8 * b.rd8 (i + 1)

def rd32 : ℕ := b.rd16 i + 2 ^ 16 * b.rd16 (i + 2)

def wr8 : Bytes := update b i (BitVec.ofNat 8 v)

def wr16 : Bytes := (b.wr8 i v).wr8 (i + 1) (v / 2 ^ 8)

def wr32 : Bytes := (b.wr16 i v).wr16 (i + 2) (v / 2 ^ 16)

/-- Bit `k` of the bytes, counted from the low bit of byte 0. -/
def bit (k : ℕ) : Bool := (b (k / 8)).getLsbD (k % 8)

def setBit (k : ℕ) (value : Bool) : Bytes :=
  update b (k / 8)
    (if value then b (k / 8) ||| 1#8 <<< (k % 8) else b (k / 8) &&& ~~~(1#8 <<< (k % 8)))

/-- `memcpy` of the bytes `xs` to the address `i`. -/
def write (xs : List Byte) : Bytes := fun k =>
  if i ≤ k ∧ k < i + xs.length then xs.getD (k - i) 0 else b k

/-- The `n` bytes from the address `i`. -/
def read (n : ℕ) : List Byte := (List.range' i n).map b

variable {b i j v w}

theorem rd8_lt : b.rd8 i < 2 ^ 8 := (b i).isLt

theorem rd16_lt : b.rd16 i < 2 ^ 16 := by
  have h₀ : b.rd8 i < 2 ^ 8 := rd8_lt
  have h₁ : b.rd8 (i + 1) < 2 ^ 8 := rd8_lt
  unfold rd16
  omega

theorem rd8_wr8 : (b.wr8 i v).rd8 j = if j = i then v % 2 ^ 8 else b.rd8 j := by
  unfold rd8 wr8
  by_cases h : j = i <;> simp [h]

theorem rd8_wr8_self : (b.wr8 i v).rd8 i = v % 2 ^ 8 := by rw [rd8_wr8, if_pos rfl]

theorem rd8_wr8_ne (h : j < i ∨ i < j) : (b.wr8 i v).rd8 j = b.rd8 j := by
  rw [rd8_wr8, if_neg (by omega)]

theorem rd8_wr16 : (b.wr16 i v).rd8 j =
    if j = i then v % 2 ^ 8 else if j = i + 1 then v / 2 ^ 8 % 2 ^ 8 else b.rd8 j := by
  unfold wr16
  rw [rd8_wr8, rd8_wr8]
  split_ifs <;> first | rfl | omega

theorem rd8_wr16_ne (h : j < i ∨ i + 2 ≤ j) : (b.wr16 i v).rd8 j = b.rd8 j := by
  rw [rd8_wr16, if_neg (by omega), if_neg (by omega)]

theorem rd8_wr32_ne (h : j < i ∨ i + 4 ≤ j) : (b.wr32 i v).rd8 j = b.rd8 j := by
  unfold wr32
  rw [rd8_wr16, rd8_wr16]
  split_ifs <;> first | rfl | omega

theorem rd16_wr8_ne (h : i < j ∨ j + 2 ≤ i) : (b.wr8 i v).rd16 j = b.rd16 j := by
  unfold rd16
  rw [rd8_wr8, rd8_wr8, if_neg (by omega), if_neg (by omega)]

theorem rd16_wr16 : (b.wr16 i v).rd16 i = v % 2 ^ 16 := by
  unfold rd16
  rw [rd8_wr16, rd8_wr16, if_pos rfl, if_neg (by omega), if_pos rfl]
  omega

theorem rd16_wr16_ne (h : j + 2 ≤ i ∨ i + 2 ≤ j) : (b.wr16 i v).rd16 j = b.rd16 j := by
  unfold rd16
  rw [rd8_wr16, rd8_wr16]
  split_ifs <;> first | rfl | omega

theorem rd16_wr32_ne (h : j + 2 ≤ i ∨ i + 4 ≤ j) : (b.wr32 i v).rd16 j = b.rd16 j := by
  unfold wr32
  rw [rd16_wr16_ne (by omega), rd16_wr16_ne (by omega)]

theorem rd32_wr32 : (b.wr32 i v).rd32 i = v % 2 ^ 32 := by
  unfold rd32
  have h : (b.wr32 i v).rd16 i = v % 2 ^ 16 := by
    unfold wr32
    rw [rd16_wr16_ne (by omega), rd16_wr16]
  rw [h, wr32, rd16_wr16]
  omega

theorem rd32_wr8_ne (h : i < j ∨ j + 4 ≤ i) : (b.wr8 i v).rd32 j = b.rd32 j := by
  unfold rd32
  rw [rd16_wr8_ne (by omega), rd16_wr8_ne (by omega)]

theorem rd32_wr32_ne (h : j + 4 ≤ i ∨ i + 4 ≤ j) : (b.wr32 i v).rd32 j = b.rd32 j := by
  unfold rd32
  rw [rd16_wr32_ne (by omega), rd16_wr32_ne (by omega)]

theorem bit_setBit (k n : ℕ) (value : Bool) :
    (b.setBit n value).bit k = if k = n then value else b.bit k := by
  unfold bit setBit
  by_cases hb : k / 8 = n / 8
  · rw [hb, update_self]
    have hk : k % 8 < 8 := Nat.mod_lt _ (by decide)
    by_cases hkn : k = n
    · subst hkn
      cases value <;> simp [hk]
    · have hne : k % 8 ≠ n % 8 := by omega
      have hbit : (1#8 <<< (n % 8)).getLsbD (k % 8) = false := by
        rw [BitVec.getLsbD_shiftLeft, BitVec.getLsbD_one]
        by_cases hlt : k % 8 < n % 8
        · simp [hlt]
        · have : k % 8 - n % 8 ≠ 0 := by omega
          simp [this]
      rw [if_neg hkn]
      cases value with
      | false => simp only [Bool.false_eq_true, if_false, BitVec.getLsbD_and, BitVec.getLsbD_not,
          hbit, hk, decide_true, Bool.not_false, Bool.and_true]
      | true => simp only [if_true, BitVec.getLsbD_or, hbit, Bool.or_false]
  · rw [update_of_ne hb, if_neg (by rintro rfl; exact hb rfl)]

end Bytes

end Onix
