import Onix.Sanity.AbspathSpec
import Onix.Spec.Memcmp

/-! `memcmp` is right exactly where the bytes differ before the last one. -/

namespace Onix.Bytes

open Cstr (deref)

variable {b : Bytes} {lhs rhs count i : ℕ}

theorem succ_shift (a j : ℕ) : a + (j + 1) = a + 1 + j := by omega

/-- After `count` equal bytes `count` has wrapped round. -/
theorem memcmpLoop_equal (h : ∀ i < count, b (lhs + i) = b (rhs + i)) :
    b.memcmpLoop lhs rhs count =
      ⟨2 ^ 32 - 1, lhs + count, rhs + count, List.range' lhs count, List.range' rhs count⟩ := by
  induction count generalizing lhs rhs with
  | zero => rfl
  | succ count ih =>
    have hfirst : b lhs = b rhs := h 0 (Nat.succ_pos _)
    have htail : ∀ i < count, b (lhs + 1 + i) = b (rhs + 1 + i) := by
      intro i hi
      rw [← succ_shift, ← succ_shift]
      exact h (i + 1) (Nat.succ_lt_succ hi)
    rw [memcmpLoop, if_pos hfirst, ih htail]
    dsimp only
    rw [List.range'_succ, List.range'_succ, succ_shift lhs count, succ_shift rhs count]

/-- At the first difference `count` is what is left behind it. -/
theorem memcmpLoop_differ (hi : i < count) (heq : ∀ j < i, b (lhs + j) = b (rhs + j))
    (hne : b (lhs + i) ≠ b (rhs + i)) : b.memcmpLoop lhs rhs count =
      ⟨count - (i + 1), lhs + i, rhs + i, List.range' lhs (i + 1), List.range' rhs (i + 1)⟩ := by
  induction i generalizing lhs rhs count with
  | zero =>
    obtain ⟨count, rfl⟩ := Nat.exists_eq_succ_of_ne_zero (Nat.ne_of_gt hi)
    have hfirst : b lhs ≠ b rhs := hne
    rw [memcmpLoop, if_neg hfirst]
    rfl
  | succ i ih =>
    obtain ⟨count, rfl⟩ := Nat.exists_eq_succ_of_ne_zero (Nat.ne_of_gt (Nat.zero_lt_of_lt hi))
    have hfirst : b lhs = b rhs := heq 0 (Nat.succ_pos _)
    have htail : ∀ j < i, b (lhs + 1 + j) = b (rhs + 1 + j) := by
      intro j hj
      rw [← succ_shift, ← succ_shift]
      exact heq (j + 1) (Nat.succ_lt_succ hj)
    rw [succ_shift lhs i, succ_shift rhs i] at hne
    rw [memcmpLoop, if_pos hfirst, ih (Nat.lt_of_succ_lt_succ hi) htail hne]
    dsimp only
    rw [List.range'_succ (s := lhs) (n := i + 1), List.range'_succ (s := rhs) (n := i + 1),
      succ_shift lhs i, succ_shift rhs i, Nat.succ_sub_succ]

/-- Two equal sequences: the bytes behind them are compared. -/
theorem memcmp_equal (h : ∀ i < count, b (lhs + i) = b (rhs + i)) :
    b.memcmp lhs rhs count = ⟨Cstr.compare (b (lhs + count)) (b (rhs + count)),
      List.range' lhs count ++ [lhs + count], List.range' rhs count ++ [rhs + count]⟩ := by
  unfold memcmp
  rw [memcmpLoop_equal h]
  rfl

/-- A difference in the last byte is lost. -/
theorem memcmp_last (hi : i + 1 = count) (heq : ∀ j < i, b (lhs + j) = b (rhs + j))
    (hne : b (lhs + i) ≠ b (rhs + i)) :
    b.memcmp lhs rhs count = ⟨0, List.range' lhs (i + 1), List.range' rhs (i + 1)⟩ := by
  unfold memcmp
  rw [memcmpLoop_differ (by omega) heq hne, hi, Nat.sub_self]
  rfl

theorem memcmp_differ (hi : i + 1 < count) (heq : ∀ j < i, b (lhs + j) = b (rhs + j))
    (hne : b (lhs + i) ≠ b (rhs + i)) :
    b.memcmp lhs rhs count = ⟨Cstr.compare (b (lhs + i)) (b (rhs + i)),
      List.range' lhs (i + 1) ++ [lhs + i], List.range' rhs (i + 1) ++ [rhs + i]⟩ := by
  have hleft : count - (i + 1) ≠ 0 := by omega
  unfold memcmp
  rw [memcmpLoop_differ (by omega) heq hne]
  dsimp only
  rw [if_neg hleft]

theorem sign_compare (l r : Byte) : (Cstr.compare l r).sign = (l.toInt - r.toInt).sign := by
  unfold Cstr.compare
  split_ifs with hlt hgt
  · exact (Int.sign_eq_neg_one_of_neg (Int.sub_neg_of_lt hlt)).symm
  · exact (Int.sign_eq_one_of_pos (Int.sub_pos_of_lt hgt)).symm
  · rw [le_antisymm (not_lt.mp hgt) (not_lt.mp hlt), Int.sub_self]

theorem mem_reads {a n k : ℕ} (h : a ∈ List.range' lhs (n + 1) ++ [lhs + n]) (hn : n < k) :
    lhs ≤ a ∧ a < lhs + k := by
  rw [List.mem_append, List.mem_range'_1, List.mem_singleton] at h
  omega

/-- A difference before the last byte is found. -/
theorem compares_differ (hi : i + 1 < count) (heq : ∀ j < i, b (lhs + j) = b (rhs + j))
    (hne : b (lhs + i) ≠ b (rhs + i)) : b.Compares lhs rhs count (b.memcmp lhs rhs count) := by
  rw [memcmp_differ hi heq hne]
  refine ⟨fun a ha => mem_reads ha (by omega), fun a ha => mem_reads ha (by omega), ?_, ?_⟩
  · constructor
    · intro hzero
      exact absurd hzero (Cstr.compare_ne hne)
    · intro hall
      exact absurd (hall i (by omega)) hne
  · intro k hk hbefore hdiff
    obtain rfl : k = i := by
      rcases Nat.lt_trichotomy k i with hlt | rfl | hlt
      · exact absurd (heq k hlt) hdiff
      · rfl
      · exact absurd (hbefore i hlt) hne
    exact sign_compare ..

/-- `memcmp` keeps to the bytes it was given and returns what it should exactly where the
sequences differ somewhere before the last byte. -/
theorem memcmp_compares_iff : b.Compares lhs rhs count (b.memcmp lhs rhs count) ↔
    ∃ i, i + 1 < count ∧ b (lhs + i) ≠ b (rhs + i) := by
  constructor
  · intro h
    by_contra hno
    push Not at hno
    by_cases hall : ∀ i < count, b (lhs + i) = b (rhs + i)
    · have hread := h.lread (lhs + count) (by rw [memcmp_equal hall]; simp)
      omega
    · push Not at hall
      obtain ⟨i, hi, hne⟩ := hall
      have hlast : i + 1 = count := by
        rcases Nat.lt_or_eq_of_le hi with hlt | hlast
        · exact absurd (hno i hlt) hne
        · exact hlast
      have hvalue := memcmp_last hlast (fun j hj => hno j (by omega)) hne
      exact hne (h.zero.mp (by rw [hvalue]) i hi)
  · intro h
    have hex : ∃ i, i + 1 < count ∧ b (lhs + i) ≠ b (rhs + i) := h
    obtain ⟨hi, hne⟩ := Nat.find_spec hex
    refine compares_differ hi (fun j hj => ?_) hne
    by_contra hdiff
    exact Nat.find_min hex hj ⟨by omega, hdiff⟩

/-- One turn of the loop, on the result. -/
theorem memcmp_succ_value : (b.memcmp lhs rhs (count + 1)).value =
    if b lhs = b rhs then (b.memcmp (lhs + 1) (rhs + 1) count).value
    else if count = 0 then 0
    else Cstr.compare (b lhs) (b rhs) := by
  unfold memcmp
  rw [memcmpLoop]
  by_cases hfirst : b lhs = b rhs
  · rw [if_pos hfirst, if_pos hfirst]
    dsimp only
    split_ifs <;> rfl
  · rw [if_neg hfirst, if_neg hfirst]
    dsimp only
    split_ifs <;> rfl

/-- `memcmp` of path strings is `memcmp` on the memory that they are in. -/
theorem memcmp_str {l r : Str} (hl : ∀ i ≤ count, b (lhs + i) = deref (l.drop i))
    (hr : ∀ i ≤ count, b (rhs + i) = deref (r.drop i)) :
    (b.memcmp lhs rhs count).value = Cstr.memcmp l r count := by
  have hl₀ : b lhs = deref l := hl 0 (Nat.zero_le _)
  have hr₀ : b rhs = deref r := hr 0 (Nat.zero_le _)
  induction count generalizing lhs rhs l r with
  | zero =>
    rw [memcmp_equal (by simp), Cstr.memcmp]
    exact congrArg₂ Cstr.compare hl₀ hr₀
  | succ count ih =>
    have htail : ∀ {str : Str} {p : ℕ}, (∀ i ≤ count + 1, b (p + i) = deref (str.drop i)) →
        ∀ i ≤ count, b (p + 1 + i) = deref (str.tail.drop i) := by
      intro str p h i hi
      rw [← succ_shift, List.drop_tail]
      exact h (i + 1) (Nat.succ_le_succ hi)
    have hl' := htail hl
    have hr' := htail hr
    rw [memcmp_succ_value, Cstr.memcmp, ih hl' hr' (hl' 0 (Nat.zero_le _)) (hr' 0 (Nat.zero_le _)),
      hl₀, hr₀]

/-- The strings `..x` and `../`, at the addresses 0 and 16. -/
def dots : Bytes := fun k => [46, 46, 120].getD k ([46, 46, 47].getD (k - 16) 0)

theorem memcmp_dots : ¬ dots.Compares 0 16 3 (dots.memcmp 0 16 3) := by
  intro h
  have hall := h.zero.mp (by decide)
  exact absurd (hall 2 (by decide)) (by decide)

end Onix.Bytes
