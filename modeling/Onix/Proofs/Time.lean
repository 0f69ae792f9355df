import Onix.Spec.Time

/-! `mktime` counts the seconds since 1970, and `get_yday` the days of the year, until 2069. -/

namespace Onix.Time

open Sched (int32 u32)
open Calendar Finset

variable {t u : Moment} {k m : ℕ} {a b : ℤ}

theorem int32_eq (hl : -2 ^ 31 ≤ a) (hu : a < 2 ^ 31) : int32 a = a := by
  unfold int32
  apply Int.bmod_eq_of_le_mul_two <;> omega

theorem u32_int32 (a : ℤ) : u32 (int32 a) = u32 a := by
  have hmod : int32 a % 2 ^ 32 = a % 2 ^ 32 := Int.bmod_emod
  unfold u32
  rw [hmod]

/-- Wrapping round in the middle of a sum changes nothing. -/
theorem plus_u32 (a b : ℤ) : plus (u32 a) b = u32 (a + b) := by
  have hmod : int32 b % 2 ^ 32 = b % 2 ^ 32 := Int.bmod_emod
  unfold plus u32
  omega

theorem ite_u32 (c : Prop) [Decidable c] (a b : ℤ) :
    (if c then u32 (a + b) else u32 a) = u32 (a + if c then b else 0) := by
  split_ifs
  · rfl
  · rw [Int.add_zero]

theorem u32_natCast {n : ℕ} (h : n < 2 ^ 32) : u32 n = n := by
  unfold u32
  omega

/-- Until 2099 every fourth year is a leap year. -/
theorem isLeap_iff (hk : k < 100) : isLeap (1970 + k) = true ↔ (k + 2) % 4 = 0 := by
  unfold isLeap
  simp only [Bool.and_eq_true, Bool.or_eq_true, beq_iff_eq, bne_iff_ne]
  omega

theorem sum_years (hk : k ≤ 100) :
    ∑ y ∈ Ico 1970 (1970 + k), yearDays y = 365 * k + (k + 1) / 4 := by
  induction k with
  | zero => simp
  | succ k ih =>
    rw [← Nat.add_assoc, sum_Ico_succ_top (Nat.le_add_right 1970 k), ih (Nat.le_of_succ_le hk)]
    have hleap := isLeap_iff (k := k) hk
    unfold yearDays
    split_ifs with h
    · have := hleap.mp h
      omega
    · have := mt hleap.mpr h
      omega

/-- The table counts 29 days for February, which is too much by one outside leap years. -/
theorem monthAt_eq (y : ℕ) (h₁ : 1 ≤ m) (h₂ : m ≤ 12) : ∃ days : ℕ, monthAt m = some (days : ℤ) ∧
    days ≤ 335 ∧
    ∑ i ∈ Ico 1 m, monthDays y i + (if 2 < m ∧ isLeap y = false then 1 else 0) = days := by
  cases hleap : isLeap y <;> interval_cases m <;>
    exact ⟨_, rfl, by decide, by simp [sum_Ico_eq_sum_range, sum_range_succ, monthDays, hleap]⟩

section Dates

variable (h₀ : 1970 ≤ t.date.year) (h₁ : t.date.year ≤ 2069)

include h₀ h₁

theorem yearOf_tmOf : yearOf (tmOf t) = (t.date.year - 1970 : ℕ) := by
  unfold yearOf tmOf
  dsimp only
  rw [int32_eq (by omega) (by omega)]
  split_ifs
  · omega
  · rw [int32_eq (by omega) (by omega)]
    omega

theorem afterLeap_tmOf : afterLeap (tmOf t) ≠ 0 ↔ isLeap t.date.year = false := by
  have hleap := isLeap_iff (k := t.date.year - 1970) (by omega)
  rw [Nat.add_sub_cancel' h₀] at hleap
  unfold afterLeap
  rw [yearOf_tmOf h₀ h₁, int32_eq (by omega) (by omega), ← Bool.not_eq_true, hleap,
    Int.tmod_eq_emod_of_nonneg (by omega)]
  omega

/-- The days before the month, with the correction for February. -/
theorem days_tmOf : ∃ days : ℕ, monthAt (tmOf t).tmMon = some (days : ℤ) ∧ days ≤ 335 ∧
    ∑ m ∈ Ico 1 t.date.month, monthDays t.date.year m +
      (if (tmOf t).tmMon > 2 ∧ afterLeap (tmOf t) ≠ 0 then 1 else 0) = days := by
  obtain ⟨days, hdays, hle, hsum⟩ := monthAt_eq t.date.year t.date.one_le_month t.date.month_le
  refine ⟨days, hdays, hle, ?_⟩
  have hlt : (tmOf t).tmMon > 2 ↔ 2 < t.date.month := by
    unfold tmOf
    exact Nat.ofNat_lt_cast
  simp only [afterLeap_tmOf h₀ h₁, hlt]
  exact hsum

theorem count_lt : t.count 1970 < 2 ^ 32 := by
  obtain ⟨days, -, hle, hsum⟩ := days_tmOf h₀ h₁
  have hyears := sum_years (k := t.date.year - 1970) (by omega)
  rw [Nat.add_sub_cancel' h₀] at hyears
  have hday : t.date.day ≤ 31 := t.date.day_le.trans (monthDays_le _ _)
  have hh := t.hour_lt
  have hm := t.minute_lt
  have hs := t.second_lt
  unfold Moment.count Date.count
  rw [hyears]
  generalize ∑ m ∈ Ico 1 t.date.month, monthDays t.date.year m = months at hsum ⊢
  omega

/-- The sum that `mktime` makes, in the order in which it makes it. -/
theorem count_tmOf {days : ℕ} (hsum : ∑ m ∈ Ico 1 t.date.month, monthDays t.date.year m +
      (if (tmOf t).tmMon > 2 ∧ afterLeap (tmOf t) ≠ 0 then 1 else 0) = days) :
    (t.count 1970 : ℤ) = YEAR * (t.date.year - 1970 : ℕ) +
      DAY * (((t.date.year - 1970 : ℕ) + 1) / 4) + days * DAY +
      (if (tmOf t).tmMon > 2 ∧ afterLeap (tmOf t) ≠ 0 then -DAY else 0) +
      DAY * (t.date.day - 1 : ℕ) + HOUR * t.hour + MINUTE * t.minute + t.second := by
  have hyears := sum_years (k := t.date.year - 1970) (by omega)
  rw [Nat.add_sub_cancel' h₀] at hyears
  unfold Moment.count Date.count YEAR DAY HOUR MINUTE
  rw [hyears]
  generalize ∑ m ∈ Ico 1 t.date.month, monthDays t.date.year m = months at hsum ⊢
  split_ifs at hsum ⊢ <;> omega

theorem mktime_tmOf : mktime (tmOf t) = some (t.count 1970) := by
  obtain ⟨days, hdays, -, hsum⟩ := days_tmOf h₀ h₁
  have hday : t.date.day ≤ 31 := t.date.day_le.trans (monthDays_le _ _)
  have hpos := t.date.one_le_day
  have hyear : int32 (((t.date.year - 1970 : ℕ) : ℤ) + 1) = (t.date.year - 1970 : ℕ) + 1 :=
    int32_eq (by omega) (by omega)
  have hmday : int32 ((t.date.day : ℤ) - 1) = (t.date.day - 1 : ℕ) := by
    rw [int32_eq (by omega) (by omega)]
    omega
  have hcount := count_tmOf h₀ h₁ hsum
  unfold mktime
  rw [yearOf_tmOf h₀ h₁, hdays]
  simp only [Option.bind_eq_bind, Option.bind_some, Option.pure_def, Option.some.injEq, u32_int32,
    plus_u32, ite_u32]
  rw [hyear, Int.tdiv_eq_ediv_of_nonneg (by omega)]
  change u32 (_ + _ + _ + _ + DAY * int32 ((t.date.day : ℤ) - 1) + _ + _ + _) = _
  rw [hmday, ← u32_natCast (count_lt h₀ h₁), hcount]
  rfl

theorem getYday_tmOf :
    getYday (tmOf t) = some (∑ m ∈ Ico 1 t.date.month, monthDays t.date.year m + t.date.day : ℕ) := by
  obtain ⟨days, hdays, hle, hsum⟩ := days_tmOf h₀ h₁
  have hday : t.date.day ≤ 31 := t.date.day_le.trans (monthDays_le _ _)
  have hpos := t.date.one_le_day
  have hres : int32 ((days : ℤ) + (tmOf t).tmMday) = days + t.date.day :=
    int32_eq (by unfold tmOf; dsimp only; omega) (by unfold tmOf; dsimp only; omega)
  unfold getYday
  rw [hdays]
  simp only [Option.bind_eq_bind, Option.bind_some, Option.pure_def, Option.some.injEq, hres]
  generalize ∑ m ∈ Ico 1 t.date.month, monthDays t.date.year m = months at hsum ⊢
  have hcomm : afterLeap (tmOf t) ≠ 0 ∧ (tmOf t).tmMon > 2 ↔
      (tmOf t).tmMon > 2 ∧ afterLeap (tmOf t) ≠ 0 := and_comm
  simp only [hcomm]
  split_ifs at hsum ⊢
  · rw [int32_eq (by omega) (by omega)]
    omega
  · omega

end Dates

/-- The ordinal of a day. -/
theorem ordinal_date (d : Date) :
    Ordinal d (∑ m ∈ Ico 1 d.month, monthDays d.year m + d.day : ℕ) := by
  have hpos := d.one_le_day
  refine ⟨d.count d.year, ?_, Date.iterate_count le_rfl⟩
  unfold Date.count
  rw [Ico_self, sum_empty]
  omega

/-- From 1970 to 2069 `mktime` returns the seconds since the epoch and `get_yday` the ordinal
of the day, and what is later has more seconds. -/
theorem mktime_seconds (h₀ : 1970 ≤ t.date.year) (h₁ : t.date.year ≤ 2069) :
    (∃ n, mktime (tmOf t) = some n ∧ SinceEpoch t n) ∧
    (∃ n, getYday (tmOf t) = some n ∧ Ordinal t.date n) ∧
    ∀ u : Moment, t.Before u → u.date.year ≤ 2069 →
      ∃ n n', mktime (tmOf t) = some n ∧ mktime (tmOf u) = some n' ∧ n < n' := by
  refine ⟨⟨_, mktime_tmOf h₀ h₁, Moment.iterate_count h₀⟩, ⟨_, getYday_tmOf h₀ h₁, ordinal_date _⟩, ?_⟩
  intro u hu hlast
  have hle : 1970 ≤ u.date.year := by
    obtain ⟨n, -, rfl⟩ := hu
    exact (Moment.count_iterate 1970 h₀ n).1
  exact ⟨_, _, mktime_tmOf h₀ h₁, mktime_tmOf hle hlast, hu.count_lt h₀⟩

/-- The last second of the last day of February 2024. -/
def leapDay : Moment where
  date := ⟨2024, 2, 29, by decide, by decide, by decide, by decide⟩
  hour := 23
  minute := 59
  second := 59
  hour_lt := by decide
  minute_lt := by decide
  second_lt := by decide

theorem mktime_leapDay : mktime (tmOf leapDay) = some 1709251199 ∧
    getYday (tmOf leapDay) = some 60 ∧ SinceEpoch leapDay 1709251199 ∧
    Ordinal leapDay.date 60 ∧
    ∃ n n', mktime (tmOf leapDay) = some n ∧ mktime (tmOf leapDay.next) = some n' ∧ n < n' := by
  have hn : mktime (tmOf leapDay) = some 1709251199 := by decide
  have hd : getYday (tmOf leapDay) = some 60 := by decide
  obtain ⟨⟨n, hn', hsince⟩, ⟨d, hd', hordinal⟩, hlater⟩ :=
    mktime_seconds (t := leapDay) (by decide) (by decide)
  obtain rfl : 1709251199 = n := Option.some.inj (hn.symm.trans hn')
  obtain rfl : 60 = d := Option.some.inj (hd.symm.trans hd')
  exact ⟨hn, hd, hsince, hordinal, hlater leapDay.next ⟨1, by decide, rfl⟩ (by decide)⟩

end Onix.Time
