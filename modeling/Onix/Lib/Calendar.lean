import Mathlib

/-! The proleptic Gregorian calendar day by day and second by second, and how many days and
seconds lie between the start of a year and a date. -/

namespace Onix.Calendar

open Finset

def isLeap (y : ℕ) : Bool := y % 4 == 0 && (y % 100 != 0 || y % 400 == 0)

def monthDays (y : ℕ) : (m : ℕ) → ℕ
  | 2 => if isLeap y then 29 else 28
  | 4 | 6 | 9 | 11 => 30
  | _ => 31

def yearDays (y : ℕ) : ℕ := if isLeap y then 366 else 365

/-- A day that the calendar has. -/
@[ext]
structure Date where
  year : ℕ
  month : ℕ
  day : ℕ
  one_le_month : 1 ≤ month
  month_le : month ≤ 12
  one_le_day : 1 ≤ day
  day_le : day ≤ monthDays year month

/-- A second of a day. -/
@[ext]
structure Moment where
  date : Date
  hour : ℕ
  minute : ℕ
  second : ℕ
  hour_lt : hour < 24
  minute_lt : minute < 60
  second_lt : second < 60

theorem one_le_monthDays (y m : ℕ) : 1 ≤ monthDays y m := by
  unfold monthDays
  split <;> first | omega | (split_ifs <;> omega)

theorem monthDays_le (y m : ℕ) : monthDays y m ≤ 31 := by
  unfold monthDays
  split <;> first | omega | (split_ifs <;> omega)

namespace Date

/-- The first of January. -/
def newYear (y : ℕ) : Date := ⟨y, 1, 1, le_rfl, by norm_num, le_rfl, one_le_monthDays y 1⟩

/-- The next day. -/
def next (d : Date) : Date :=
  if h : d.day < monthDays d.year d.month then
    ⟨d.year, d.month, d.day + 1, d.one_le_month, d.month_le, Nat.le_add_left .., h⟩
  else if h : d.month < 12 then
    ⟨d.year, d.month + 1, 1, Nat.le_add_left .., h, le_rfl, one_le_monthDays ..⟩
  else newYear (d.year + 1)

/-- The days from the start of the year `base`. -/
def count (base : ℕ) (d : Date) : ℕ :=
  ∑ y ∈ Ico base d.year, yearDays y + ∑ m ∈ Ico 1 d.month, monthDays d.year m + (d.day - 1)

end Date

namespace Moment

/-- The first second of a year. -/
def newYear (y : ℕ) : Moment := ⟨.newYear y, 0, 0, 0, by norm_num, by norm_num, by norm_num⟩

/-- The next second. -/
def next (t : Moment) : Moment :=
  if h : t.second + 1 < 60 then { t with second := t.second + 1, second_lt := h }
  else if h : t.minute + 1 < 60 then
    { t with minute := t.minute + 1, second := 0, minute_lt := h, second_lt := by norm_num }
  else if h : t.hour + 1 < 24 then
    { t with hour := t.hour + 1, minute := 0, second := 0, hour_lt := h, minute_lt := by norm_num,
             second_lt := by norm_num }
  else ⟨t.date.next, 0, 0, 0, by norm_num, by norm_num, by norm_num⟩

/-- `t` comes some seconds before `u`. -/
def Before (t u : Moment) : Prop := ∃ n, 0 < n ∧ next^[n] t = u

/-- The seconds from the start of the year `base`. -/
def count (base : ℕ) (t : Moment) : ℕ :=
  86400 * t.date.count base + 3600 * t.hour + 60 * t.minute + t.second

end Moment

section Days

variable {base : ℕ} {d e : Date}

theorem sum_months (y : ℕ) : ∑ m ∈ Ico 1 13, monthDays y m = yearDays y := by
  simp only [sum_Ico_eq_sum_range]
  simp only [sum_range_succ, monthDays, yearDays]
  split_ifs <;> rfl

namespace Date

@[simp] theorem count_newYear (base : ℕ) : (newYear base).count base = 0 := by
  simp [count, newYear]

theorem le_next_year (d : Date) : d.year ≤ d.next.year := by
  unfold next
  split_ifs
  · exact le_rfl
  · exact le_rfl
  · exact Nat.le_succ _

/-- The next day is one further on. -/
theorem count_next (h : base ≤ d.year) : d.next.count base = d.count base + 1 := by
  have hd := d.one_le_day
  have hm := d.one_le_month
  unfold next
  split_ifs with hday hmonth
  · unfold count
    dsimp only
    omega
  · have hlast : d.day = monthDays d.year d.month := le_antisymm d.day_le (not_lt.mp hday)
    unfold count
    dsimp only
    rw [sum_Ico_succ_top hm, ← hlast]
    omega
  · have hlast : d.day = monthDays d.year d.month := le_antisymm d.day_le (not_lt.mp hday)
    have hdec : d.month = 12 := le_antisymm d.month_le (not_lt.mp hmonth)
    have hsum := sum_Ico_succ_top hm (monthDays d.year)
    rw [hdec, sum_months, ← hdec, ← hlast] at hsum
    unfold count newYear
    dsimp only
    rw [sum_Ico_succ_top h, Ico_self, sum_empty]
    omega

theorem sum_months_mono (y : ℕ) {m n : ℕ} (h : m ≤ n) :
    ∑ i ∈ Ico 1 m, monthDays y i ≤ ∑ i ∈ Ico 1 n, monthDays y i :=
  sum_le_sum_of_subset (Ico_subset_Ico_right h)

theorem sum_years_mono (base : ℕ) {y z : ℕ} (h : y ≤ z) :
    ∑ i ∈ Ico base y, yearDays i ≤ ∑ i ∈ Ico base z, yearDays i :=
  sum_le_sum_of_subset (Ico_subset_Ico_right h)

/-- The days of a month come before those of the next one. -/
theorem month_bound (d : Date) :
    ∑ m ∈ Ico 1 d.month, monthDays d.year m + (d.day - 1) <
      ∑ m ∈ Ico 1 (d.month + 1), monthDays d.year m := by
  have hd := d.one_le_day
  have hle := d.day_le
  rw [sum_Ico_succ_top d.one_le_month]
  omega

theorem count_lt_of_year (hd : base ≤ d.year) (h : d.year < e.year) : d.count base < e.count base := by
  have hmonth := d.month_bound
  have hlast : d.month + 1 ≤ 13 := Nat.succ_le_succ d.month_le
  have hall := sum_months_mono d.year hlast
  have hnext : d.year + 1 ≤ e.year := h
  have hyears := sum_years_mono base hnext
  rw [sum_months] at hall
  rw [sum_Ico_succ_top hd] at hyears
  unfold count
  omega

theorem count_lt_of_month (hy : d.year = e.year) (h : d.month < e.month) :
    d.count base < e.count base := by
  have hmonth := d.month_bound
  have hnext : d.month + 1 ≤ e.month := h
  have hmonths := sum_months_mono d.year hnext
  unfold count
  rw [← hy]
  omega

/-- The number of days says which day it is. -/
theorem count_inj (hd : base ≤ d.year) (he : base ≤ e.year) (h : d.count base = e.count base) :
    d = e := by
  have hyear : d.year = e.year := by
    rcases Nat.lt_trichotomy d.year e.year with hlt | heq | hlt
    · exact absurd h (count_lt_of_year hd hlt).ne
    · exact heq
    · exact absurd h (count_lt_of_year he hlt).ne'
  have hmonth : d.month = e.month := by
    rcases Nat.lt_trichotomy d.month e.month with hlt | heq | hlt
    · exact absurd h (count_lt_of_month hyear hlt).ne
    · exact heq
    · exact absurd h (count_lt_of_month hyear.symm hlt).ne'
  have hday : d.day = e.day := by
    have h₁ := d.one_le_day
    have h₂ := e.one_le_day
    unfold count at h
    rw [hyear, hmonth] at h
    omega
  exact Date.ext hyear hmonth hday

theorem count_iterate (base : ℕ) (h : base ≤ d.year) (n : ℕ) :
    base ≤ (next^[n] d).year ∧ (next^[n] d).count base = d.count base + n := by
  induction n with
  | zero => exact ⟨h, rfl⟩
  | succ n ih =>
    rw [Function.iterate_succ_apply']
    exact ⟨ih.1.trans (le_next_year _), (count_next ih.1).trans (congrArg (· + 1) ih.2)⟩

/-- That many days after the start of the year `base` it is `d`. -/
theorem iterate_count (h : base ≤ d.year) : next^[d.count base] (newYear base) = d := by
  obtain ⟨hyear, hcount⟩ := count_iterate (d := newYear base) base le_rfl (d.count base)
  rw [count_newYear, Nat.zero_add] at hcount
  exact count_inj hyear h hcount

end Date

end Days

section Seconds

variable {base : ℕ} {t u : Moment}

namespace Moment

@[simp] theorem count_newYear (base : ℕ) : (newYear base).count base = 0 := by
  simp [count, newYear]

theorem le_next_year (t : Moment) : t.date.year ≤ t.next.date.year := by
  unfold next
  split_ifs
  · exact le_rfl
  · exact le_rfl
  · exact le_rfl
  · exact t.date.le_next_year

/-- The next second is one further on. -/
theorem count_next (h : base ≤ t.date.year) : t.next.count base = t.count base + 1 := by
  have hh := t.hour_lt
  have hm := t.minute_lt
  have hs := t.second_lt
  unfold next
  split_ifs with hsecond hminute hhour
  · unfold count
    dsimp only
    omega
  · unfold count
    dsimp only
    omega
  · unfold count
    dsimp only
    omega
  · have hday := Date.count_next h
    unfold count
    dsimp only
    omega

/-- The number of seconds says which second it is. -/
theorem count_inj (ht : base ≤ t.date.year) (hu : base ≤ u.date.year)
    (h : t.count base = u.count base) : t = u := by
  have h₁ := t.hour_lt
  have h₂ := t.minute_lt
  have h₃ := t.second_lt
  have h₄ := u.hour_lt
  have h₅ := u.minute_lt
  have h₆ := u.second_lt
  unfold count at h
  have hdate : t.date = u.date := Date.count_inj ht hu (by omega)
  rw [hdate] at h
  exact Moment.ext hdate (by omega) (by omega) (by omega)

theorem count_iterate (base : ℕ) (h : base ≤ t.date.year) (n : ℕ) :
    base ≤ (next^[n] t).date.year ∧ (next^[n] t).count base = t.count base + n := by
  induction n with
  | zero => exact ⟨h, rfl⟩
  | succ n ih =>
    rw [Function.iterate_succ_apply']
    exact ⟨ih.1.trans (le_next_year _), (count_next ih.1).trans (congrArg (· + 1) ih.2)⟩

/-- That many seconds after the start of the year `base` it is `t`. -/
theorem iterate_count (h : base ≤ t.date.year) : next^[t.count base] (newYear base) = t := by
  obtain ⟨hyear, hcount⟩ := count_iterate (t := newYear base) base le_rfl (t.count base)
  rw [count_newYear, Nat.zero_add] at hcount
  exact count_inj hyear h hcount

/-- Later moments are more seconds away. -/
theorem Before.count_lt (h : Before t u) (ht : base ≤ t.date.year) : t.count base < u.count base := by
  obtain ⟨n, hn, rfl⟩ := h
  rw [(count_iterate base ht n).2]
  exact Nat.lt_add_of_pos_right hn

end Moment

end Seconds

end Onix.Calendar
