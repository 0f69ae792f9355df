import Onix.Proofs.Time
import Onix.Spec.Rtc

/-! What is read of the clock is a moment that it showed meanwhile. From it come `startup_time` and the
alarm. -/

namespace Onix.Time

open Rtc Calendar
open Sched (int32)

variable {n m k : ℕ} {value : BitVec 8} {c : Cmos} {t u : Moment} {passed : ℕ → ℕ} {time : TmT}

theorem Shows.inj {m : ℕ} (h : Shows value n) (h' : Shows value m) : n = m := by
  unfold Shows at h h'
  omega

theorem bcdToBin_shows (h : Shows value n) (hn : n < 100) : (bcdToBin value).toNat = n := by
  have hall : ∀ n < 100, (bcdToBin (BitVec.ofNat 8 (n / 10 * 16 + n % 10))).toNat = n := by decide
  rw [← hall n hn, ← (show _ = _ from h), BitVec.ofNat_toNat, BitVec.setWidth_eq]

theorem binToBcd_shows (hn : n < 100) : Shows (binToBcd (BitVec.ofInt 8 n)) n := by
  have hall : ∀ n < 100, (binToBcd (BitVec.ofNat 8 n)).toNat = n / 10 * 16 + n % 10 := by decide
  exact hall n hn

theorem binOf_shows (h : Shows value n) (hn : n < 100) : binOf value.toNat = n := by
  unfold binOf
  rw [BitVec.ofInt_natCast, BitVec.ofNat_toNat, BitVec.setWidth_eq, bcdToBin_shows h hn]

/-- The fields of `time` are the decimal digits of a moment's. -/
structure DigitsOf (time : TmT) (t : Moment) : Prop where
  second : binOf time.tmSec = t.second
  minute : binOf time.tmMin = t.minute
  hour : binOf time.tmHour = t.hour
  day : binOf time.tmMday = t.date.day
  month : binOf time.tmMon = t.date.month
  year : binOf time.tmYear = (t.date.year % 100 : ℕ)

theorem second_next (t : Moment) : t.next.second = (t.second + 1) % 60 := by
  have hs := t.second_lt
  unfold Moment.next
  split_ifs
  · exact (Nat.mod_eq_of_lt ‹_›).symm
  all_goals
    dsimp only
    omega

/-- A turn in which the clock stands still reads one moment, and ends the loop. -/
theorem timeTurn_still (time : TmT) (h : KeepsTime c.shown t passed)
    (hstill : passed (c.reads + 8) = passed c.reads) :
    DigitsOf (timeTurn time c).1.1 (momentAt t passed c.reads) ∧
      (timeTurn time c).1.1.tmSec = (timeTurn time c).1.2.toNat := by
  have hsame : ∀ i ≤ 8, momentAt t passed (c.reads + i) = momentAt t passed c.reads := fun i hi => by
    have h₁ : passed c.reads ≤ passed (c.reads + i) := h.goesOn (Nat.le_add_right _ _)
    have h₂ : passed (c.reads + i) ≤ passed (c.reads + 8) := h.goesOn (Nat.add_le_add_left hi _)
    unfold momentAt
    rw [show passed (c.reads + i) = passed c.reads by omega]
  set u := momentAt t passed c.reads
  have hsec : Shows (c.shown c.reads CMOS_SECOND) u.second := h.second c.reads
  have hmin : Shows (c.shown (c.reads + 1) CMOS_MINUTE) u.minute :=
    hsame 1 (by decide) ▸ h.minute (c.reads + 1)
  have hhour : Shows (c.shown (c.reads + 2) CMOS_HOUR) u.hour := hsame 2 (by decide) ▸ h.hour (c.reads + 2)
  have hday : Shows (c.shown (c.reads + 4) CMOS_DAY) u.date.day := hsame 4 (by decide) ▸ h.day (c.reads + 4)
  have hmon : Shows (c.shown (c.reads + 5) CMOS_MONTH) u.date.month :=
    hsame 5 (by decide) ▸ h.month (c.reads + 5)
  have hyear : Shows (c.shown (c.reads + 6) CMOS_YEAR) (u.date.year % 100) :=
    hsame 6 (by decide) ▸ h.year (c.reads + 6)
  have hlast : Shows (c.shown (c.reads + 8) CMOS_SECOND) u.second :=
    hsame 8 le_rfl ▸ h.second (c.reads + 8)
  have hdays := u.date.day_le.trans (monthDays_le _ _)
  refine ⟨?_, congrArg Nat.cast (hsec.trans hlast.symm)⟩
  exact
    { second := binOf_shows hsec (u.second_lt.trans (by decide))
      minute := binOf_shows hmin (u.minute_lt.trans (by decide))
      hour := binOf_shows hhour (u.hour_lt.trans (by decide))
      day := binOf_shows hday (by omega)
      month := binOf_shows hmon (u.date.month_le.trans_lt (by decide))
      year := binOf_shows hyear (Nat.mod_lt _ (by decide)) }

/-- In a turn that reads one second twice the clock stood still. -/
theorem still_of_second (h : KeepsTime c.shown t passed)
    (hs : (timeTurn time c).1.1.tmSec = (timeTurn time c).1.2.toNat) :
      passed (c.reads + 8) = passed c.reads := by
  have hfirst : Shows (c.shown c.reads CMOS_SECOND) (momentAt t passed c.reads).second := h.second c.reads
  have hlast : Shows (c.shown c.reads CMOS_SECOND) (momentAt t passed (c.reads + 8)).second :=
    (Nat.cast_injective (R := ℤ) hs).trans (h.second (c.reads + 8))
  have h₁ : passed c.reads ≤ passed (c.reads + 8) := h.goesOn (Nat.le_add_right _ _)
  have h₂ : passed (c.reads + 8) ≤ passed (c.reads + 17) := h.goesOn (by omega)
  have h₃ := h.slow c.reads
  by_contra hne
  have hnext : momentAt t passed (c.reads + 8) = (momentAt t passed c.reads).next := by
    unfold momentAt
    rw [show passed (c.reads + 8) = passed c.reads + 1 by omega, Function.iterate_succ_apply']
  have heq := hfirst.inj hlast
  rw [hnext, second_next] at heq
  omega

/-- The loop of `time_read_bcd` ends after two turns at most, with a moment that the clock showed in the
last of them. -/
theorem timeReadBcd_moment (time : TmT) (h : KeepsTime c.shown t passed) : ∃ k time' c',
    timeReadBcd 2 time c = some (time', c') ∧ DigitsOf time' (momentAt t passed k) ∧ c.reads ≤ k ∧
      k < c'.reads ∧ c'.reads ≤ c.reads + 18 ∧ c'.written = c.written := by
  by_cases hs : (timeTurn time c).1.1.tmSec = (timeTurn time c).1.2.toNat
  · refine ⟨c.reads, (timeTurn time c).1.1, (timeTurn time c).2, ?_,
      (timeTurn_still time h (still_of_second h hs)).1, le_rfl, ?_, ?_, rfl⟩
    · unfold timeReadBcd
      exact if_neg (not_not.mpr hs)
    · exact (by omega : c.reads < c.reads + 9)
    · exact (by omega : c.reads + 9 ≤ c.reads + 18)
  · set r := timeTurn time c with hr
    have hk : KeepsTime r.2.shown t passed := h
    have hreads : r.2.reads = c.reads + 9 := rfl
    -- the second has gone by, so in the next turn there is none
    have hstill : passed (r.2.reads + 8) = passed r.2.reads := by
      rw [hreads]
      have h₁ : passed c.reads ≤ passed (c.reads + 8) := h.goesOn (Nat.le_add_right _ _)
      have h₂ : passed (c.reads + 8) ≤ passed (c.reads + 9) := h.goesOn (Nat.le_succ _)
      have h₃ : passed (c.reads + 9) ≤ passed (c.reads + 9 + 8) := h.goesOn (Nat.le_add_right _ _)
      have h₄ := h.slow c.reads
      have hne : passed (c.reads + 8) ≠ passed c.reads := fun heq => hs (timeTurn_still time h heq).2
      have h₅ : passed (c.reads + 17) = passed (c.reads + 9 + 8) := rfl
      omega
    obtain ⟨hdigits, hsec⟩ := timeTurn_still r.1.1 hk hstill
    refine ⟨r.2.reads, (timeTurn r.1.1 r.2).1.1, (timeTurn r.1.1 r.2).2, ?_, hdigits, ?_, ?_, ?_, rfl⟩
    · unfold timeReadBcd
      rw [← hr]
      refine (if_pos hs).trans ?_
      unfold timeReadBcd
      exact if_neg (not_not.mpr hsec)
    · exact hreads ▸ Nat.le_add_right _ _
    · exact (by omega : r.2.reads < r.2.reads + 9)
    · exact le_rfl

theorem timeRead_moment (time : TmT) (h : KeepsTime c.shown t passed) (h₀ : 1970 ≤ t.date.year)
    (h₁ : (momentAt t passed (c.reads + 17)).date.year ≤ 2069) : ∃ k time' c',
    timeRead 2 time c = some (time', c') ∧ time'.toTm = tmOf (momentAt t passed k) ∧ c.reads ≤ k ∧
      k < c'.reads ∧ c'.written = c.written ∧ 1970 ≤ (momentAt t passed k).date.year ∧
        (momentAt t passed k).date.year ≤ 2069 := by
  obtain ⟨k, r, c', hr, hd, hlo, hhi, hle, hw⟩ := timeReadBcd_moment time h
  set u := momentAt t passed k with hu
  have hyears : ∀ (n : ℕ) (t : Moment), t.date.year ≤ (Moment.next^[n] t).date.year := fun n => by
    induction n with
    | zero => exact fun t => le_rfl
    | succ n ih => exact fun t => (Moment.le_next_year t).trans (ih t.next)
  have hlow : 1970 ≤ u.date.year := h₀.trans (hyears _ t)
  have hhigh : u.date.year ≤ 2069 := by
    refine (hyears (passed (c.reads + 17) - passed k) u).trans ?_
    have hmono : passed k ≤ passed (c.reads + 17) := h.goesOn (by omega)
    rw [hu, momentAt, ← Function.iterate_add_apply, Nat.sub_add_cancel hmono]
    exact h₁
  set time' : TmT := { r with
    tmSec := binOf r.tmSec, tmMin := binOf r.tmMin, tmHour := binOf r.tmHour,
    tmWday := binOf r.tmWday, tmMday := binOf r.tmMday, tmMon := binOf r.tmMon,
    tmYear := binOf r.tmYear } with htime
  have htm : time'.toTm = tmOf u := by
    simp only [htime, tmOf, hd.second, hd.minute, hd.hour, hd.day, hd.month, hd.year]
  obtain ⟨yday, hyday⟩ : ∃ yday, getYday time'.toTm = some yday := by
    rw [htm]
    exact ⟨_, getYday_tmOf hlow hhigh⟩
  refine ⟨k, { time' with tmYday := yday, tmIsdst := -1, century := binOf r.century }, c', ?_, htm, hlo,
    hhi, hw,
    hlow, hhigh⟩
  unfold timeRead
  simp only [hr, Option.bind_eq_bind, Option.bind_some]
  change (getYday time'.toTm).bind _ = _
  rw [hyday]
  rfl

/-- `time_init` ends, and `startup_time` is the number of seconds from the start of 1970 to a moment that the
clock showed meanwhile. -/
theorem timeInit_startup (time : TmT) (h : KeepsTime c.shown t passed) (h₀ : 1970 ≤ t.date.year)
    (h₁ : (momentAt t passed (c.reads + 17)).date.year ≤ 2069) : ∃ k startupTime c',
    timeInit 2 time c = some (startupTime, c') ∧ c.reads ≤ k ∧ k < c'.reads ∧
      SinceEpoch (momentAt t passed k) startupTime := by
  obtain ⟨k, time', c', hread, htm, hlo, hhi, -, hlow, hhigh⟩ := timeRead_moment time h h₀ h₁
  refine ⟨k, _, c', ?_, hlo, hhi, Moment.iterate_count hlow⟩
  unfold timeInit
  simp only [hread, Option.bind_eq_bind, Option.bind_some]
  rw [htm, mktime_tmOf hlow hhigh]
  rfl

/-- Two decimal digits. -/
def digits (n : ℕ) : BitVec 8 := BitVec.ofNat 8 (n / 10 * 16 + n % 10)

theorem digits_shows (h : n < 100) : Shows (digits n) n := by
  have hlt : n / 10 * 16 + n % 10 < 2 ^ 8 := by omega
  unfold Shows digits
  rw [BitVec.toNat_ofNat, Nat.mod_eq_of_lt hlt]

/-- A clock that goes on every thousand reads. -/
def ticking (t : Moment) (k : ℕ) (addr : BitVec 8) : BitVec 8 :=
  let u := momentAt t (· / 1000) k
  if addr = CMOS_SECOND then digits u.second
  else if addr = CMOS_MINUTE then digits u.minute
  else if addr = CMOS_HOUR then digits u.hour
  else if addr = CMOS_DAY then digits u.date.day
  else if addr = CMOS_MONTH then digits u.date.month
  else digits (u.date.year % 100)

theorem ticking_keepsTime (t : Moment) : KeepsTime (ticking t) t (· / 1000) where
  second k := digits_shows ((momentAt t (· / 1000) k).second_lt.trans (by decide))
  minute k := digits_shows ((momentAt t (· / 1000) k).minute_lt.trans (by decide))
  hour k := digits_shows ((momentAt t (· / 1000) k).hour_lt.trans (by decide))
  day k := digits_shows (by
    have h := (momentAt t (· / 1000) k).date.day_le
    have hle := monthDays_le (momentAt t (· / 1000) k).date.year (momentAt t (· / 1000) k).date.month
    omega)
  month k := digits_shows ((momentAt t (· / 1000) k).date.month_le.trans_lt (by decide))
  year k := digits_shows (Nat.mod_lt _ (by decide))
  goesOn _ _ h := Nat.div_le_div_right h
  slow k := by omega

theorem timeInit_startup_ticking : ∃ k startupTime c',
    timeInit 2 ⟨tmOf leapDay, 0, 0, 0, 0⟩ ⟨ticking leapDay, 0, fun _ => 0⟩ = some (startupTime, c') ∧ 0 ≤ k ∧
      k < c'.reads ∧ SinceEpoch (momentAt leapDay (· / 1000) k) startupTime :=
  timeInit_startup _ (ticking_keepsTime leapDay) (by decide) (by decide)

/-- The seconds of the day that have gone by. -/
def secondOfDay (t : Moment) : ℕ := 3600 * t.hour + 60 * t.minute + t.second

theorem secondOfDay_next (t : Moment) : secondOfDay t.next = (secondOfDay t + 1) % 86400 := by
  have hh := t.hour_lt
  have hm := t.minute_lt
  have hs := t.second_lt
  unfold secondOfDay Moment.next
  split_ifs
  all_goals
    dsimp only
    omega

theorem secondOfDay_iterate (t : Moment) (n : ℕ) :
    secondOfDay (Moment.next^[n] t) = (secondOfDay t + n) % 86400 := by
  induction n generalizing t with
  | zero =>
    have hh := t.hour_lt
    have hm := t.minute_lt
    have hs := t.second_lt
    unfold secondOfDay
    rw [Function.iterate_zero_apply]
    omega
  | succ n ih =>
    rw [Function.iterate_succ_apply, ih, secondOfDay_next]
    omega

end Onix.Time

namespace Onix.Rtc

open Time Calendar
open Sched (int32)

variable {c : Cmos} {t : Moment} {passed : ℕ → ℕ}

/-- One place of a sum in base 60, with what it carries over. -/
theorem carry {a b h : ℕ} (ha : a ≤ 60) (hb : b < 60) (hh : h < 2 ^ 30) :
    (if int32 ((a : ℤ) + b) ≥ 60 then ((int32 ((a : ℤ) + b)).tmod 60, int32 ((h : ℤ) + 1))
      else (int32 ((a : ℤ) + b), (h : ℤ))) =
      ((((a + b) % 60 : ℕ) : ℤ), ((h + (a + b) / 60 : ℕ) : ℤ)) := by
  rw [int32_eq (by omega) (by omega), int32_eq (by omega) (by omega)]
  split_ifs with hle
  · refine Prod.ext ?_ ?_
    · dsimp only
      rw [Int.tmod_eq_emod_of_nonneg (by omega)]
      omega
    · dsimp only
      omega
  · refine Prod.ext ?_ ?_
    all_goals
      dsimp only
      omega

theorem wrapDay {a b : ℕ} (ha : a ≤ 60) (hb : b < 2 ^ 30) :
    (if int32 ((a : ℤ) + b) ≥ 24 then (int32 ((a : ℤ) + b)).tmod 24 else int32 ((a : ℤ) + b)) =
      (((a + b) % 24 : ℕ) : ℤ) := by
  rw [int32_eq (by omega) (by omega)]
  split_ifs with hle
  · rw [Int.tmod_eq_emod_of_nonneg (by omega)]
    omega
  · omega

/-- The alarm is set to the time of day of `t`. -/
structure AlarmAt (c : Cmos) (t : Moment) : Prop where
  hour : Shows (c.written CMOS_HOUR) t.hour
  minute : Shows (c.written CMOS_MINUTE) t.minute
  second : Shows (c.written CMOS_SECOND) t.second

theorem AlarmAt.secondOfDay_eq {u : Moment} (h : AlarmAt c t) (h' : AlarmAt c u) :
    secondOfDay t = secondOfDay u := by
  unfold secondOfDay
  rw [h.hour.inj h'.hour, h.minute.inj h'.minute, h.second.inj h'.second]

/-- The fields of the time of day `secs` seconds after that of `u`. -/
theorem fields_later {u v : Moment} {secs : ℕ} (h : secondOfDay v = (secondOfDay u + secs) % 86400) :
    v.second = (u.second + secs % 60) % 60 ∧
    v.minute = (u.minute + (u.second + secs % 60) / 60 + secs / 60 % 60) % 60 ∧
    v.hour = (u.hour + (u.minute + (u.second + secs % 60) / 60 + secs / 60 % 60) / 60 +
      secs / 60 / 60) % 24 := by
  have h₁ := u.minute_lt
  have h₂ := u.second_lt
  have h₃ := v.hour_lt
  have h₄ := v.minute_lt
  have h₅ := v.second_lt
  unfold secondOfDay at h
  omega

/-- What `set_alarm` writes. -/
def alarmSet (c : Cmos) (hour min sec : ℕ) : Cmos :=
  cmosWrite CMOS_B 0x22 (cmosWrite CMOS_SECOND (binToBcd (BitVec.ofInt 8 sec))
    (cmosWrite CMOS_MINUTE (binToBcd (BitVec.ofInt 8 min)) (cmosWrite CMOS_HOUR (binToBcd (BitVec.ofInt 8 hour)) c)))

theorem alarmSet_at (c : Cmos) (t : Moment) :
    AlarmAt (cmosRead CMOS_C (alarmSet c t.hour t.minute t.second)).2 t :=
  { hour := binToBcd_shows (t.hour_lt.trans (by decide))
    minute := binToBcd_shows (t.minute_lt.trans (by decide))
    second := binToBcd_shows (t.second_lt.trans (by decide)) }

theorem setAlarm_eq {time time' : TmT} {c' : Cmos} {secs : ℕ} {u v : Moment} (hsecs : secs < 2 ^ 32)
    (hread : timeRead 2 time c = some (time', c')) (htm : time'.toTm = tmOf u)
    (hv : secondOfDay v = (secondOfDay u + secs) % 86400) :
    setAlarm 2 secs time c = some (cmosRead CMOS_C (alarmSet c' v.hour v.minute v.second)).2 := by
  have hh := u.hour_lt
  have hm := u.minute_lt
  have hs := u.second_lt
  have hsec : time'.tmSec = u.second := congrArg Tm.tmSec htm
  have hmin : time'.tmMin = u.minute := congrArg Tm.tmMin htm
  have hhour : time'.tmHour = u.hour := congrArg Tm.tmHour htm
  obtain ⟨hs', hm', hh'⟩ := fields_later hv
  have hcarry₁ := carry (a := u.second) (b := secs % 60) (h := u.minute) (by omega) (by omega) (by omega)
  have hcarry₂ := carry (a := u.minute + (u.second + secs % 60) / 60) (b := secs / 60 % 60) (h := u.hour)
    (by omega) (by omega) (by omega)
  have hwrap := wrapDay (a := u.hour + (u.minute + (u.second + secs % 60) / 60 + secs / 60 % 60) / 60)
    (b := secs / 60 / 60) (by omega) (by omega)
  unfold setAlarm
  simp only [hread, Option.bind_eq_bind, Option.bind_some, hsec, hmin, hhour, hcarry₁, hcarry₂, hwrap]
  rw [← hs', ← hm', ← hh']
  rfl

/-- `set_alarm` ends, and sets the alarm to the time of day that the clock shows `secs` seconds after a moment
that it showed meanwhile; up to a day from then it shows that time at no moment before. -/
theorem setAlarm_moment (time : TmT) {secs : ℕ} (hsecs : secs < 2 ^ 32) (h : KeepsTime c.shown t passed)
    (h₀ : 1970 ≤ t.date.year) (h₁ : (momentAt t passed (c.reads + 17)).date.year ≤ 2069) : ∃ k c',
    setAlarm 2 secs time c = some c' ∧ c.reads ≤ k ∧ k < c'.reads ∧ c'.written CMOS_B = 0x22 ∧
      AlarmAt c' (Moment.next^[secs] (momentAt t passed k)) ∧
        ∀ j, 0 < j → j < secs → secs ≤ 86400 → ¬ AlarmAt c' (Moment.next^[j] (momentAt t passed k)) := by
  obtain ⟨k, time', c', hread, htm, hlo, hhi, -⟩ := timeRead_moment time h h₀ h₁
  set u := momentAt t passed k
  have hat := alarmSet_at c' (Moment.next^[secs] u)
  refine ⟨k, _, setAlarm_eq hsecs hread htm (secondOfDay_iterate u secs), hlo, ?_, rfl, hat,
    fun j hj hlt hday hearly => ?_⟩
  · exact hhi.trans (Nat.lt_succ_self _)
  · have heq : secondOfDay (Moment.next^[j] u) = secondOfDay (Moment.next^[secs] u) :=
      hearly.secondOfDay_eq hat
    have hu : secondOfDay u < 86400 := by
      have hh := u.hour_lt
      have hm := u.minute_lt
      have hs := u.second_lt
      unfold secondOfDay
      omega
    rw [secondOfDay_iterate, secondOfDay_iterate] at heq
    omega

theorem setAlarm_moment_ticking : ∃ k c',
    setAlarm 2 3600 ⟨tmOf leapDay, 0, 0, 0, 0⟩ ⟨ticking leapDay, 0, fun _ => 0⟩ = some c' ∧ 0 ≤ k ∧
      k < c'.reads ∧
      c'.written CMOS_B = 0x22 ∧
      AlarmAt c' (Moment.next^[3600] (momentAt leapDay (· / 1000) k)) ∧
        ∀ j, 0 < j → j < 3600 → 3600 ≤ 86400 →
          ¬ AlarmAt c' (Moment.next^[j] (momentAt leapDay (· / 1000) k)) :=
  setAlarm_moment _ (by decide) (ticking_keepsTime leapDay) (by decide) (by decide)

end Onix.Rtc
