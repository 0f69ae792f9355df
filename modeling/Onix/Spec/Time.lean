import Onix.Lib.Calendar
import Onix.Spec.Sched

/-! `mktime` and `get_yday` of `kernel/time.c`, on dates as the CMOS delivers them: the year
has two digits. `none` stands for a read outside the table of months. -/

namespace Onix.Time

open Sched (int32 u32)
open Calendar (Date Moment)

/-- The fields of `tm` that `mktime` and `get_yday` read. -/
structure Tm where
  tmSec : ℤ
  tmMin : ℤ
  tmHour : ℤ
  tmMday : ℤ
  tmMon : ℤ
  tmYear : ℤ
  deriving DecidableEq

def MINUTE : ℤ := 60

def HOUR : ℤ := 60 * MINUTE

def DAY : ℤ := 24 * HOUR

def YEAR : ℤ := 365 * DAY

/-- The days before each month of a leap year; there is no month 0. -/
def month : List ℤ := [
  0,
  0,
  31,
  31 + 29,
  31 + 29 + 31,
  31 + 29 + 31 + 30,
  31 + 29 + 31 + 30 + 31,
  31 + 29 + 31 + 30 + 31 + 30,
  31 + 29 + 31 + 30 + 31 + 30 + 31,
  31 + 29 + 31 + 30 + 31 + 30 + 31 + 31,
  31 + 29 + 31 + 30 + 31 + 30 + 31 + 31 + 30,
  31 + 29 + 31 + 30 + 31 + 30 + 31 + 31 + 30 + 31,
  31 + 29 + 31 + 30 + 31 + 30 + 31 + 31 + 30 + 31 + 30]

/-- `month[mon]`. -/
def monthAt (mon : ℤ) : Option ℤ := if 0 ≤ mon then month[mon.toNat]? else none

/-- `res += n`, for an `int` `n`. -/
def plus (res : ℕ) (n : ℤ) : ℕ := u32 (res + int32 n)

variable (time : Tm)

/-- The years since 1970. -/
def yearOf : ℤ :=
  if time.tmYear ≥ 70 then int32 (time.tmYear - 70) else int32 (int32 (time.tmYear - 70) + 100)

/-- `(year + 2) % 4`. -/
def afterLeap : ℤ := (int32 (yearOf time + 2)).tmod 4

/-- `mktime`. -/
def mktime : Option ℕ := do
  let year := yearOf time
  let res := u32 (int32 (YEAR * year))
  let res := plus res (DAY * (int32 (year + 1)).tdiv 4)
  let days ← monthAt time.tmMon
  let res := plus res (days * DAY)
  let res := if time.tmMon > 2 ∧ afterLeap time ≠ 0 then plus res (-DAY) else res
  let res := plus res (DAY * int32 (time.tmMday - 1))
  let res := plus res (HOUR * time.tmHour)
  let res := plus res (MINUTE * time.tmMin)
  return plus res time.tmSec

/-- `get_yday`. -/
def getYday : Option ℤ := do
  let res ← monthAt time.tmMon
  let res := int32 (res + time.tmMday)
  return if afterLeap time ≠ 0 ∧ time.tmMon > 2 then int32 (res - 1) else res

/-- A moment as `time_read` delivers it. -/
def tmOf (t : Moment) : Tm where
  tmSec := t.second
  tmMin := t.minute
  tmHour := t.hour
  tmMday := t.date.day
  tmMon := t.date.month
  tmYear := (t.date.year % 100 : ℕ)

/-- `n` is the number of seconds from 1970-01-01 00:00:00 to `t`. -/
def SinceEpoch (t : Moment) (n : ℕ) : Prop := Moment.next^[n] (Moment.newYear 1970) = t

/-- `n` is the ordinal of `d` in its year. -/
def Ordinal (d : Date) (n : ℤ) : Prop := ∃ k : ℕ, n = k + 1 ∧ Date.next^[k] (Date.newYear d.year) = d

end Onix.Time
