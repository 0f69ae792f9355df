import Onix.Spec.Time

/-! `kernel/rtc.c` and the reading of the clock in `kernel/time.c`. Between two reads of a register the
clock may go on. -/

namespace Onix.Rtc

/-- `bcd_to_bin` -/
def bcdToBin (value : BitVec 8) : BitVec 8 := (value &&& 0xf) + (value >>> 4) * 10

/-- `bin_to_bcd` -/
def binToBcd (value : BitVec 8) : BitVec 8 := (value / 10) * 0x10 + value % 10

/-- The clock: `shown k` are its registers at read `k`, `reads` of which there were. -/
structure Cmos where
  shown : ℕ → BitVec 8 → BitVec 8
  reads : ℕ
  written : BitVec 8 → BitVec 8

/-- `cmos_read`; the bit `CMOS_NMI` of the index is not a part of it. -/
def cmosRead (addr : BitVec 8) : StateM Cmos (BitVec 8) :=
  fun c => (c.shown c.reads addr, { c with reads := c.reads + 1 })

/-- `cmos_write` -/
def cmosWrite (addr value : BitVec 8) (c : Cmos) : Cmos :=
  { c with written := Function.update c.written addr value }

end Onix.Rtc

namespace Onix.Time

open Rtc

def CMOS_SECOND : BitVec 8 := 0x00
def CMOS_MINUTE : BitVec 8 := 0x02
def CMOS_HOUR : BitVec 8 := 0x04
def CMOS_WEEKDAY : BitVec 8 := 0x06
def CMOS_DAY : BitVec 8 := 0x07
def CMOS_MONTH : BitVec 8 := 0x08
def CMOS_YEAR : BitVec 8 := 0x09
def CMOS_CENTURY : BitVec 8 := 0x32

/-- `tm`, with the global `century`. -/
structure TmT extends Tm where
  tmWday : ℤ
  tmYday : ℤ
  tmIsdst : ℤ
  century : ℤ

/-- One turn of the loop of `time_read_bcd`: what it stores, and the second it reads at its end. -/
def timeTurn (time : TmT) : StateM Cmos (TmT × BitVec 8) := do
  let sec ← cmosRead CMOS_SECOND
  let min ← cmosRead CMOS_MINUTE
  let hour ← cmosRead CMOS_HOUR
  let wday ← cmosRead CMOS_WEEKDAY
  let mday ← cmosRead CMOS_DAY
  let mon ← cmosRead CMOS_MONTH
  let year ← cmosRead CMOS_YEAR
  let century ← cmosRead CMOS_CENTURY
  let last ← cmosRead CMOS_SECOND
  return ({ time with
    tmSec := sec.toNat, tmMin := min.toNat, tmHour := hour.toNat, tmWday := wday.toNat,
    tmMday := mday.toNat, tmMon := mon.toNat, tmYear := year.toNat, century := century.toNat }, last)

/-- `time_read_bcd`; `none` where `turns` turns of its loop are not enough. -/
def timeReadBcd : (turns : ℕ) → TmT → Cmos → Option (TmT × Cmos)
  | 0, _, _ => none
  | turns + 1, time, c =>
    let (r, c) := timeTurn time c
    if r.1.tmSec ≠ r.2.toNat then timeReadBcd turns r.1 c else some (r.1, c)

/-- `time = bcd_to_bin(time)`, for a field of `tm`. -/
def binOf (value : ℤ) : ℤ := (bcdToBin (BitVec.ofInt 8 value)).toNat

/-- `time_read`; `none` also for a month outside the table. -/
def timeRead (turns : ℕ) (time : TmT) (c : Cmos) : Option (TmT × Cmos) := do
  let (time, c) ← timeReadBcd turns time c
  let time := { time with
    tmSec := binOf time.tmSec, tmMin := binOf time.tmMin, tmHour := binOf time.tmHour,
    tmWday := binOf time.tmWday, tmMday := binOf time.tmMday, tmMon := binOf time.tmMon,
    tmYear := binOf time.tmYear }
  let yday ← getYday time.toTm
  return ({ time with tmYday := yday, tmIsdst := -1, century := binOf time.century }, c)

/-- `time_init`: the `startup_time` it sets, over whatever `time` holds at first. -/
def timeInit (turns : ℕ) (time : TmT) (c : Cmos) : Option (ℕ × Cmos) := do
  let (time, c) ← timeRead turns time c
  let startupTime ← mktime time.toTm
  return (startupTime, c)

end Onix.Time

namespace Onix.Rtc

open Time (TmT timeRead)
open Sched (int32)

def CMOS_SECOND : BitVec 8 := 0x01
def CMOS_MINUTE : BitVec 8 := 0x03
def CMOS_HOUR : BitVec 8 := 0x05
def CMOS_B : BitVec 8 := 0x0b
def CMOS_C : BitVec 8 := 0x0c

/-- `set_alarm`, over whatever `time` holds at first. -/
def setAlarm (turns secs : ℕ) (time : TmT) (c : Cmos) : Option Cmos := do
  let (time, c) ← timeRead turns time c
  let sec := secs % 60
  let secs := secs / 60
  let min := secs % 60
  let hour := secs / 60
  let tmSec := int32 (time.tmSec + sec)
  let (tmSec, tmMin) :=
    if tmSec ≥ 60 then (tmSec.tmod 60, int32 (time.tmMin + 1)) else (tmSec, time.tmMin)
  let tmMin := int32 (tmMin + min)
  let (tmMin, tmHour) :=
    if tmMin ≥ 60 then (tmMin.tmod 60, int32 (time.tmHour + 1)) else (tmMin, time.tmHour)
  let tmHour := int32 (tmHour + hour)
  let tmHour := if tmHour ≥ 24 then tmHour.tmod 24 else tmHour
  let c := cmosWrite CMOS_HOUR (binToBcd (BitVec.ofInt 8 tmHour)) c
  let c := cmosWrite CMOS_MINUTE (binToBcd (BitVec.ofInt 8 tmMin)) c
  let c := cmosWrite CMOS_SECOND (binToBcd (BitVec.ofInt 8 tmSec)) c
  let c := cmosWrite CMOS_B 0x22 c
  return (cmosRead CMOS_C c).2

end Onix.Rtc

namespace Onix.Time

open Rtc Calendar

/-- A register shows `n` in two decimal digits. -/
def Shows (value : BitVec 8) (n : ℕ) : Prop := value.toNat = n / 10 * 16 + n % 10

/-- The moment at read `k`, when the clock started at `t` and has gone on by `passed k` seconds. -/
def momentAt (t : Moment) (passed : ℕ → ℕ) (k : ℕ) : Moment := Moment.next^[passed k] t

/-- The clock shows the calendar, and goes on by at most a second while it is read eighteen times. -/
structure KeepsTime (shown : ℕ → BitVec 8 → BitVec 8) (t : Moment) (passed : ℕ → ℕ) : Prop where
  second : ∀ k, Shows (shown k CMOS_SECOND) (momentAt t passed k).second
  minute : ∀ k, Shows (shown k CMOS_MINUTE) (momentAt t passed k).minute
  hour : ∀ k, Shows (shown k CMOS_HOUR) (momentAt t passed k).hour
  day : ∀ k, Shows (shown k CMOS_DAY) (momentAt t passed k).date.day
  month : ∀ k, Shows (shown k CMOS_MONTH) (momentAt t passed k).date.month
  year : ∀ k, Shows (shown k CMOS_YEAR) ((momentAt t passed k).date.year % 100)
  goesOn : Monotone passed
  slow : ∀ k, passed (k + 17) ≤ passed k + 1

end Onix.Time
