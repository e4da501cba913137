import Mathlib.Algebra.Order.BigOperators.Group.List
import Mathlib.Algebra.GroupWithZero.Action.Defs
import Mathlib.Tactic.Ring

/-!
# `lapic.c` — the kernel clock

`cmostime`, `mktime` and `sys_time`, compared with Unix time: the number of seconds of the Gregorian calendar
since 1970-01-01 00:00:00. The fields of a date are natural numbers; `tval` is an `int` and wraps.

The days of the current month are counted from 1 and all of them are added, so the clock is one day ahead
for every date; the sum leaves the `int` on 2038-01-18 at 03:14:08.
-/

namespace Xv6Clock

open List Int32

/-- `struct rtcdate` -/
structure Rtcdate where
  second : Nat
  minute : Nat
  hour : Nat
  day : Nat
  month : Nat
  year : Nat
deriving DecidableEq

/-! ## The code -/

/-- `CONV`, which is applied if the clock counts in BCD. -/
def conv (bcd : Bool) (x : Nat) : Nat :=
  if bcd then x / 16 * 10 + x % 16 else x

/-- `cmostime`, from the status byte B and the registers that were read twice with the same result. -/
def cmostime (sb : UInt8) (t1 : Rtcdate) : Rtcdate :=
  let bcd := sb &&& 4 == 0
  { second := conv bcd t1.second
    minute := conv bcd t1.minute
    hour := conv bcd t1.hour
    day := conv bcd t1.day
    month := conv bcd t1.month
    year := conv bcd t1.year + 2000 }

def isleap (yr : Nat) : Bool :=
  yr % 4 == 0

def S_INDAY : Int32 := 86400

def S_INHOUR : Int32 := 3600

def S_INMIN : Int32 := 60

/-- Seconds to midnight on the first day of a month of a common year. -/
def secs_to_mon : List Int32 :=
  [0, 0, 31, 31 + 28, 31 + 28 + 31, 31 + 28 + 31 + 30, 31 + 28 + 31 + 30 + 31, 31 + 28 + 31 + 30 + 31 + 30,
    31 + 28 + 31 + 30 + 31 + 30 + 31, 31 + 28 + 31 + 30 + 31 + 30 + 31 + 31,
    31 + 28 + 31 + 30 + 31 + 30 + 31 + 31 + 30, 31 + 28 + 31 + 30 + 31 + 30 + 31 + 31 + 30 + 31,
    31 + 28 + 31 + 30 + 31 + 30 + 31 + 31 + 30 + 31 + 30].map (· * S_INDAY)

/-- The loop of `mktime` over the years from `i`. -/
def mktimeLoop : (years i : Nat) → Int32 → Int32
  | 0, _, tval => tval
  | k + 1, i, tval => mktimeLoop k (i + 1) (tval + if isleap i then 366 * S_INDAY else 365 * S_INDAY)

/-- `mktime`; `none` is a month that `secs_to_mon` does not have. -/
def mktime (gmt : Rtcdate) : Option Int32 :=
  -- the value of `i` after the loop
  let i := 1970 + (gmt.year - 1970)
  let tval := mktimeLoop (gmt.year - 1970) 1970 0
  let tval := if isleap i && decide (2 < gmt.month) then tval + S_INDAY else tval
  secs_to_mon[gmt.month]?.map fun mon =>
    tval + mon + ofNat gmt.day * S_INDAY + ofNat gmt.hour * S_INHOUR
      + ofNat gmt.minute * S_INMIN + ofNat gmt.second

/-- `sys_time` -/
def sysTime (sb : UInt8) (t1 : Rtcdate) : Option Int32 :=
  mktime (cmostime sb t1)

/-! ## The calendar -/

/-- The leap years of the Gregorian calendar. -/
def leapYear (y : Nat) : Bool :=
  y % 4 == 0 && (y % 100 != 0 || y % 400 == 0)

def yearDays (y : Nat) : Nat :=
  if leapYear y then 366 else 365

def monthDays (leap : Bool) : Nat → Nat
  | 2 => if leap then 29 else 28
  | 4 | 6 | 9 | 11 => 30
  | _ => 31

/-- A date and time of day of the calendar. -/
structure Rtcdate.Valid (d : Rtcdate) : Prop where
  month : 1 ≤ d.month ∧ d.month ≤ 12
  day : 1 ≤ d.day ∧ d.day ≤ monthDays (leapYear d.year) d.month
  hour : d.hour < 24
  minute : d.minute < 60
  second : d.second < 60

/-- Days from 1970-01-01 to the date. -/
def days (d : Rtcdate) : Nat :=
  ((range' 1970 (d.year - 1970)).map yearDays).sum
    + ((range' 1 (d.month - 1)).map (monthDays (leapYear d.year))).sum + (d.day - 1)

/-- Seconds from 1970-01-01 00:00:00 to the date. -/
def unixTime (d : Rtcdate) : Nat :=
  86400 * days d + 3600 * d.hour + 60 * d.minute + d.second

/-- The years 1901 to 2099 have no exception from the rule of `isleap`. -/
theorem isleap_eq {y : Nat} (h0 : 1900 < y) (h1 : y < 2100) : isleap y = leapYear y := by
  rw [isleap, leapYear, Bool.eq_iff_iff]
  simp only [beq_iff_eq, bne_iff_ne, Bool.and_eq_true, Bool.or_eq_true]
  omega

theorem mktimeLoop_eq (k : Nat) : ∀ {i : Nat} (t : Int32), 1900 < i → i + k ≤ 2100 →
    mktimeLoop k i t = t + ofNat (86400 * ((range' i k).map yearDays).sum) := by
  induction k with
  | zero =>
    intro i t _ _
    exact (Int32.add_zero t).symm
  | succ k ih =>
    intro i t h0 h1
    have hyear : (if isleap i then 366 * S_INDAY else 365 * S_INDAY) = ofNat (86400 * yearDays i) := by
      rw [isleap_eq h0 (by omega), yearDays]
      cases leapYear i <;> rfl
    rw [mktimeLoop, ih _ (by omega) (by omega), hyear, range'_succ, map_cons, sum_cons, Nat.mul_add,
      Int32.ofNat_add, Int32.add_assoc]

/-- The table and the leap day together count the days of the months before. -/
theorem months_eq : ∀ leap : Bool, ∀ m < 13, 1 ≤ m → ∃ mon, secs_to_mon[m]? = some mon ∧
    (if leap && decide (2 < m) then S_INDAY else 0) + mon
      = ofNat (86400 * ((range' 1 (m - 1)).map (monthDays leap)).sum) := by
  have h : ∀ leap : Bool, ∀ m < 13, 1 ≤ m → (secs_to_mon[m]?.map fun mon =>
      (if leap && decide (2 < m) then S_INDAY else 0) + mon)
      = some (ofNat (86400 * ((range' 1 (m - 1)).map (monthDays leap)).sum)) := by decide
  intro leap m h0 h1
  exact Option.map_eq_some_iff.mp (h leap m h0 h1)

/-- The clock counts the days of the month from 1. -/
theorem mktime_eq {d : Rtcdate} (h : d.Valid) (h0 : 1970 ≤ d.year) (h1 : d.year ≤ 2099) :
    mktime d = some (ofNat (unixTime d + 86400)) := by
  obtain ⟨hm1, hm2⟩ := h.month
  obtain ⟨mon, hmon, hsum⟩ := months_eq (leapYear d.year) d.month (by omega) hm1
  have hi : 1970 + (d.year - 1970) = d.year := by omega
  have hday : 86400 * d.day = 86400 * (d.day - 1) + 86400 := by
    have := h.day.1
    omega
  have hloop := mktimeLoop_eq (d.year - 1970) (i := 1970) 0 (by omega) (by omega)
  have hleap : ∀ t : Int32, (if leapYear d.year && decide (2 < d.month) then t + S_INDAY else t)
      = t + if leapYear d.year && decide (2 < d.month) then S_INDAY else 0 := by
    intro t
    split
    · rfl
    · exact (Int32.add_zero t).symm
  have htotal : unixTime d + 86400 = 86400 * ((range' 1970 (d.year - 1970)).map yearDays).sum
      + 86400 * ((range' 1 (d.month - 1)).map (monthDays (leapYear d.year))).sum + d.day * 86400
      + d.hour * 3600 + d.minute * 60 + d.second := by
    rw [unixTime, days]
    omega
  rw [mktime, hi, isleap_eq (by omega) (by omega), hloop, hmon, Option.map_some, hleap, htotal, Int32.zero_add]
  simp only [Int32.ofNat_add, ← hsum, Int32.ofNat_mul, Int32.add_assoc]
  rfl

/-- A date of the century fits 32 bits, with the day that is added. -/
theorem unixTime_lt {d : Rtcdate} (h : d.Valid) (h1 : d.year ≤ 2099) : unixTime d + 86400 < 2 ^ 32 := by
  have hyears : ∀ y, yearDays y ≤ 366 := by
    intro y
    rw [yearDays]
    split <;> omega
  have hmonths : ∀ leap : Bool, ∀ m < 13,
      ((range' 1 (m - 1)).map (monthDays leap)).sum + monthDays leap m ≤ 366 := by decide
  have hy := sum_le_card_nsmul ((range' 1970 (d.year - 1970)).map yearDays) 366
    (forall_mem_map.mpr fun y _ => hyears y)
  rw [length_map, length_range', smul_eq_mul] at hy
  have hm := hmonths (leapYear d.year) d.month (by have := h.month.2; omega)
  have hday := h.day
  have := h.hour
  have := h.minute
  have := h.second
  rw [unixTime, days]
  omega

theorem toInt_ofNat {n : Nat} (h : n < 2 ^ 32) : (ofNat n).toInt = if n < 2 ^ 31 then (n : Int) else n - 2 ^ 32 := by
  rw [toInt_ofNat', Int.bmod_def, show size = 2 ^ 32 from rfl]
  split <;> split <;> omega

/-- For every date that the real-time clock can deliver `sys_time` returns a number, and never the Unix time:
    it is one day ahead as long as that fits an `int`, and 2 ^ 32 less afterwards. Two dates are in order
    unless the later one alone has left the `int`. -/
theorem sysTime_day_ahead (sb : UInt8) (r : Rtcdate) (h : (cmostime sb r).Valid) (hy : (cmostime sb r).year ≤ 2099) :
    ∃ t, sysTime sb r = some t ∧ (t.toInt = unixTime (cmostime sb r) ↔ False) ∧
      (t.toInt = unixTime (cmostime sb r) + 86400 ↔ unixTime (cmostime sb r) + 86400 < 2 ^ 31) ∧
      ∀ r' t', (cmostime sb r').Valid → (cmostime sb r').year ≤ 2099 → sysTime sb r' = some t' →
        unixTime (cmostime sb r) < unixTime (cmostime sb r') → (t.toInt < t'.toInt ↔
          2 ^ 31 ≤ unixTime (cmostime sb r) + 86400 ∨ unixTime (cmostime sb r') + 86400 < 2 ^ 31) := by
  have hval : ∀ q, (cmostime sb q).Valid → (cmostime sb q).year ≤ 2099 →
      sysTime sb q = some (ofNat (unixTime (cmostime sb q) + 86400)) :=
    fun q hq hqy => mktime_eq hq (Nat.le_trans (by omega) (Nat.le_add_left 2000 _)) hqy
  have hint := fun q hq hqy => toInt_ofNat (unixTime_lt (d := cmostime sb q) hq hqy)
  have hfits := unixTime_lt h hy
  refine ⟨_, hval r h hy, ?_, ?_, ?_⟩
  · rw [hint r h hy, iff_false]
    split <;> omega
  · rw [hint r h hy]
    split <;> omega
  · intro r' t' h' hy' ht' hlt
    have hfits' := unixTime_lt h' hy'
    rw [hval r' h' hy'] at ht'
    obtain rfl := Option.some.inj ht'
    rw [hint r h hy, hint r' h' hy']
    split <;> split <;> omega

/-- The first second of 2000, from a clock that counts in BCD. -/
theorem sysTime_day_ahead_2000 : ∃ t, sysTime 0 ⟨0, 0, 0, 1, 1, 0⟩ = some t ∧ ¬ t.toInt = 946684800 := by
  obtain ⟨t, ht, hne, -⟩ := sysTime_day_ahead 0 ⟨0, 0, 0, 1, 1, 0⟩
    ⟨by decide, by decide, by decide, by decide, by decide⟩ (by decide)
  exact ⟨t, ht, fun h => hne.mp h⟩

/-- The first second of 2000 is 946684800; the clock says 946771200, one day later. In 2099 it is negative. -/
theorem sysTime_not_unix :
    unixTime (cmostime 0 ⟨0, 0, 0, 1, 1, 0⟩) = 946684800 ∧ sysTime 0 ⟨0, 0, 0, 1, 1, 0⟩ = some 946771200 ∧
      (sysTime 0 ⟨0, 0, 0, 1, 1, 0x99⟩).any (fun t => t.toInt < 0) := by
  decide +kernel

end Xv6Clock
