/-
The conversions of `drivers/rtc/rtc-lib.c`.

The types are those of the code: `days` is an `int`, `year` and `(unsigned int) days * 86400` are
`unsigned int`, and `secs` is an `unsigned long`.  The product of the days wraps from 8 February
2106 on, and the hours are then too many for `rtc_valid_tm`; before that day the one correction of
the guessed year is enough.
-/
import MinimalLinux.Kernel.Timeconv

namespace MinimalLinux.Drivers

open Foundation Kernel

variable {t : Int}

/-! ## The code -/

structure RtcTime where
  sec : Int
  min : Int
  hour : Int
  mday : Int
  mon : Int
  year : Int
  wday : Int
  yday : Int
  isdst : Int
  deriving DecidableEq

def isLeapYear (year : Int) : Bool := (year % 4 = 0 ∧ year % 100 ≠ 0) ∨ year % 400 = 0

def rtcDaysInMonth : List Int := [31, 28, 31, 30, 31, 30, 31, 31, 30, 31, 30, 31]

def rtcMonthDays (month : Nat) (year : Int) : Int :=
  rtcDaysInMonth.getD month 0 + if isLeapYear year ∧ month = 1 then 1 else 0

def leapsThruEndOf (y : Int) : Int := y / 4 - y / 100 + y / 400

/-- The loop over months, with the rounds left. -/
def rtcMonthLoop (year : Int) : Nat → Nat → Int → Nat × Int
  | 0, month, days => (month, days)
  | k + 1, month, days =>
      let newdays := days - rtcMonthDays month year
      if newdays < 0 then (month, days) else rtcMonthLoop year k (month + 1) newdays

/-- The year and the day of the year, from the days since 1970. -/
def rtcYear (days : Int) : Int × Int :=
  let year := uint (1970 + days.tdiv 365)
  let days :=
    sint (days - uint
    (uint (year - 1970) * 365 + leapsThruEndOf (uint (year - 1)) - leapsThruEndOf (1970 - 1)))
  if days < 0 then (uint (year - 1), days + 365 + if isLeapYear (uint (year - 1)) then 1 else 0)
    else (year, days)

/-- `rtc_time64_to_tm`. -/
def rtcTime64ToTm (time : Int) : RtcTime :=
  let days := sint (time.tdiv 86400)
  let secs := (time - uint (uint days * 86400)) % 2 ^ 64
  let (year, yday) := rtcYear days
  let (month, mday) := rtcMonthLoop year 11 0 yday
  let hour := sint (secs / 3600)
  let secs := (secs - sint (hour * 3600)) % 2 ^ 64
  { wday := (days + 4).tmod 7, year := sint (year - 1900), yday := yday + 1, mon := month
    mday := mday + 1
    hour := hour, min := sint (secs / 60),
    sec := sint (secs - sint (sint (secs / 60) * 60)), isdst := 0 }

/-- `rtc_valid_tm`, with `-EINVAL` for a time that is none. -/
def rtcValidTm (tm : RtcTime) : Int :=
  if tm.year < 70 ∨ 12 ≤ uint tm.mon ∨ tm.mday < 1 ∨
    rtcMonthDays (uint tm.mon).toNat (uint (tm.year + 1900)) < tm.mday ∨
      24 ≤ uint tm.hour ∨ 60 ≤ uint tm.min ∨ 60 ≤ uint tm.sec then -22 else 0

def rtcTmToTime64 (tm : RtcTime) : Int :=
  mktime64 (uint (tm.year + 1900)) (uint (tm.mon + 1)) (uint tm.mday) (uint tm.hour) (uint tm.min)
    (uint tm.sec)

/-! ## Against the calendar -/

/-- The conversion of a time is right: it is accepted, is the date and the time of the day, with the
weekday, and converts back. -/
def RtcRight (t : Int) : Prop :=
  rtcValidTm (rtcTime64ToTm t) = 0 ∧
    (∃ (d : Date) (hour min sec : Int), d.Valid ∧ TimeOfDay hour min sec ∧
    secondOf d hour min sec = t ∧
      rtcTime64ToTm t = ⟨sec, min, hour, d.day, d.month, d.year - 1900, d.weekday, d.yday + 1, 0⟩) ∧
    rtcTmToTime64 (rtcTime64ToTm t) = t

lemma isLeapYear_eq (y : Int) : isLeapYear y = isLeap y := by
  rw [isLeapYear, isLeap, decide_eq_decide]
  omega

lemma rtcMonthDays_eq (y : Int) {m : Nat} (hm : m < 12) :
    rtcMonthDays m y = (monthDays (isLeap y)).getD m 0 := by
  rw [rtcMonthDays, isLeapYear_eq]
  revert m
  cases isLeap y <;> decide

lemma rtcMonthLoop_spec (y : Int) (k m : Nat) (days : Int) (hk : m + k = 11) (hlow : 0 ≤ days)
    (hhigh : daysBefore (isLeap y) m + days < yearDays y) :
    ∃ m' days', rtcMonthLoop y k m days = (m', days') ∧ m' < 12 ∧ 0 ≤ days' ∧
    days' < (monthDays (isLeap y)).getD m' 0 ∧
    daysBefore (isLeap y) m' + days' = daysBefore (isLeap y) m + days := by
  induction k generalizing m days with
  | zero =>
    obtain rfl : m = 11 := hk
    have hsucc := daysBefore_succ (isLeap y) (show 11 < 12 by decide)
    rw [daysBefore_twelve] at hsucc
    exact ⟨11, days, rfl, by decide, hlow, by omega, rfl⟩
  | succ k ih =>
    have hm : m < 12 := by omega
    have hsucc := daysBefore_succ (isLeap y) hm
    rw [rtcMonthLoop, rtcMonthDays_eq y hm]
    split_ifs with hneg
    · exact ⟨m, days, rfl, hm, hlow, by omega, rfl⟩
    obtain ⟨m', days', hloop, hm', hlow', hhigh', hsame⟩ := ih (m + 1)
      (days - (monthDays (isLeap y)).getD m 0) (by omega) (by omega) (by omega)
    exact ⟨m', days', hloop, hm', hlow', hhigh', by omega⟩

/-- In the days whose seconds fit, the guessed year is right or one too late. -/
lemma rtcYear_spec {n : Int} (hlow : 0 ≤ n) (hhigh : n < 49711) :
    ∃ y yday, rtcYear n = (y, yday) ∧ (0 ≤ yday ∧ yday < yearDays y) ∧ yearStart y + yday = n ∧
    1970 ≤ y ∧ y < 2200 := by
  have hguess : uint (1970 + n.tdiv 365) = 1970 + n / 365 := by
    rw [Int.tdiv_eq_ediv_of_nonneg hlow, uint_of_lt (by omega) (by omega)]
  have hstart :
    sint (n - uint
    (uint (1970 + n / 365 - 1970) * 365 + leapsThruEndOf (uint (1970 + n / 365 - 1)) -
      leapsThruEndOf (1970 - 1))) = n - yearStart (1970 + n / 365) := by
    rw [uint_of_lt (x := _ - 1970) (by omega) (by omega),
      uint_of_lt (x := _ - 1) (by omega) (by omega)]
    simp only [leapsThruEndOf, yearStart, leapsBefore, uint, sint]
    omega
  have hyear : ∀ y, yearStart (y - 1) + (365 + if isLeap (y - 1) then 1 else 0) = yearStart y := by
    intro y
    have hsucc := yearStart_succ (y - 1)
    rw [sub_add_cancel, yearDays] at hsucc
    split_ifs at hsucc ⊢ <;> omega
  have hback := hyear (1970 + n / 365)
  have hbound : yearStart (1970 + n / 365 - 1) ≤ n ∧ n < yearStart (1970 + n / 365 + 1) := by
    simp only [yearStart, leapsBefore]
    omega
  simp only [rtcYear, hguess, hstart]
  by_cases hneg : n - yearStart (1970 + n / 365) < 0
  · have hlater : n / 365 ≠ 0 := by
      intro hfirst
      rw [hfirst, show yearStart (1970 + 0) = 0 from rfl] at hneg
      omega
    rw [if_pos hneg, uint_of_lt (x := _ - 1) (by omega) (by omega), isLeapYear_eq]
    refine ⟨_, _, rfl, ?_, by omega, by omega, by omega⟩
    rw [yearDays]
    split_ifs at hback ⊢ <;> omega
  rw [yearStart_succ] at hbound
  rw [if_neg hneg]
  exact ⟨_, _, rfl, by omega, by omega, by omega, by omega⟩

lemma timeOfDay_second (t : Int) : TimeOfDay (t % 86400 / 3600) (t % 3600 / 60) (t % 60) :=
  ⟨by omega, by omega, by omega⟩

lemma secondOf_number {d : Date} (h : d.number = t / 86400) : secondOf d (t % 86400 / 3600)
    (t % 3600 / 60) (t % 60) = t := by
  rw [secondOf, h]
  omega

lemma rtcRight_of_lt (hlow : 0 ≤ t) (hhigh : t < 49711 * 86400) : RtcRight t := by
  have hdays : sint (t.tdiv 86400) = t / 86400 := by
    rw [Int.tdiv_eq_ediv_of_nonneg hlow, sint]
    omega
  have hsecs : (t - uint (uint (t / 86400) * 86400)) % 2 ^ 64 = t % 86400 := by
    rw [uint_of_lt (x := t / 86400) (by omega) (by omega), uint_of_lt (by omega) (by omega)]
    omega
  have hhour : sint (t % 86400 / 3600) = t % 86400 / 3600 := by
    rw [sint]
    omega
  have hmul : sint (t % 86400 / 3600 * 3600) = t % 86400 / 3600 * 3600 := by
    rw [sint]
    omega
  have hrest : (t % 86400 - t % 86400 / 3600 * 3600) % 2 ^ 64 = t % 3600 := by omega
  have hmin : sint (t % 3600 / 60) = t % 3600 / 60 := by
    rw [sint]
    omega
  have hsec : sint (t % 3600 - sint (t % 3600 / 60 * 60)) = t % 60 := by
    simp only [sint]
    omega
  obtain ⟨y, yday, hyear, hin, hstart, hy, hy'⟩ :=
    rtcYear_spec (show 0 ≤ t / 86400 by omega) (by omega)
  obtain ⟨m, mday, hmonth, hm, hfirst, hlast, hsame⟩ :=
    rtcMonthLoop_spec y 11 0 yday (by decide) hin.1
    (by rw [daysBefore_zero, Int.zero_add]; exact hin.2)
  rw [daysBefore_zero, Int.zero_add] at hsame
  let d : Date := ⟨y, m, mday + 1⟩
  have hd : d.Valid := ⟨hm, show 1 ≤ mday + 1 by omega, Int.add_one_le_of_lt hlast⟩
  have hyday : d.yday = yday := by
    simp only [d, Date.yday]
    omega
  have hnumber : d.number = t / 86400 := by rw [Date.number, hyday, ← hstart]
  have htime := timeOfDay_second t
  have hsecond := secondOf_number hnumber
  have hcode : rtcTime64ToTm t =
      ⟨t % 60, t % 3600 / 60, t % 86400 / 3600, d.day, d.month, d.year - 1900, d.weekday,
      d.yday + 1, 0⟩ := by
    have hsint : sint (y - 1900) = y - 1900 := by
      rw [sint]
      omega
    simp only [rtcTime64ToTm, hdays, hsecs, hhour, hmul, hrest, hmin, hsec, hyear, hmonth, hsint,
      Date.weekday, hnumber, hyday]
    rw [Int.tmod_eq_emod_of_nonneg (by omega), Int.add_comm 4]
  have hback : rtcTmToTime64 (rtcTime64ToTm t) = t := by
    have htm := mktime64Tm_ofDate hd (show 1 ≤ y ∧ y ≤ 11000000 by omega) htime
    rw [hcode]
    exact htm.trans hsecond
  refine ⟨?_, ⟨d, _, _, _, hd, htime, hsecond, hcode⟩, hback⟩
  have hmon : uint d.month = m := uint_of_lt (x := m) (by omega) (by omega)
  have hfull : uint (y - 1900 + 1900) = y := by
    rw [sub_add_cancel, uint_of_lt (by omega) (by omega)]
  rw [hcode, rtcValidTm, if_neg]
  simp only [hmon, hfull, Int.toNat_natCast, rtcMonthDays_eq y hm, d]
  rw [uint_of_lt (x := _ / 3600) (by omega) (by omega),
    uint_of_lt (x := _ / 60) (by omega) (by omega), uint_of_lt (by omega) (by omega)]
  omega

lemma not_rtcRight (hlow : 49711 * 86400 ≤ t) (hhigh : t < yearStart 10000 * 86400) :
    ¬ RtcRight t := by
  rintro ⟨hvalid, -, -⟩
  have hlast : yearStart 10000 = 2932897 := by decide
  have hdays : sint (t.tdiv 86400) = t / 86400 := by
    rw [Int.tdiv_eq_ediv_of_nonneg (by omega), sint]
    omega
  have hhour : 24 ≤ uint (rtcTime64ToTm t).hour := by
    simp only [rtcTime64ToTm, hdays]
    rw [uint_of_lt (x := t / 86400) (by omega) (by omega)]
    have hsecs : 2 ^ 32 ≤ (t - uint (t / 86400 * 86400)) % 2 ^ 64 ∧
        (t - uint (t / 86400 * 86400)) % 2 ^ 64 < 2 ^ 40 := by
      have hp : 2 ^ 32 ≤ t / 86400 * 86400 ∧ t / 86400 * 86400 ≤ t := by omega
      generalize t / 86400 * 86400 = p at hp ⊢
      rw [uint, Int.emod_eq_of_lt (by omega) (by omega)]
      omega
    generalize (t - uint (t / 86400 * 86400)) % 2 ^ 64 = secs at hsecs ⊢
    simp only [uint, sint]
    omega
  rw [rtcValidTm, if_pos (by omega)] at hvalid
  exact absurd hvalid (by decide)

/-- The conversion is right exactly for the times before 8 February 2106, 00:00:00, of those up to
the end of the year 9999. -/
theorem rtc_conversion_iff (t : Int) (hlow : 0 ≤ t) (hhigh : t < yearStart 10000 * 86400) :
    RtcRight t ↔ t < 49711 * 86400 := by
  constructor
  · intro hright
    by_contra hlate
    exact not_rtcRight (not_lt.mp hlate) hhigh hright
  · exact rtcRight_of_lt hlow

/-- 1 January 2000, 00:00:00. -/
theorem rtc_conversion_millennium : RtcRight 946684800 :=
  (rtc_conversion_iff 946684800 (by decide) (by decide)).mpr (by decide)

/-- On 8 February 2106, 00:00:00, the hour is 1193046. -/
theorem rtc_hours_wrap : (rtcTime64ToTm 4295030400).hour = 1193046 ∧ rtcValidTm
    (rtcTime64ToTm 4295030400) = -22 := by decide

end MinimalLinux.Drivers
